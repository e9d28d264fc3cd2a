import Cloud9.Raft.Intact

/-!
# Persistent changes are announced

The effects of a call ask to persist the state whenever the call has changed it. The flag is set by
hand in the branches of four roles and merged along the transitions, so the statement is carried by
one relation, `Effects.Covers`, that composes as the effects are merged.

The follower's append loop is the one place where the flag is computed: it is set when an entry is
appended, not when a suffix is cut. On a contiguous log a cut is always followed by an append,
provided that the request skips no index (`RaftNode.stepEvent_covers`).
-/

namespace Cloud9

/-- The persistent state has changed only if the effects ask to persist it. -/
def Effects.Covers (e : Effects) (core core' : Core) : Prop :=
  e.persist = false → core'.persistent = core.persistent

namespace Effects.Covers

variable {e f : Effects} {core core' core'' : Core}

theorem of_eq (h : core'.persistent = core.persistent) : e.Covers core core' := fun _ => h

theorem refl : e.Covers core core := of_eq rfl

theorem of_persist (h : e.persist = true) : e.Covers core core' := by
  intro hp
  rw [h] at hp
  cases hp

theorem merge (h : e.Covers core core') (h' : f.Covers core' core'') :
    (e.merge f).Covers core core'' := by
  intro hp
  rw [merge_persist, Bool.or_eq_false_iff] at hp
  exact (h' hp.2).trans (h hp.1)

end Effects.Covers

/-- A role's step covers what it does to the core. -/
def StepResult.Covers {R : Type} (core : Core) (r : R × Core × StepResult) : Prop :=
  r.2.2.effects.Covers core r.2.1

/-! ## Elections -/

theorem PreCandidate.step_covers (p : PreCandidate) (core : Core) (event : Event) :
    StepResult.Covers core (p.step core event) := by
  cases event with
  | tick =>
    simp only [step, handleTick]
    split_ifs <;> exact .of_eq rfl
  | diskWriteComplete index => exact .refl
  | message msg =>
    simp only [step, handleMessage]
    split
    · exact .refl
    · split
      · exact .of_persist rfl
      · unfold dispatch
        split
        · unfold handlePrevoteResponse
          dsimp only
          split_ifs
          · exact .of_persist rfl
          all_goals exact .refl
        all_goals exact .refl

theorem Candidate.step_covers (c : Candidate) (core : Core) (event : Event) :
    StepResult.Covers core (c.step core event) := by
  cases event with
  | tick =>
    simp only [step, handleTick]
    split_ifs <;> exact .of_eq rfl
  | diskWriteComplete index => exact .refl
  | message msg =>
    simp only [step, handleMessage]
    split
    · exact .refl
    · split
      · exact .refl
      · split
        · exact .of_persist rfl
        · split
          · exact .refl
          · unfold dispatch
            split
            · unfold handleVoteResponse
              dsimp only
              split_ifs <;> exact .refl
            all_goals exact .refl

/-! ## The follower -/

namespace Follower

/-- The flag of the append loop tells whether the log has changed. -/
def FlagTells (log : Log) (req : AppendRequest) : Prop :=
  (appendEntries log req.entries).2 = false → (appendEntries log req.entries).1 = log

theorem flagTells_of_gapless {log : Log} (h : log.Contiguous) (hsnap : log.snapshotIndex = 0)
    {req : AppendRequest} (hgap : gapless log.lastIndex req.entries = true) :
    FlagTells log req := by
  intro hflag
  rcases (appendEntries_loopResult_zero h hsnap hgap).flag with heq | hset
  · rw [heq]
  · rw [hset] at hflag
    cases hflag

/-- Either the term is kept, or it is the term of the message and the flag is set. -/
theorem adoptTerm_persistent (f : Follower) (core : Core) (msg : Message) :
    (f.adoptTerm core msg).2.2.persistent = core.persistent ∨
      (f.adoptTerm core msg).1 = true ∧ (f.adoptTerm core msg).2.2.term = msg.term := by
  unfold adoptTerm
  split
  · next hlt =>
    have hupdate : core.maybeUpdateTerm msg.term = (true, { core with persistent :=
        { core.persistent with term := msg.term, votedFor := none } }) := if_pos hlt
    rw [hupdate]
    dsimp only
    split <;> exact .inr ⟨rfl, rfl⟩
  · exact .inl rfl

theorem dispatch_covers (f : Follower) (core : Core) (msg : Message)
    (hflag : ∀ req, msg.payload = .appendRequest req → prevMatches core req = true →
      FlagTells core.log req) :
    StepResult.Covers core (f.dispatch core msg) := by
  unfold dispatch
  split
  · unfold handleVoteRequest
    dsimp only
    split
    · exact .of_persist rfl
    · exact .refl
  · next req hreq =>
    unfold handleAppendRequest
    dsimp only
    split
    · next hprev =>
      intro hp
      have hp : (if (appendEntries core.log req.entries).2 = true then Effects.none.withPersist
        else Effects.none).persist = false := hp
      cases hset : (appendEntries core.log req.entries).2 with
      | true =>
        rw [hset] at hp
        cases hp
      | false =>
        have hlog := hflag req hreq hprev hset
        exact (acceptAppend_persistent _ req).trans
          (congrArg (fun log => { core.persistent with log }) hlog)
    · exact .of_eq rfl
  · exact .of_eq rfl
  · unfold handleInstallSnapshot
    dsimp only
    split_ifs
    · exact .of_eq rfl
    · exact .of_eq rfl
    · exact .of_persist rfl
  · exact .refl
  · exact .refl

theorem step_covers (f : Follower) (core : Core) (event : Event)
    (hflag : ∀ msg req, event = .message msg → msg.payload = .appendRequest req →
      core.term ≤ msg.term → prevMatches core req = true → FlagTells core.log req) :
    StepResult.Covers core (f.step core event) := by
  cases event with
  | tick =>
    simp only [step, handleTick]
    split_ifs <;> exact .of_eq rfl
  | diskWriteComplete index => exact .refl
  | message msg =>
    simp only [step, handleMessage]
    split
    · exact .refl
    · split
      · exact .refl
      · have hadopt := f.adoptTerm_steady core msg
        have hle := (f.adoptTerm_identity core msg).2.1
        split
        · next hstale =>
          rcases f.adoptTerm_persistent core msg with hkept | ⟨-, hterm⟩
          · exact .of_eq hkept
          · exact absurd hterm (Nat.ne_of_gt hstale)
        · next hcurrent =>
          have hdispatch := dispatch_covers (f.adoptTerm core msg).2.1 (f.adoptTerm core msg).2.2
            msg (fun req hreq hprev => by
              rw [hadopt.log]
              exact hflag msg req rfl hreq (Nat.le_trans hle (Nat.le_of_not_lt hcurrent))
                (prevMatches_steady hadopt req ▸ hprev))
          rcases f.adoptTerm_persistent core msg with hkept | ⟨hset, -⟩
          · intro hp
            refine (hdispatch ?_).trans hkept
            dsimp only at hp
            split at hp
            · cases hp
            · exact hp
          · rw [hset]
            exact .of_persist rfl

end Follower

/-! ## The leader -/

namespace Leader

theorem maybeCommit_covers (l : Leader) (core : Core) :
    (l.maybeCommit core).2.2.1.Covers core (l.maybeCommit core).2.1 := by
  refine maybeCommit_induct (I := fun _ core' e => e.Covers core core') (fun _ _ _ _ h _ _ => h)
    (fun l' core' e cfg h hp => ?_) (fun l' core' e target h => ?_) l .refl
  · exact h (Bool.or_eq_false_iff.1 hp).1
  · -- The target of a joint configuration is appended and the flag set.
    refine .of_persist ?_
    rw [Effects.merge_persist,
      show (l'.appendTransitionTarget core' target).2.2.persist = true from rfl, Bool.or_true]

theorem afterCommit_covers (l : Leader) (core : Core) :
    StepResult.Covers core (afterCommit (l.maybeCommit core)) := by
  intro hp
  refine l.maybeCommit_covers core ?_
  simp only [afterCommit] at hp
  split_ifs at hp <;> exact hp

theorem dispatch_covers (l : Leader) (core : Core) (msg : Message) :
    StepResult.Covers core (l.dispatch core msg) := by
  unfold dispatch
  split
  · unfold handleAppendResponse
    split_ifs
    · exact .refl
    · exact afterCommit_covers _ core
    · exact afterCommit_covers _ core
    · exact .refl
  · unfold handleInstallSnapshotResponse
    split_ifs
    · exact .refl
    · exact .refl
    · exact afterCommit_covers _ core
  all_goals exact .refl

theorem step_covers (l : Leader) (core : Core) (event : Event) :
    StepResult.Covers core (l.step core event) := by
  cases event with
  | tick =>
    simp only [step, handleTick]
    split
    · split <;> exact .of_eq rfl
    · exact .of_eq rfl
  | diskWriteComplete index =>
    simp only [step, handleDiskWriteComplete]
    split
    · exact afterCommit_covers _ core
    · exact .refl
  | message msg =>
    simp only [step, handleMessage]
    split
    · exact .refl
    · split
      · exact .of_persist rfl
      · split
        · exact .refl
        · exact l.dispatch_covers core msg

end Leader

/-! ## The node -/

namespace RaftNode

theorem becomeCandidate_persist (core : Core) (effects : Effects) :
    (becomeCandidate core effects).2.persist = true := by
  have hnew : (Candidate.new core).2.2.persist = true := by
    unfold Candidate.new
    dsimp only
    split_ifs <;> rfl
  unfold becomeCandidate
  dsimp only
  split_ifs
  · simp [becomeLeader, hnew]
  · simp [hnew]

theorem applyTransition_covers (n : RaftNode) (t : Transition) :
    (n.applyTransition t).2.Covers n.core (n.applyTransition t).1.core := by
  cases t with
  | stay => exact .refl
  | toFollower leader => exact .of_eq rfl
  | toFollowerAfterContact leader => exact .of_eq rfl
  | toPreCandidate =>
    have hnew : (PreCandidate.new n.core).2.1.persistent = n.core.persistent := by
      unfold PreCandidate.new
      dsimp only
      split_ifs <;> rfl
    simp only [applyTransition]
    split_ifs
    · exact .of_persist (becomeCandidate_persist _ _)
    · exact .of_eq hnew
  | toCandidate => exact .of_persist (becomeCandidate_persist _ _)
  | toLeader => exact .of_eq rfl

/-- **Every event announces what it changes**, if the log is contiguous and without snapshot, and an
accepted append request skips no index. -/
theorem stepEvent_covers {n : RaftNode} (h : n.core.log.Contiguous)
    (hsnap : n.core.log.snapshotIndex = 0) {event : Event} (hgap : n.gapless event = true) :
    (n.stepEvent event).2.Covers n.core (n.stepEvent event).1.core := by
  unfold stepEvent
  refine Effects.Covers.merge ?_ (applyTransition_covers _ _)
  obtain ⟨core, role⟩ := n
  cases role with
  | preCandidate p => exact p.step_covers core event
  | candidate c => exact c.step_covers core event
  | leader l => exact l.step_covers core event
  | follower f =>
    refine f.step_covers core event ?_
    rintro msg req rfl hreq hterm hprev
    refine Follower.flagTells_of_gapless h hsnap ?_
    simpa [gapless, acceptsAppend, hreq, hterm, hprev] using hgap

/-- An accepted proposal asks to persist. -/
theorem propose_persist {n n' : RaftNode} {cmd : Command} {index : ℕ} {effects : Effects}
    (h : n.propose cmd = some (n', .ok (index, effects))) : effects.persist = true := by
  cases propose_cases h
  rfl

end RaftNode

end Cloud9
