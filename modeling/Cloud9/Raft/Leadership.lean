import Cloud9.Raft.ClusterCalls
import Cloud9.Raft.Commit

/-!
# Winning and keeping the leadership

What a leader's log and commit index can become in one step of the cluster: nothing changes, or
the leader runs `maybeCommit`, perhaps after appending one entry (`CommitSite`). A node that wins
an election has the log and the commit index it had before (`RaftNode.steady_of_elected`).

So what is true of a leader's core when it is elected, and is kept by `maybeCommit` wherever it is
called, is true of all leaders in a run (`Cluster.leaders_invariant`).
-/

namespace Cloud9

/-- Two cores with the same static configuration, log and commit index. -/
structure Core.Alike (core core' : Core) : Prop where
  config : core'.config = core.config
  log : core'.log = core.log
  boot : core'.persistent.bootstrapConfig = core.persistent.bootstrapConfig
  commitIndex : core'.commitIndex = core.commitIndex

namespace Core.Alike

variable {core core' core'' : Core}

theorem refl (core : Core) : core.Alike core := ⟨rfl, rfl, rfl, rfl⟩

theorem trans (h : core.Alike core') (h' : core'.Alike core'') : core.Alike core'' :=
  ⟨h'.config.trans h.config, h'.log.trans h.log, h'.boot.trans h.boot,
    h'.commitIndex.trans h.commitIndex⟩

theorem effectiveConfig (h : core.Alike core') : core'.effectiveConfig = core.effectiveConfig := by
  have hlog : core'.persistent.log = core.persistent.log := h.log
  rw [Core.effectiveConfig, Core.configAt, hlog, h.boot]
  rfl

end Core.Alike

/-- Alike, and nothing has been applied. -/
structure Core.Steady (core core' : Core) : Prop extends core.Alike core' where
  lastApplied : core'.lastApplied = core.lastApplied

namespace Core.Steady

variable {core core' core'' : Core}

theorem refl (core : Core) : core.Steady core := ⟨.refl core, rfl⟩

theorem trans (h : core.Steady core') (h' : core'.Steady core'') : core.Steady core'' :=
  ⟨h.toAlike.trans h'.toAlike, h'.lastApplied.trans h.lastApplied⟩

theorem ticks (core : Core) (ticks : ℕ) : core.Steady { core with ticks := ticks } :=
  ⟨⟨rfl, rfl, rfl, rfl⟩, rfl⟩

theorem randomElectionTimeout (core : Core) : core.Steady core.randomElectionTimeout.2 :=
  ⟨⟨rfl, rfl, rfl, rfl⟩, rfl⟩

theorem maybeUpdateTerm (core : Core) (term : ℕ) : core.Steady (core.maybeUpdateTerm term).2 := by
  unfold Core.maybeUpdateTerm
  split_ifs <;> exact ⟨⟨rfl, rfl, rfl, rfl⟩, rfl⟩

end Core.Steady

/-! ## Elections -/

theorem PreCandidate.dispatch_steady (p : PreCandidate) (core : Core) (msg : Message) :
    core.Steady (p.dispatch core msg).2.1 := by
  unfold dispatch
  split
  · unfold handlePrevoteResponse
    dsimp only
    split_ifs
    · exact .maybeUpdateTerm core _
    all_goals exact .refl core
  all_goals exact .refl core

theorem PreCandidate.step_steady (p : PreCandidate) (core : Core) (event : Event) :
    core.Steady (p.step core event).2.1 := by
  cases event with
  | tick =>
    simp only [step, handleTick]
    split_ifs
    · exact (Core.Steady.ticks core _).trans (.randomElectionTimeout _)
    · exact .ticks core _
    · exact .ticks core _
  | diskWriteComplete index => exact .refl core
  | message msg =>
    simp only [step, handleMessage]
    split
    · exact .refl core
    · split
      · exact .maybeUpdateTerm core _
      · exact p.dispatch_steady core msg

theorem Candidate.dispatch_steady (c : Candidate) (core : Core) (msg : Message) :
    core.Steady (c.dispatch core msg).2.1 := by
  unfold dispatch
  split
  · unfold handleVoteResponse
    dsimp only
    split_ifs <;> exact .refl core
  all_goals exact .refl core

theorem Candidate.step_steady (c : Candidate) (core : Core) (event : Event) :
    core.Steady (c.step core event).2.1 := by
  cases event with
  | tick =>
    simp only [step, handleTick]
    split_ifs
    · exact (Core.Steady.ticks core _).trans (.randomElectionTimeout _)
    · exact .ticks core _
    · exact .ticks core _
  | diskWriteComplete index => exact .refl core
  | message msg =>
    simp only [step, handleMessage]
    split
    · exact .refl core
    · split
      · exact .refl core
      · split
        · exact .maybeUpdateTerm core _
        · split
          · exact .refl core
          · exact c.dispatch_steady core msg

theorem Follower.adoptTerm_steady (f : Follower) (core : Core) (msg : Message) :
    core.Steady (f.adoptTerm core msg).2.2 := by
  unfold adoptTerm
  split
  · dsimp only
    split <;> exact (Core.Steady.maybeUpdateTerm core _).trans (.randomElectionTimeout _)
  · exact .refl core

theorem Follower.adoptTerm_identity (f : Follower) (core : Core) (msg : Message) :
    (f.adoptTerm core msg).2.2.id = core.id ∧ core.term ≤ (f.adoptTerm core msg).2.2.term ∧
      msg.term ≤ (f.adoptTerm core msg).2.2.term := by
  unfold adoptTerm
  split
  · next h =>
    have hupdate : (core.maybeUpdateTerm msg.term).2.term = msg.term ∧
        (core.maybeUpdateTerm msg.term).2.id = core.id := by
      have h' : msg.term > core.persistent.term := h
      rw [Core.maybeUpdateTerm, if_pos h']
      exact ⟨rfl, rfl⟩
    dsimp only
    split
    all_goals exact ⟨hupdate.2, Nat.le_of_lt (Nat.lt_of_lt_of_eq h hupdate.1.symm),
      Nat.le_of_eq hupdate.1.symm⟩
  · next h => exact ⟨rfl, le_rfl, Nat.le_of_not_lt h⟩

theorem Follower.acceptAppend_steady {core core' : Core} (h : core.Steady core')
    (req : AppendRequest) : (acceptAppend core req).Steady (acceptAppend core' req) := by
  have hlog : (acceptAppend core' req).log = (acceptAppend core req).log := by
    rw [acceptAppend_log, acceptAppend_log, h.log]
  have hcommit : (acceptAppend core' req).commitIndex = (acceptAppend core req).commitIndex := by
    simp only [acceptAppend_commitIndex, h.log, h.commitIndex]
  have hrest : ∀ c : Core, (acceptAppend c req).config = c.config ∧
      (acceptAppend c req).persistent.bootstrapConfig = c.persistent.bootstrapConfig ∧
      (acceptAppend c req).lastApplied = c.lastApplied := by
    intro c
    unfold acceptAppend
    dsimp only
    split <;> exact ⟨rfl, rfl, rfl⟩
  exact ⟨⟨((hrest core').1.trans h.config).trans (hrest core).1.symm, hlog,
    ((hrest core').2.1.trans h.boot).trans (hrest core).2.1.symm, hcommit⟩,
    ((hrest core').2.2.trans h.lastApplied).trans (hrest core).2.2.symm⟩

theorem Follower.prevMatches_steady {core core' : Core} (h : core.Steady core')
    (req : AppendRequest) : prevMatches core' req = prevMatches core req := by
  rw [prevMatches, h.log, prevMatches]

/-- What a follower's handler does to the core: nothing, or it stays follower and accepts an append
request, or is about snapshots. -/
def Follower.Handles (core : Core) (msg : Message) (r : Follower × Core × StepResult) : Prop :=
  core.Steady r.2.1 ∨ r.2.2.transition = .stay ∧
    ((∃ req, msg.payload = .appendRequest req ∧ prevMatches core req = true ∧
      (acceptAppend core req).Steady r.2.1) ∨ msg.payload.isSnapshot = true)

theorem Follower.dispatch_handles (f : Follower) (core : Core) (msg : Message) :
    Handles core msg (f.dispatch core msg) := by
  unfold dispatch
  split
  · unfold handleVoteRequest
    dsimp only
    split
    · exact .inl ⟨⟨rfl, rfl, rfl, rfl⟩, rfl⟩
    · exact .inl (.refl core)
  · next req hreq =>
    unfold handleAppendRequest
    dsimp only
    have hreset := Core.Steady.randomElectionTimeout core
    split
    · next hprev =>
      exact .inr ⟨rfl, .inl ⟨req, hreq, prevMatches_steady hreset req ▸ hprev,
        acceptAppend_steady hreset req⟩⟩
    · exact .inl hreset
  · exact .inl (.randomElectionTimeout core)
  · next req hreq =>
    refine .inr ⟨?_, .inr (by rw [hreq]; rfl)⟩
    unfold handleInstallSnapshot
    dsimp only
    split_ifs <;> rfl
  · exact .inl (.refl core)
  · exact .inl (.refl core)

/-- What an event does to a follower's core. -/
theorem Follower.step_handles (f : Follower) (core : Core) (event : Event) :
    core.Steady (f.step core event).2.1 ∨ ∃ msg, event = .message msg ∧ core.term ≤ msg.term ∧
      Handles core msg (f.step core event) := by
  cases event with
  | tick =>
    simp only [step, handleTick]
    split_ifs <;> exact .inl (.ticks core _)
  | diskWriteComplete index => exact .inl (.refl core)
  | message msg =>
    simp only [step, handleMessage]
    split
    · exact .inl (.refl core)
    · split
      · exact .inl (.refl core)
      · have hadopt := f.adoptTerm_steady core msg
        split
        · exact .inl hadopt
        · next hstale =>
          have hle := (f.adoptTerm_identity core msg).2.1
          refine .inr ⟨msg, rfl, Nat.le_trans hle (Nat.le_of_not_lt hstale), ?_⟩
          rcases dispatch_handles (f.adoptTerm core msg).2.1 (f.adoptTerm core msg).2.2 msg with
            hsteady | ⟨hstay, ⟨req, hreq, hprev, haccept⟩ | hsnap⟩
          · exact .inl (hadopt.trans hsteady)
          · exact .inr ⟨hstay, .inl ⟨req, hreq, prevMatches_steady hadopt req ▸ hprev,
              (acceptAppend_steady hadopt req).trans haccept⟩⟩
          · exact .inr ⟨hstay, .inr hsnap⟩

namespace RaftNode

theorem becomeCandidate_steady (core : Core) (effects : Effects) :
    core.Steady (becomeCandidate core effects).1.core := by
  have hnew : core.Steady (Candidate.new core).2.1 := by
    unfold Candidate.new
    dsimp only
    split_ifs <;> exact ⟨⟨rfl, rfl, rfl, rfl⟩, rfl⟩
  unfold becomeCandidate
  dsimp only
  split_ifs
  · exact hnew
  · exact hnew

theorem applyTransition_steady (n : RaftNode) (t : Transition) :
    n.core.Steady (n.applyTransition t).1.core := by
  cases t with
  | stay => exact .refl _
  | toFollower leader => exact .randomElectionTimeout _
  | toFollowerAfterContact leader => exact .randomElectionTimeout _
  | toPreCandidate =>
    have hnew : n.core.Steady (PreCandidate.new n.core).2.1 := by
      unfold PreCandidate.new
      dsimp only
      split_ifs <;> exact ⟨⟨rfl, rfl, rfl, rfl⟩, rfl⟩
    simp only [applyTransition]
    split_ifs
    · exact hnew.trans (becomeCandidate_steady _ _)
    · exact hnew
  | toCandidate => exact becomeCandidate_steady _ _
  | toLeader => exact .refl _

/-- **A node wins an election with the log and the commit index it has.** -/
theorem steady_of_elected {n : RaftNode} {event : Event} (hn : n.isLeader = false)
    (hlead : (n.stepEvent event).1.isLeader = true) : n.core.Steady (n.stepEvent event).1.core := by
  obtain ⟨core, role⟩ := n
  unfold stepEvent at hlead ⊢
  dsimp only at hlead ⊢
  refine Core.Steady.trans ?_ (applyTransition_steady _ _)
  cases role with
  | leader l => cases hn
  | preCandidate p => exact p.step_steady core event
  | candidate c => exact c.step_steady core event
  | follower f =>
    rcases f.step_handles core event with hsteady | ⟨msg, -, -, hsteady | ⟨hstay, -⟩⟩
    · exact hsteady
    · exact hsteady
    · simp only [roleStep, hstay, applyTransition] at hlead
      cases hlead

end RaftNode

/-! ## A leader's step -/

/-- The cores on which the calls of leader `id` run `maybeCommit`: the core it has, or this core
with one entry appended. -/
inductive CommitSite (id : NodeId) (core : Core) : Input → Core → Prop
  | now (input : Input) : CommitSite id core input core
  | command (cmd : Command) :
    CommitSite id core (.propose id cmd) (Leader.appendEntry core (.command cmd))
  | change (l : Leader) (change : ConfigChange) (h : l.checkConfigChange core change = .ok ()) :
    CommitSite id core (.proposeConfigChange id change) (Leader.appendEntry core
      (.config (change.apply core.effectiveConfig core.config.membershipMode)))

/-- What a step makes of the core of a leader that stays leader. -/
def LeaderStep (id : NodeId) (core : Core) (input : Input) (core' : Core) : Prop :=
  core.Alike core' ∨ ∃ l core₁, CommitSite id core input core₁ ∧
    (Leader.maybeCommit l core₁).2.2.2 = false ∧ core' = (Leader.maybeCommit l core₁).2.1

namespace Leader

/-- A leader's handler keeps the leadership or gives it up, after at most a commit. A commit that
asks the leader to step down makes it give up. -/
def Kept (core : Core) (r : Leader × Core × StepResult) : Prop :=
  (r.2.2.transition = .stay ∨ ∃ leader, r.2.2.transition = .toFollower leader) ∧
    (core.Steady r.2.1 ∨ ∃ l, r.2.1 = (maybeCommit l core).2.1 ∧
      (r.2.2.transition = .stay → (maybeCommit l core).2.2.2 = false))

theorem Kept.of_steady {core : Core} {r : Leader × Core × StepResult}
    (hstay : r.2.2.transition = .stay) (h : core.Steady r.2.1) : Kept core r :=
  ⟨.inl hstay, .inl h⟩

theorem afterCommit_kept (l : Leader) (core : Core) :
    Kept core (afterCommit (l.maybeCommit core)) := by
  cases hdown : (l.maybeCommit core).2.2.2 with
  | true =>
    have htr : (afterCommit (l.maybeCommit core)).2.2.transition = .toFollower none := by
      simp [afterCommit, hdown, StepResult.toFollower]
    exact ⟨.inr ⟨none, htr⟩, .inr ⟨l, rfl, fun hstay => by rw [htr] at hstay; cases hstay⟩⟩
  | false =>
    have htr : (afterCommit (l.maybeCommit core)).2.2.transition = .stay := by
      simp [afterCommit, hdown, StepResult.stay]
    exact ⟨.inl htr, .inr ⟨l, rfl, fun _ => hdown⟩⟩

theorem dispatch_kept (l : Leader) (core : Core) (msg : Message) :
    Kept core (l.dispatch core msg) := by
  unfold dispatch
  split
  · unfold handleAppendResponse
    split_ifs
    · exact .of_steady rfl (.refl core)
    · exact afterCommit_kept _ core
    · exact afterCommit_kept _ core
    · exact .of_steady rfl (.refl core)
  · unfold handleInstallSnapshotResponse
    split_ifs
    · exact .of_steady rfl (.refl core)
    · exact .of_steady rfl (.refl core)
    · exact afterCommit_kept _ core
  all_goals exact .of_steady rfl (.refl core)

theorem step_kept (l : Leader) (core : Core) (event : Event) : Kept core (l.step core event) := by
  cases event with
  | tick =>
    simp only [step, handleTick]
    split
    · split <;> exact .of_steady rfl (.ticks core _)
    · exact .of_steady rfl (.ticks core _)
  | diskWriteComplete index =>
    simp only [step, handleDiskWriteComplete]
    split
    · exact afterCommit_kept _ core
    · exact .of_steady rfl (.refl core)
  | message msg =>
    simp only [step, handleMessage]
    split
    · exact .of_steady rfl (.refl core)
    · split
      · exact ⟨.inr ⟨_, rfl⟩, .inl (.maybeUpdateTerm core _)⟩
      · split
        · exact .of_steady rfl (.refl core)
        · exact l.dispatch_kept core msg

end Leader

namespace RaftNode

/-- What an event can do to a core. -/
inductive CoreStep (n : RaftNode) (event : Event) (core' : Core) : Prop
  | steady (h : n.core.Steady core')
  | commit (hn : n.isLeader = true) (l : Leader) (h : (l.maybeCommit n.core).2.1.Steady core')
  | accept (msg : Message) (req : AppendRequest) (hev : event = .message msg)
      (hreq : msg.payload = .appendRequest req) (hacc : n.acceptsAppend msg = true)
      (h : (Follower.acceptAppend n.core req).Steady core')
  | snapshot (msg : Message) (hev : event = .message msg) (h : msg.payload.isSnapshot = true)

theorem CoreStep.trans {n : RaftNode} {event : Event} {core core' : Core}
    (h : CoreStep n event core) (h' : core.Steady core') : CoreStep n event core' := by
  cases h with
  | steady h => exact .steady (h.trans h')
  | commit hn l h => exact .commit hn l (h.trans h')
  | accept msg req hev hreq hacc h => exact .accept msg req hev hreq hacc (h.trans h')
  | snapshot msg hev h => exact .snapshot msg hev h

/-- **What an event does to the log and the commit index of a node.** -/
theorem stepEvent_core (n : RaftNode) (event : Event) :
    CoreStep n event (n.stepEvent event).1.core := by
  unfold stepEvent
  refine CoreStep.trans ?_ (applyTransition_steady _ _)
  obtain ⟨core, role⟩ := n
  cases role with
  | preCandidate p => exact .steady (p.step_steady core event)
  | candidate c => exact .steady (c.step_steady core event)
  | follower f =>
    rcases f.step_handles core event with hsteady | ⟨msg, hev, hterm, hsteady | ⟨-, hrest⟩⟩
    · exact .steady hsteady
    · exact .steady hsteady
    · rcases hrest with ⟨req, hreq, hprev, haccept⟩ | hsnap
      · refine .accept msg req hev hreq ?_ haccept
        simp only [acceptsAppend, hreq, hprev, Bool.and_true, decide_eq_true_eq]
        exact hterm
      · exact .snapshot msg hev hsnap
  | leader l =>
    obtain ⟨-, hsteady | ⟨l', hcore, -⟩⟩ := l.step_kept core event
    · exact .steady hsteady
    · exact .commit rfl l' (by simp only [roleStep, hcore]; exact .refl _)

theorem stepEvent_leaderStep {n : RaftNode} {event : Event} {id : NodeId} {input : Input}
    (hn : n.isLeader = true) (hlead : (n.stepEvent event).1.isLeader = true) :
    LeaderStep id n.core input (n.stepEvent event).1.core := by
  obtain ⟨core, role⟩ := n
  cases role with
  | leader l =>
    simp only [stepEvent, roleStep] at hlead ⊢
    obtain ⟨htr | ⟨leader, htr⟩, hcore⟩ := l.step_kept core event
    · simp only [htr, applyTransition]
      exact hcore.imp Core.Steady.toAlike fun ⟨l', heq, hflag⟩ =>
        ⟨l', core, .now input, hflag htr, heq⟩
    · rw [htr] at hlead
      cases hlead
  | _ => cases hn

theorem settle_isLeader {core : Core} {l : Leader} {down : Bool}
    (h : (settle core l down).isLeader = true) :
    down = false ∧ (settle core l down).core = core := by
  cases down with
  | true => cases h
  | false => exact ⟨rfl, rfl⟩

theorem propose_leaderStep {n n' : RaftNode} {cmd : Command} {id : NodeId}
    {r : Except ProposeError (ℕ × Effects)} (h : n.propose cmd = some (n', r))
    (hlead : n'.isLeader = true) : LeaderStep id n.core (.propose id cmd) n'.core := by
  cases propose_cases h with
  | refused => exact .inl (.refl _)
  | accepted l core core' hcore =>
    obtain ⟨hdown, hkept⟩ := settle_isLeader hlead
    subst hcore
    exact .inr ⟨_, _, .command cmd, hdown, hkept⟩

theorem proposeConfigChange_leaderStep {n n' : RaftNode} {change : ConfigChange} {id : NodeId}
    {r : Except ConfigChangeError (ℕ × Effects)} (h : n.proposeConfigChange change = (n', r))
    (hlead : n'.isLeader = true) :
    LeaderStep id n.core (.proposeConfigChange id change) n'.core := by
  cases proposeConfigChange_cases h with
  | refused => exact .inl (.refl _)
  | accepted l core core' hcheck hcore =>
    obtain ⟨hdown, hkept⟩ := settle_isLeader hlead
    subst hcore
    exact .inr ⟨_, _, .change l change hcheck, hdown, hkept⟩

theorem propose_alike {n n' : RaftNode} {cmd : Command} {r : Except ProposeError (ℕ × Effects)}
    (hn : n.isLeader = false) (h : n.propose cmd = some (n', r)) : n.core.Alike n'.core := by
  obtain ⟨core, role⟩ := n
  cases role with
  | leader l => cases hn
  | _ =>
    cases h
    exact .refl _

theorem proposeConfigChange_alike {n : RaftNode} (change : ConfigChange)
    (hn : n.isLeader = false) : n.core.Alike (n.proposeConfigChange change).1.core := by
  obtain ⟨core, role⟩ := n
  cases role with
  | leader l => cases hn
  | _ => exact .refl _

theorem requestReadIndex_alike (n : RaftNode) : n.core.Alike n.requestReadIndex.1.core := by
  obtain ⟨core, role⟩ := n
  cases role <;> exact .refl _

end RaftNode

/-! ## Leaders of a cluster -/

namespace Cluster

variable {c c' : Cluster}

/-- What a call makes of a leader. -/
theorem call_leader {input : Input} {r : RaftNode × Effects} (hr : c.call input = some r)
    (hlead : r.1.isLeader = true) :
    ((c.nodes input.node).isLeader = false → (c.nodes input.node).core.Alike r.1.core) ∧
      ((c.nodes input.node).isLeader = true →
        LeaderStep input.node (c.nodes input.node).core input r.1.core) := by
  have hevent : ∀ {n : RaftNode} {event}, (n.stepEvent event).1.isLeader = true →
      (n.isLeader = false → n.core.Alike (n.stepEvent event).1.core) ∧
        (n.isLeader = true → LeaderStep input.node n.core input (n.stepEvent event).1.core) :=
    fun hl => ⟨fun hn => (RaftNode.steady_of_elected hn hl).toAlike,
      fun hn => RaftNode.stepEvent_leaderStep hn hl⟩
  cases input with
  | tick id =>
    cases hr
    exact hevent hlead
  | deliver msg =>
    simp only [call] at hr
    split_ifs at hr
    cases hr
    exact hevent hlead
  | diskWriteComplete id index =>
    simp only [call] at hr
    split_ifs at hr
    cases hr
    exact hevent hlead
  | propose id cmd =>
    obtain ⟨⟨n, res⟩, hres, rfl⟩ := Option.map_eq_some_iff.1 hr
    exact ⟨fun hn => RaftNode.propose_alike hn hres,
      fun _ => RaftNode.propose_leaderStep hres hlead⟩
  | proposeConfigChange id change =>
    cases hr
    exact ⟨RaftNode.proposeConfigChange_alike change,
      fun _ => RaftNode.proposeConfigChange_leaderStep rfl hlead⟩
  | requestReadIndex id =>
    cases hr
    have hcore := (c.nodes id).requestReadIndex_alike
    exact ⟨fun _ => hcore, fun _ => .inl hcore⟩
  | transferLeadership id target =>
    simp only [call] at hr
    split at hr <;> cases hr <;> exact ⟨fun _ => .refl _, fun _ => .inl (.refl _)⟩
  | advance id appliedTo =>
    cases hr
    exact ⟨fun _ => ⟨rfl, rfl, rfl, rfl⟩, fun _ => .inl ⟨rfl, rfl, rfl, rfl⟩⟩
  | restart id =>
    cases hr
    cases hlead

/-- The input delivers an append request that its node accepts. -/
def accepts (c : Cluster) : Input → Bool
  | .deliver msg => (c.nodes msg.to).acceptsAppend msg
  | _ => false

/-- What a call makes of a node that does not lead. -/
theorem call_follower (h : c.Sound) {input : Input} {r : RaftNode × Effects}
    (hr : c.call input = some r) (hn : (c.nodes input.node).isLeader = false) :
    (c.nodes input.node).core.Alike r.1.core ∨ c.accepts input = true ∨
      r.1.core.commitIndex = 0 := by
  cases input with
  | tick id =>
    cases hr
    cases (c.nodes id).stepEvent_core .tick with
    | steady hs => exact .inl hs.toAlike
    | commit hl => exact absurd hl (ne_true_of_eq_false hn)
    | accept _ _ hev => cases hev
    | snapshot _ hev => cases hev
  | deliver msg =>
    simp only [call] at hr
    split_ifs at hr with hmem
    cases hr
    cases (c.nodes msg.to).stepEvent_core (.message msg) with
    | steady hs => exact .inl hs.toAlike
    | commit hl => exact absurd hl (ne_true_of_eq_false hn)
    | accept _ _ hev _ hacc =>
      cases hev
      exact .inr (.inl hacc)
    | snapshot _ hev hsnap =>
      cases hev
      exact absurd hsnap (ne_true_of_eq_false (h.noSnapshot msg hmem))
  | diskWriteComplete id index =>
    simp only [call] at hr
    split_ifs at hr
    cases hr
    cases (c.nodes id).stepEvent_core (.diskWriteComplete index) with
    | steady hs => exact .inl hs.toAlike
    | commit hl => exact absurd hl (ne_true_of_eq_false hn)
    | accept _ _ hev => cases hev
    | snapshot _ hev => cases hev
  | propose id cmd =>
    obtain ⟨⟨n, res⟩, hres, rfl⟩ := Option.map_eq_some_iff.1 hr
    exact .inl (RaftNode.propose_alike hn hres)
  | proposeConfigChange id change =>
    cases hr
    exact .inl (RaftNode.proposeConfigChange_alike change hn)
  | requestReadIndex id =>
    cases hr
    exact .inl (c.nodes id).requestReadIndex_alike
  | transferLeadership id target =>
    simp only [call] at hr
    split at hr <;> cases hr <;> exact .inl (.refl _)
  | advance id appliedTo =>
    cases hr
    exact .inl ⟨rfl, rfl, rfl, rfl⟩
  | restart id =>
    cases hr
    exact .inr (.inr rfl)

/-- **A leader's log and commit index come from its election or from a leader's step.** -/
theorem step_leader {input : Input} (hstep : c.step input = some c') {id : NodeId}
    (hlead : (c'.nodes id).isLeader = true) :
    ((c.nodes id).isLeader = false → (c.nodes id).core.Alike (c'.nodes id).core) ∧
      ((c.nodes id).isLeader = true →
        LeaderStep id (c.nodes id).core input (c'.nodes id).core) := by
  obtain ⟨r, hr, rfl⟩ := step_eq_some.1 hstep
  simp only [apply] at hlead ⊢
  rcases eq_or_ne id input.node with rfl | hid
  · rw [Function.update_self] at hlead ⊢
    exact call_leader hr hlead
  · rw [Function.update_of_ne hid]
    exact ⟨fun _ => .refl _, fun _ => .inl (.refl _)⟩

/-- **The rule for leaders**: what a node's core has when it wins an election, and what
`maybeCommit` keeps wherever a leader calls it, all leaders have in every run. -/
theorem leaders_invariant {J : Core → Prop} {ok : Cluster → Input → Bool}
    (halike : ∀ {core core'}, Core.Alike core core' → J core → J core')
    (helect : ∀ {c input c' id}, ok c input = true → step c input = some c' →
      (c.nodes id).core.log.Plain → (c.nodes id).isLeader = false →
      (c'.nodes id).isLeader = true → J (c.nodes id).core)
    (hcommit : ∀ {c input id l core₁}, ok c input = true → (c.nodes id).isLeader = true →
      (c.nodes id).core.log.Plain → J (c.nodes id).core →
      CommitSite id (c.nodes id).core input core₁ → (Leader.maybeCommit l core₁).2.2.2 = false →
      J (Leader.maybeCommit l core₁).2.1)
    {configs : NodeId → Config} {voters : List NodeId} {inputs : List Input}
    (hrun : (init configs voters).run ok inputs = some c) {id : NodeId}
    (hlead : (c.nodes id).isLeader = true) : J (c.nodes id).core := by
  let I : Cluster → Prop := fun c =>
    c.Shaped ∧ ∀ id, (c.nodes id).isLeader = true → J (c.nodes id).core
  have hinit : I (init configs voters) := ⟨shaped_init configs voters, fun id hl => by cases hl⟩
  refine (runWhile_invariant ?_ hinit hrun).2 id hlead
  rintro c input c' ⟨hshaped, hJ⟩ hok hstep
  refine ⟨hshaped.step hstep, fun id hl => ?_⟩
  obtain ⟨helected, hkept⟩ := step_leader hstep hl
  cases hn : (c.nodes id).isLeader with
  | false => exact halike (helected hn) (helect hok hstep (hshaped.nodes id).plain hn hl)
  | true =>
    rcases hkept hn with halike' | ⟨l, core₁, hsite, hflag, hcore⟩
    · exact halike halike' (hJ id hn)
    · rw [hcore]
      exact hcommit hok hn (hshaped.nodes id).plain (hJ id hn) hsite hflag

end Cluster

end Cloud9
