import Cloud9.Lib.Run
import Cloud9.Raft.LeaderStep
import Cloud9.Raft.Leadership
import Cloud9.Raft.Words

/-!
# A leader's tenure

The calls a node's owner can make (`ApiCall`), and what they do to the log of a leader. Entries
reach it from proposals, from configuration changes and from the commit loop, which appends the
target of a joint configuration it passes; nothing ever removes one (`leader_append_only`).

A tenure is a run of calls each of which finds the node leading. The last one may end it. It is
counted in words: on a log that ends at `u64::MAX` the next entry gets index 0 (`index_wraps`).
-/

namespace Cloud9

/-- A call of the API of one node. -/
inductive ApiCall where
  | event (event : Event)
  | propose (cmd : Command)
  | proposeConfigChange (change : ConfigChange)
  | requestReadIndex
  | transferLeadership (target : NodeId)
  | advance (appliedTo : ℕ)

/-- What a call comes to. A proposal that panics in the admission check has no result. -/
def RaftNode.call (n : RaftNode) : ApiCall → Option (RaftNode × Effects)
  | .event event => some (n.stepEvent event)
  | .propose cmd => (n.propose cmd).map fun (n, r) => (n, Cluster.effectsOf r)
  | .proposeConfigChange change =>
    let (n, r) := n.proposeConfigChange change
    some (n, Cluster.effectsOf r)
  | .requestReadIndex =>
    let (n, r) := n.requestReadIndex
    some (n, Cluster.effectsOf r)
  | .transferLeadership target =>
    match n.transferLeadership target with
    | .ok effects => some (n, effects)
    | .error _ => some (n, Effects.none)
  | .advance appliedTo => some (n.advance appliedTo, Effects.none)

/-- What a call to a leader comes to on words, if it returns: it does not panic, and no loop of
`maybe_commit` takes more than so many turns. What is left to `call` is not about the log. -/
def RaftNode.call? (turns : ℕ) (n : RaftNode) (call : ApiCall) : Option (RaftNode × Effects) :=
  match n.role, call with
  | .leader l, .event event =>
    (l.step? turns n.core event).map fun r =>
      let next := applyTransition ⟨r.2.1, .leader r.1⟩ r.2.2.transition
      (next.1, r.2.2.effects.merge next.2)
  | .leader l, .propose cmd =>
    match n.core.proposalLimitExceeded cmd with
    | none => none
    | some true => some (n, Effects.none)
    | some false => (l.propose? turns n.core cmd).map fun r => (settle r.2.1 r.1 r.2.2.2, r.2.2.1)
  | .leader l, .proposeConfigChange change =>
    (l.proposeConfigChange? turns n.core change).map fun
      | .error _ => (n, Effects.none)
      | .ok r => (settle r.2.1 r.1 r.2.2.2, r.2.2.1)
  | _, call => n.call call

/-- Make calls to a node, each of which finds it leading and returns. -/
def RaftNode.tenure? (turns : ℕ) (n : RaftNode) (calls : List ApiCall) : Option RaftNode :=
  runWhile (fun n call => (n.call? turns call).map Prod.fst) (fun n _ => n.isLeader) n calls

/-! ## What a call comes to -/

/-- The ways a call to a leader can go. -/
inductive Leader.Called (l : Leader) (core : Core) : ApiCall → RaftNode × Effects → Prop
  | event (event : Event) :
    Called l core (.event event) (RaftNode.stepEvent ⟨core, .leader l⟩ event)
  | command (cmd : Command) :
    Called l core (.propose cmd) ((l.recordOwnMatch (appendEntry core (.command cmd))
      (core.log.lastIndex + 1)).publish (appendEntry core (.command cmd)))
  | change (change : ConfigChange) (core' : Core)
      (hcheck : l.checkConfigChange core change = .ok ())
      (hcore : core' = appendEntry core
        (.config (change.apply core.effectiveConfig core.config.membershipMode))) :
    Called l core (.proposeConfigChange change)
      (((l.recordOwnMatch core' (core.log.lastIndex + 1)).reinitProgress core').publish core')
  /-- Refused proposals, reads, the transfer of leadership and the progress of the application. -/
  | quiet (call : ApiCall) (l' : Leader) (applied : ℕ) (e : Effects)
      (hnext : l'.nextIndex = l.nextIndex) (hmatch : l'.matchIndex = l.matchIndex)
      (he : ∀ m ∈ e.messages, m.payload.isNoise = true) :
    Called l core call (⟨{ core with lastApplied := applied }, .leader l'⟩, e)

namespace Leader.Called

variable {l : Leader} {core : Core}

theorem refused (call : ApiCall) : l.Called core call (⟨core, .leader l⟩, Effects.none) :=
  .quiet call l core.lastApplied _ rfl rfl Effects.noise_none

theorem requestReadIndex :
    l.Called core .requestReadIndex (⟨core, .leader (l.requestReadIndex core).1⟩,
      Cluster.effectsOf (l.requestReadIndex core).2) := by
  unfold Leader.requestReadIndex
  split
  · exact .refused _
  · dsimp only
    split_ifs
    · exact .refused _
    · exact .quiet _ _ core.lastApplied _ rfl rfl Effects.noise_none
    · exact .quiet _ _ core.lastApplied _ rfl rfl (readIndexRequests_noise core _)

theorem transferLeadership {target : NodeId} {e : Effects}
    (h : l.transferLeadership core target = .ok e) :
    l.Called core (.transferLeadership target) (⟨core, .leader l⟩, e) := by
  unfold Leader.transferLeadership at h
  dsimp only at h
  split_ifs at h
  cases h
  exact .quiet _ l core.lastApplied _ rfl rfl (Effects.noise_withMessage rfl)

end Leader.Called

namespace RaftNode

theorem call_leader {l : Leader} {core : Core} {call : ApiCall} {r : RaftNode × Effects}
    (h : RaftNode.call ⟨core, .leader l⟩ call = some r) : l.Called core call r := by
  cases call with
  | event event =>
    cases h
    exact .event event
  | propose cmd =>
    obtain ⟨⟨n, res⟩, hres, rfl⟩ := Option.map_eq_some_iff.1 h
    cases propose_cases hres with
    | refused => exact .refused _
    | accepted _ _ core' hcore =>
      subst hcore
      exact .command cmd
  | proposeConfigChange change =>
    simp only [RaftNode.call] at h
    generalize hres : proposeConfigChange ⟨core, .leader l⟩ change = res at h
    obtain ⟨n, res⟩ := res
    cases h
    cases proposeConfigChange_cases hres with
    | refused => exact .refused _
    | accepted _ _ core' hcheck hcore => exact .change change core' hcheck hcore
  | requestReadIndex =>
    cases h
    exact .requestReadIndex
  | transferLeadership target =>
    simp only [RaftNode.call] at h
    split at h
    · next heq =>
      cases h
      exact .transferLeadership heq
    · cases h
      exact .refused _
  | advance appliedTo =>
    cases h
    exact .quiet _ l appliedTo _ rfl rfl Effects.noise_none

/-- Without the leadership, all but the events is refused. -/
theorem call_other {n n' : RaftNode} {call : ApiCall} {e : Effects} (hn : n.isLeader = false)
    (h : n.call call = some (n', e)) : (∃ event, call = .event event) ∨
      ∃ applied, n' = ⟨{ n.core with lastApplied := applied }, n.role⟩ ∧ e = Effects.none := by
  obtain ⟨core, role⟩ := n
  have hrefused : ∀ r : RaftNode × Effects, r = (⟨core, role⟩, Effects.none) → ∃ applied,
      r.1 = ⟨{ core with lastApplied := applied }, role⟩ ∧ r.2 = Effects.none := by
    rintro r rfl
    exact ⟨core.lastApplied, rfl, rfl⟩
  cases call with
  | event event => exact .inl ⟨event, rfl⟩
  | advance appliedTo =>
    cases h
    exact .inr ⟨appliedTo, rfl, rfl⟩
  | _ =>
    refine .inr (hrefused (n', e) ?_)
    cases role with
    | leader l => cases hn
    | _ =>
      cases h
      rfl

end RaftNode

/-! ## Growing logs -/

/-- `log'` is `log` followed by entries of one term whose indices go on from the last one. -/
def Log.Grows (term : ℕ) (log log' : Log) : Prop :=
  ∃ new : List Entry, log' = { log with entries := log.entries ++ new } ∧
    ∀ k e, new[k]? = some e → e.term = term ∧ e.index = log.lastIndex + 1 + k

namespace Log.Grows

variable {term : ℕ} {log log' : Log}

theorem refl (term : ℕ) (log : Log) : log.Grows term log :=
  ⟨[], by rw [List.append_nil], nofun⟩

theorem append (h : log.Grows term log') (payload : EntryPayload) :
    log.Grows term (log'.append ⟨term, log'.lastIndex + 1, payload⟩) := by
  obtain ⟨new, rfl, hnew⟩ := h
  have hlast : Log.lastIndex { log with entries := log.entries ++ new } =
      log.lastIndex + new.length := by
    rcases List.eq_nil_or_concat' new with rfl | ⟨init, e, rfl⟩
    · rw [List.append_nil, List.length_nil, Nat.add_zero]
    · have he := (hnew init.length e (by simp)).2
      rw [← List.append_assoc, List.length_append, List.length_singleton]
      exact (Log.lastIndex_append { log with entries := log.entries ++ init } e).trans (by omega)
  refine ⟨new ++ [_], by rw [Log.append, List.append_assoc], fun k e he => ?_⟩
  rcases Nat.lt_or_ge k new.length with hk | hk
  · exact hnew k e (by rwa [List.getElem?_append_left hk] at he)
  · rw [List.getElem?_append_right hk, List.getElem?_singleton] at he
    split_ifs at he with hlen
    cases he
    refine ⟨rfl, ?_⟩
    show Log.lastIndex _ + 1 = _
    rw [hlast]
    omega

end Log.Grows

/-- A core of term `term` whose log has grown from `log`. -/
structure Core.Grown (t : ℕ) (log : Log) (core : Core) : Prop where
  term : core.term = t
  log : log.Grows t core.log

namespace Core.Grown

variable {term : ℕ} {log : Log} {core : Core}

theorem appendEntry (h : Grown term log core) (payload : EntryPayload) :
    Grown term log (Leader.appendEntry core payload) := by
  have hlog := h.log.append payload
  rw [← h.term] at hlog ⊢
  exact ⟨rfl, hlog⟩

theorem maybeCommit (h : Grown term log core) (l : Leader) :
    Grown term log (l.maybeCommit core).2.1 :=
  Leader.maybeCommit_rule (I := Grown term log) (Q := fun core _ => Grown term log core)
    (fun _ _ h _ _ _ => ⟨h.term, h.log⟩) (fun _ _ h _ _ => ⟨h.term, h.log⟩)
    (fun core k _ _ h _ _ _ _ =>
      have hk : Grown term log (core.setCommitIndex k) := ⟨h.term, h.log⟩
      hk.appendEntry _) l h

end Core.Grown

theorem RaftNode.publish_grown {term : ℕ} {log : Log} {core : Core} (h : core.Grown term log)
    (l : Leader) : log.Grows term (l.publish core).1.core.log := by
  have hgrown := h.maybeCommit l
  unfold Leader.publish
  dsimp only
  cases (l.maybeCommit core).2.2.2 with
  | true => exact hgrown.log
  | false => exact hgrown.log

theorem RaftNode.publish_term (l : Leader) (core : Core) :
    (l.publish core).1.core.term = core.term := by
  have hgrown : (l.maybeCommit core).2.1.Grown core.term core.log :=
    Core.Grown.maybeCommit ⟨rfl, .refl _ _⟩ l
  unfold Leader.publish
  dsimp only
  cases (l.maybeCommit core).2.2.2 <;> exact hgrown.term

/-! ## Growing logs on words -/

/-- The same with indices that wrap around. -/
def Log.Grows64 (term : ℕ) (log log' : Log) : Prop :=
  ∃ new : List Entry, log' = { log with entries := log.entries ++ new } ∧
    ∀ k e, new[k]? = some e → e.term = term ∧ e.index = wrappingAdd log.lastIndex (k + 1)

namespace Log.Grows64

variable {term : ℕ} {log log' : Log}

theorem refl (term : ℕ) (log : Log) : log.Grows64 term log :=
  ⟨[], by rw [List.append_nil], nofun⟩

theorem append (h : log.Grows64 term log') (payload : EntryPayload) :
    log.Grows64 term (log'.append ⟨term, wrappingAdd log'.lastIndex 1, payload⟩) := by
  obtain ⟨new, rfl, hnew⟩ := h
  have hnext : wrappingAdd (Log.lastIndex { log with entries := log.entries ++ new }) 1 =
      wrappingAdd log.lastIndex (new.length + 1) := by
    rcases List.eq_nil_or_concat' new with rfl | ⟨init, e, rfl⟩
    · rw [List.append_nil, List.length_nil]
    · have he := (hnew init.length e (by simp)).2
      rw [← List.append_assoc, List.length_append, List.length_singleton]
      have hlast := Log.lastIndex_append { log with entries := log.entries ++ init } e
      rw [Log.append] at hlast
      rw [hlast, he, wrappingAdd_wrappingAdd]
  refine ⟨new ++ [_], by rw [Log.append, List.append_assoc], fun k e he => ?_⟩
  rcases Nat.lt_or_ge k new.length with hk | hk
  · exact hnew k e (by rwa [List.getElem?_append_left hk] at he)
  · rw [List.getElem?_append_right hk, List.getElem?_singleton] at he
    split_ifs at he with hlen
    cases he
    obtain rfl : k = new.length := by omega
    exact ⟨rfl, hnext⟩

/-- With room for the new entries nothing has wrapped around. -/
theorem grows (h : log.Grows64 term log')
    (hroom : log.lastIndex + (log'.entries.length - log.entries.length) < 2 ^ 64) :
    log.Grows term log' := by
  obtain ⟨new, rfl, hnew⟩ := h
  refine ⟨new, rfl, fun k e he => ⟨(hnew k e he).1, ?_⟩⟩
  have hk := (List.getElem?_eq_some_iff.1 he).1
  rw [List.length_append, Nat.add_sub_cancel_left] at hroom
  rw [(hnew k e he).2, wrappingAdd_of_lt (by omega)]
  omega

end Log.Grows64

/-- A core of term `term` whose log has grown from `log`. -/
structure Core.Grown64 (t : ℕ) (log : Log) (core : Core) : Prop where
  term : core.term = t
  log : log.Grows64 t core.log

namespace Core.Grown64

variable {term turns : ℕ} {log : Log} {core : Core} {l : Leader}

theorem appendEntry64 (h : Grown64 term log core) (payload : EntryPayload) :
    Grown64 term log (Leader.appendEntry64 core payload) := by
  have hlog := h.log.append payload
  rw [← h.term] at hlog ⊢
  exact ⟨rfl, hlog⟩

theorem maybeCommit? (h : Grown64 term log core) {r : Leader × Core × Effects × Bool}
    (hr : l.maybeCommit? turns core = some r) : Grown64 term log r.2.1 :=
  Leader.commitTurns?_keeps (I := Grown64 term log) (fun _ _ h => ⟨h.term, h.log⟩)
    (fun _ _ h => h.appendEntry64 _) hr h

theorem publish? (h : Grown64 term log core) {r : Leader × Core × Effects × Bool}
    (hr : l.publish? turns core = some r) : Grown64 term log r.2.1 := by
  obtain ⟨out, hcommit, hsent⟩ := Option.bind_eq_some_iff.1 hr
  obtain ⟨_, -, rfl⟩ := Option.map_eq_some_iff.1 hsent
  have hgrown := h.maybeCommit? hcommit
  exact ⟨hgrown.term, hgrown.log⟩

end Core.Grown64

/-! ## Calls on words -/

namespace Leader

/-- What a step of a leader does to the core: nothing but the clock, or the term of a message that
ends the leadership, or a run of the commit loop. -/
inductive Stepped64 (turns : ℕ) (core : Core) : Leader × Core × StepResult → Prop
  | idle (l : Leader) (ticks : ℕ) (effects : Effects) :
    Stepped64 turns core (l, { core with ticks := ticks }, .stay effects)
  | adopt (l : Leader) (core' : Core) (hlog : core'.log = core.log) (leader : Option NodeId)
      (effects : Effects) : Stepped64 turns core (l, core', .toFollower leader effects)
  | committed (l : Leader) (r : Leader × Core × Effects × Bool)
      (hr : l.maybeCommit? turns core = some r) : Stepped64 turns core (afterCommit r)

namespace Stepped64

variable {turns : ℕ} {l : Leader} {core : Core} {r : Leader × Core × StepResult}

theorem of_stay (l : Leader) (core : Core) (effects : Effects) :
    Stepped64 turns core (l, core, .stay effects) := .idle l core.ticks effects

theorem of_commit (h : (l.maybeCommit? turns core).map afterCommit = some r) :
    Stepped64 turns core r := by
  obtain ⟨out, hout, rfl⟩ := Option.map_eq_some_iff.1 h
  exact .committed l out hout

theorem handleTick? (h : l.handleTick? core = some r) : Stepped64 turns core r := by
  simp only [Leader.handleTick?] at h
  split_ifs at h
  · obtain ⟨out, -, rfl⟩ := Option.map_eq_some_iff.1 h
    split
    · exact .idle _ _ _
    · exact .idle _ _ _
  · cases h
    exact .idle _ _ _

theorem handleDiskWriteComplete? {index : ℕ}
    (h : l.handleDiskWriteComplete? turns core index = some r) : Stepped64 turns core r := by
  simp only [Leader.handleDiskWriteComplete?] at h
  split_ifs at h
  · exact .of_commit h
  · cases h
    exact .of_stay _ _ _

theorem handleAppendResponse? {sender : NodeId} {resp : AppendResponse}
    (h : l.handleAppendResponse? turns core sender resp = some r) : Stepped64 turns core r := by
  simp only [Leader.handleAppendResponse?] at h
  split_ifs at h
  · cases h
    exact .of_stay _ _ _
  · exact .of_commit h
  · exact .of_commit h
  · obtain ⟨out, -, rfl⟩ := Option.map_eq_some_iff.1 h
    exact .of_stay _ _ _

theorem handleInstallSnapshotResponse? {sender : NodeId} {resp : InstallSnapshotResponse}
    (h : l.handleInstallSnapshotResponse? turns core sender resp = some r) :
    Stepped64 turns core r := by
  simp only [Leader.handleInstallSnapshotResponse?] at h
  split_ifs at h
  · cases h
    exact .of_stay _ _ _
  · cases h
    exact .of_stay _ _ _
  · exact .of_commit h

theorem dispatch? {msg : Message} (h : l.dispatch? turns core msg = some r) :
    Stepped64 turns core r := by
  unfold Leader.dispatch? at h
  split at h
  · exact handleAppendResponse? h
  · exact handleInstallSnapshotResponse? h
  all_goals
    cases h
    exact .of_stay _ _ _

theorem step? {event : Event} (h : l.step? turns core event = some r) : Stepped64 turns core r := by
  cases event with
  | tick => exact handleTick? h
  | diskWriteComplete index => exact handleDiskWriteComplete? h
  | message msg =>
    simp only [Leader.step?, Leader.handleMessage?] at h
    split at h
    · cases h
      exact .of_stay _ _ _
    · split at h
      · cases h
        refine .adopt _ _ ?_ _ _
        unfold Core.maybeUpdateTerm
        split_ifs <;> rfl
      · split at h
        · cases h
          exact .of_stay _ _ _
        · exact dispatch? h

end Stepped64

end Leader

namespace RaftNode

variable {n n' : RaftNode} {call : ApiCall} {effects : Effects} {term turns : ℕ} {log : Log}

/-- What a tenure keeps: the log has grown, and as long as the node leads its term is the same. -/
def Tenured (term : ℕ) (log : Log) (n : RaftNode) : Prop :=
  log.Grows64 term n.core.log ∧ (n.isLeader = true → n.term = term)

theorem settle_tenured {core : Core} (h : core.Grown64 term log) (l : Leader) (down : Bool) :
    (settle core l down).Tenured term log := by
  cases down with
  | true => exact ⟨h.log, nofun⟩
  | false => exact ⟨h.log, fun _ => h.term⟩

theorem event_tenured {core : Core} (h : core.Grown64 term log)
    {r : Leader × Core × StepResult} (hr : Leader.Stepped64 turns core r) :
    (applyTransition ⟨r.2.1, .leader r.1⟩ r.2.2.transition).1.Tenured term log := by
  cases hr with
  | idle l ticks effects => exact ⟨h.log, fun _ => h.term⟩
  | adopt l core' hlog leader effects =>
    refine ⟨?_, nofun⟩
    show log.Grows64 term core'.log
    rw [hlog]
    exact h.log
  | committed l' r hr =>
    have hgrown := h.maybeCommit? hr
    obtain ⟨l'', core'', effects, down⟩ := r
    cases down with
    | true => exact ⟨hgrown.log, nofun⟩
    | false => exact ⟨hgrown.log, fun _ => hgrown.term⟩

/-- **One call to a leader.** -/
theorem call?_tenured (hlead : n.isLeader = true) (h : n.core.Grown64 term log)
    (hcall : n.call? turns call = some (n', effects)) : n'.Tenured term log := by
  obtain ⟨core, role⟩ := n
  have hsame : Tenured term log ⟨core, role⟩ := ⟨h.log, fun _ => h.term⟩
  cases role with
  | leader l =>
    cases call with
    | event event =>
      obtain ⟨r, hr, heq⟩ := Option.map_eq_some_iff.1 hcall
      cases heq
      exact event_tenured h (Leader.Stepped64.step? hr)
    | propose cmd =>
      simp only [RaftNode.call?] at hcall
      split at hcall
      · cases hcall
      · cases hcall
        exact hsame
      · obtain ⟨r, hr, heq⟩ := Option.map_eq_some_iff.1 hcall
        cases heq
        exact settle_tenured ((h.appendEntry64 _).publish? hr) _ _
    | proposeConfigChange change =>
      obtain ⟨r, hr, heq⟩ := Option.map_eq_some_iff.1 hcall
      unfold Leader.proposeConfigChange? at hr
      split at hr
      · cases hr
        cases heq
        exact hsame
      · obtain ⟨out, hout, rfl⟩ := Option.map_eq_some_iff.1 hr
        cases heq
        exact settle_tenured ((h.appendEntry64 _).publish? hout) _ _
    | requestReadIndex =>
      cases hcall
      exact hsame
    | transferLeadership target =>
      simp only [RaftNode.call?, RaftNode.call] at hcall
      split at hcall
      · cases hcall
        exact hsame
      · cases hcall
        exact hsame
    | advance appliedTo =>
      cases hcall
      exact ⟨h.log, fun _ => h.term⟩
  | _ => cases hlead

end RaftNode

/-- **Leader append-only.** Whatever calls are made to a leader, up to and including the one that
ends its leadership, if they return and the indices of the new entries are words, its log is the log
it had followed by entries of its term with consecutive indices, and the snapshot part is the
same. -/
theorem leader_append_only {turns : ℕ} {n n' : RaftNode} {calls : List ApiCall}
    (hrun : n.tenure? turns calls = some n')
    (hroom : n.core.log.lastIndex +
      (n'.core.log.entries.length - n.core.log.entries.length) < 2 ^ 64) :
    n.core.log.Grows n.term n'.core.log ∧ (n'.isLeader = true → n'.term = n.term) := by
  have htenured : n'.Tenured n.term n.core.log := by
    refine runWhile_invariant (I := RaftNode.Tenured n.term n.core.log) ?_
      ⟨.refl _ _, fun _ => rfl⟩ hrun
    intro n₁ call n₂ h hlead hstep
    obtain ⟨⟨_, effects⟩, hcall, rfl⟩ := Option.map_eq_some_iff.1 hstep
    exact RaftNode.call?_tenured hlead ⟨h.2 hlead, h.1⟩ hcall
  exact ⟨htenured.1.grows hroom, htenured.2⟩

/-- A leader of two voters is removed: it appends the configuration without itself, and steps down
when the other voter has it. -/
theorem leader_append_only_removed :
    let core := Core.restore { Config.new 0 with parallelDiskWrite := false }
      { Core.initialPersistent [0, 1] with term := 1 }
    let calls := [.proposeConfigChange (.removeVoter 0),
      .event (.message ⟨1, 0, 1, .appendResponse ⟨true, 1⟩⟩)]
    ∃ n', (RaftNode.becomeLeader core Effects.none).1.tenure? 1 calls = some n' ∧
      core.log.Grows 1 n'.core.log ∧ n'.isLeader = false ∧ n'.core.log.entries.length = 1 := by
  intro core calls
  have hrun : ((RaftNode.becomeLeader core Effects.none).1.tenure? 1 calls).any (fun n' =>
      decide (n'.isLeader = false ∧ n'.core.log.entries.length = 1)) = true := by decide +kernel
  obtain ⟨n', hn', hend⟩ := (Option.any_eq_true _ _).1 hrun
  obtain ⟨hdown, hlen⟩ := of_decide_eq_true hend
  have hroom :
      core.log.lastIndex + (n'.core.log.entries.length - core.log.entries.length) < 2 ^ 64 := by
    rw [hlen]
    decide
  exact ⟨n', hn', (leader_append_only hn' hroom).1, hdown, hlen⟩

/-- The node that has installed a snapshot just below `u64::MAX`, of which it is the only voter, and
has become the leader of the next term. -/
def lastIndices : RaftNode :=
  ((RaftNode.new { Config.new 0 with
      electionTimeout := ⟨1, 2, Nat.one_lt_two⟩, prevote := false, parallelDiskWrite := false }
    [0, 1]).step ⟨1, 0, 1, .installSnapshotRequest
      ⟨u64Max - 1, 1, .simple (.ofList [0]) .empty⟩⟩).1.tick.1.tick.1

/-- **The index can wrap around**: of two commands the second one gets index 0. -/
theorem index_wraps : lastIndices.isLeader = true ∧
    ∃ n', lastIndices.tenure? 1 [.propose [], .propose []] = some n' ∧
      n'.core.log.entries.map Entry.index = [u64Max, 0] ∧
      ¬lastIndices.core.log.Grows lastIndices.term n'.core.log := by
  have hrun : (lastIndices.tenure? 1 [.propose [], .propose []]).any (fun n' =>
      decide (n'.core.log.entries.map Entry.index = [u64Max, 0])) = true := by decide +kernel
  have hstart : lastIndices.core.log.entries = [] := by decide +kernel
  obtain ⟨n', hn', hend⟩ := (Option.any_eq_true _ _).1 hrun
  have hindices := of_decide_eq_true hend
  refine ⟨by decide +kernel, n', hn', hindices, ?_⟩
  rintro ⟨new, hlog, hnew⟩
  -- The second of the new entries should have an index above the last one.
  rw [hlog, hstart, List.nil_append] at hindices
  have hsecond : (new.map Entry.index)[1]? = some 0 := by rw [hindices]; rfl
  rw [List.getElem?_map] at hsecond
  obtain ⟨e, he, hindex⟩ := Option.map_eq_some_iff.1 hsecond
  have := (hnew 1 e he).2
  omega

end Cloud9
