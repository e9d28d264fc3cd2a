import Cloud9.Raft.Commit

/-!
# What the leader's functions do, in actions

One lemma per function of the leader: on a log without snapshot, what it does is a `Call`. The
lemmas follow the call graph of `leader.rs` upwards, from `send_append_to` through the commit
loop to the proposals and the event handlers.
-/

namespace Cloud9

variable {env : Env}

/-- The term of the snapshot is also what `termAt` reads there. -/
theorem Log.prevTerm_eq (log : Log) {next : ℕ} (hsnap : log.snapshotIndex < next) :
    (if next - 1 ≤ log.snapshotIndex ∧ next - 1 > 0 then log.snapshotTerm
      else log.termAt (next - 1)) = log.termAt (next - 1) := by
  split_ifs with h
  · have heq : next - 1 = log.snapshotIndex := by omega
    have hne : ¬log.snapshotIndex = 0 := by omega
    simp [heq, Log.termAt, hne]
  · rfl

/-- The view of a leading node. -/
abbrev Leader.viewWith (l : Leader) (core : Core) : View := RaftNode.view ⟨core, .leader l⟩

namespace Leader

/-! ## Sending -/

/-- A broadcast is one send after the other. -/
theorem broadcastAppend_induct {I : Leader → Effects → Prop} {core : Core}
    (hsend : ∀ l effects peer, I l effects →
      I (l.sendAppendTo core peer).1 (effects.merge (l.sendAppendTo core peer).2))
    {l : Leader} (h : I l Effects.none) :
    I (l.broadcastAppend core).1 (l.broadcastAppend core).2 := by
  unfold broadcastAppend
  exact List.foldlRecOn (motive := fun r : Leader × Effects => I r.1 r.2) _ _ h
    fun r hr peer _ => hsend _ _ _ hr

theorem sendAppendTo_matchIndex (l : Leader) (core : Core) (peer : NodeId) :
    (l.sendAppendTo core peer).1.matchIndex = l.matchIndex := by
  unfold sendAppendTo
  dsimp only
  split_ifs <;> rfl

theorem broadcastAppend_matchIndex (l : Leader) (core : Core) :
    (l.broadcastAppend core).1.matchIndex = l.matchIndex :=
  broadcastAppend_induct (I := fun l' _ => l'.matchIndex = l.matchIndex)
    (fun l' _ peer h => (l'.sendAppendTo_matchIndex core peer).trans h) rfl

/-- Above the snapshot, the request is read off the log at `next_index`. -/
theorem sendAppendTo_effects (l : Leader) {core : Core} (peer : NodeId) {next : ℕ}
    (hnext : (l.nextIndex peer).getD 1 = next) (hsnap : core.log.snapshotIndex < next) :
    (l.sendAppendTo core peer).2 = Effects.none.withMessage (core.message peer
      (.appendRequest ⟨next - 1, core.log.termAt (next - 1), core.log.slice next
        (min (next + core.config.maxEntriesPerMsg) (core.log.lastIndex + 1)),
        core.commitIndex⟩)) := by
  simp only [sendAppendTo, hnext, if_neg (Nat.not_le.2 hsnap), core.log.prevTerm_eq hsnap]

theorem sendAppendTo_call (l : Leader) {core : Core} (hs : core.log.snapshotIndex = 0)
    (peer : NodeId) :
    Call env (l.viewWith core) ((l.sendAppendTo core peer).1.viewWith core)
      (l.sendAppendTo core peer).2 := by
  have hview : (l.sendAppendTo core peer).1.viewWith core = l.viewWith core := by
    simp only [viewWith, RaftNode.view, RoleState.view, sendAppendTo_matchIndex]
  rw [hview]
  rcases Nat.eq_zero_or_pos ((l.nextIndex peer).getD 1) with h0 | hpos
  · simp only [sendAppendTo, h0, Nat.zero_le, if_true]
    exact ⟨.refl _, fun _ => rfl⟩
  · rw [l.sendAppendTo_effects peer rfl (hs ▸ hpos)]
    exact ⟨.single (.send core.erase _ peer _ _ hpos), fun _ => rfl⟩

theorem broadcastAppend_call (l : Leader) {core : Core} (hs : core.log.snapshotIndex = 0) :
    Call env (l.viewWith core) ((l.broadcastAppend core).1.viewWith core)
      (l.broadcastAppend core).2 :=
  broadcastAppend_induct (I := fun l' e => Call env (l.viewWith core) (l'.viewWith core) e)
    (fun l' _ peer h => h.merge (l'.sendAppendTo_call hs peer)) (.refl _)

/-! ## Progress -/

theorem index_orInsert (m : IndexMap) (id : NodeId) : (m.orInsert id 0).index = m.index := by
  unfold IndexMap.orInsert
  split_ifs with h
  · funext x
    unfold IndexMap.index IndexMap.insert
    by_cases hx : x = id
    · subst hx; simp [Option.isNone_iff_eq_none.1 h]
    · rw [Function.update_of_ne hx]
  · rfl

theorem index_foldl_orInsert (nodes : List NodeId) (m : IndexMap) :
    (nodes.foldl (fun m id => m.orInsert id 0) m).index = m.index := by
  induction nodes generalizing m with
  | nil => rfl
  | cons id nodes ih => rw [List.foldl_cons, ih, index_orInsert]

theorem index_insert (m : IndexMap) (id : NodeId) (v : ℕ) :
    (m.insert id v).index = Function.update m.index id v := by
  funext x
  unfold IndexMap.index IndexMap.insert
  by_cases hx : x = id
  · subst hx; simp
  · rw [Function.update_of_ne hx, Function.update_of_ne hx]

theorem index_foldl_insert_zero (nodes : List NodeId) (m : IndexMap) (h : m.index = fun _ => 0) :
    (nodes.foldl (fun m id => m.insert id 0) m).index = fun _ => 0 := by
  induction nodes generalizing m with
  | nil => exact h
  | cons id nodes ih =>
    refine ih _ ?_
    rw [index_insert, h]
    exact Function.update_eq_self id _

theorem recordOwnMatch_call (l : Leader) (core : Core) {index : ℕ}
    (h : index ≤ core.log.lastIndex) :
    Call env (l.viewWith core) ((l.recordOwnMatch core index).viewWith core) Effects.none := by
  unfold recordOwnMatch
  split_ifs
  · exact .refl _
  · simp only [viewWith, RaftNode.view, RoleState.view, index_insert]
    exact .silent (.disk core.erase _ index h) rfl

theorem reinitProgress_call (l : Leader) (core : Core) :
    Call env (l.viewWith core) ((l.reinitProgress core).viewWith core) Effects.none := by
  unfold reinitProgress
  simp only [viewWith, RaftNode.view, RoleState.view]
  split_ifs
  · rw [index_foldl_orInsert]
    exact .refl _
  · rw [index_insert, index_foldl_orInsert]
    exact .silent (.disk core.erase _ _ le_rfl) rfl

/-! ## Committing -/

theorem Advances.call {l : Leader} {core : Core} {k : ℕ} (h : l.Advances core k) :
    Call env (l.viewWith core) (l.viewWith (core.setCommitIndex k)) Effects.none := by
  rcases h with rfl | ⟨hlt, hle, hcom⟩
  · exact .refl _
  · rw [committable, Bool.and_eq_true, decide_eq_true_eq] at hcom
    exact .silent (.commit core.erase _ k hlt hle hcom.1 hcom.2) rfl

theorem appendTransitionTarget_call (l : Leader) {core : Core} (hs : core.log.snapshotIndex = 0)
    {idx : ℕ} {cfg target : Configuration} (hidx : idx ≤ core.commitIndex)
    (hcfg : (core.log.get idx).bind (fun e => e.payload.asConfig) = some cfg)
    (htarget : cfg.transitionTarget = some target) :
    Call env (l.viewWith core)
      ((l.appendTransitionTarget core target).1.viewWith (l.appendTransitionTarget core target).2.1)
      (l.appendTransitionTarget core target).2.2 := by
  obtain ⟨e, hget, he⟩ := Option.bind_eq_some_iff.1 hcfg
  have hpayload : e.payload = .config cfg := by
    rcases hp : e.payload with cmd | c
    · rw [hp] at he; cases he
    · rw [hp] at he; cases he; rfl
  set core' := appendEntry core (.config target) with hcore'
  have h₁ : Trace (Action env) (l.viewWith core) (l.viewWith core') [] :=
    .single (.appendTarget core.erase _ idx e cfg target hidx hget hpayload htarget)
  have h₂ : Call env (l.viewWith core') ((l.reinitProgress core').viewWith core') Effects.none :=
    l.reinitProgress_call core'
  have h₃ : Call env _ _ _ :=
    (l.reinitProgress core').broadcastAppend_call (show core'.log.snapshotIndex = 0 from hs)
  exact .persisted ((h₁.trans h₂.trace).trans h₃.trace) rfl

theorem maybeCommit_call (l : Leader) {core : Core} (hs : core.log.snapshotIndex = 0) :
    Call env (l.viewWith core) ((l.maybeCommit core).1.viewWith (l.maybeCommit core).2.1)
        (l.maybeCommit core).2.2.1
      ∧ (l.maybeCommit core).2.1.log.snapshotIndex = 0 := by
  let I : Leader → Core → Effects → Prop := fun l' core' e =>
    Call env (l.viewWith core) (l'.viewWith core') e ∧ core'.log.snapshotIndex = 0
  have hset :
      ∀ l' core' e k, I l' core' e → l'.Advances core' k → I l' (core'.setCommitIndex k) e :=
    fun l' core' e k h hk => ⟨e.merge_none ▸ h.1.merge hk.call, h.2⟩
  refine maybeCommit_loop (I := I) (Q := fun l' core' e _ => I l' core' e)
    (fun l' core' e k h hk _ => hset l' core' e k h hk) ?_ ?_ l ⟨.refl _, hs⟩
  · intro l' core' e k cfg h hk
    have hI := hset l' core' e k h hk
    exact ⟨hI.1.merge (.noise (l'.tryAutoTransfer_noise _ cfg).2), hI.2⟩
  · intro l' core' e k idx cfg target h hk hlo hhi hcfg htarget
    have hI := hset l' core' e k h hk
    exact ⟨hI.1.merge (l'.appendTransitionTarget_call hI.2 hhi hcfg htarget), hI.2⟩

/-! ## Proposals -/

/-- What both proposal calls do after appending: commit what can be committed, then send. -/
theorem commit_broadcast_call (l : Leader) {core : Core} (hs : core.log.snapshotIndex = 0) :
    Call env (l.viewWith core)
        (((l.maybeCommit core).1.broadcastAppend (l.maybeCommit core).2.1).1.viewWith
          (l.maybeCommit core).2.1)
        (((l.maybeCommit core).1.broadcastAppend (l.maybeCommit core).2.1).2.withPersist.merge
          (l.maybeCommit core).2.2.1) := by
  obtain ⟨hcommit, hs'⟩ : Call env _ _ _ ∧ _ := l.maybeCommit_call hs
  exact hcommit.merge_swap ((broadcastAppend_call _ hs').withPersist)

/-- The leader's own progress after it has appended an entry. -/
theorem recordAppended_call (l : Leader) (core : Core) (payload : EntryPayload) :
    Call env (l.viewWith (appendEntry core payload))
      ((l.recordOwnMatch (appendEntry core payload) (core.log.lastIndex + 1)).viewWith
        (appendEntry core payload)) Effects.none :=
  l.recordOwnMatch_call (appendEntry core payload) (by simp [appendEntry, Core.setLog, Core.log])

theorem checkConfigChange_ok {l : Leader} {core : Core} {change : ConfigChange}
    (h : l.checkConfigChange core change = .ok ()) :
    change.validate core.effectiveConfig core.config.membershipMode = .ok ()
      ∧ l.checkCaughtUp core core.effectiveConfig change = .ok ()
      ∧ core.hasPendingConfig = false := by
  unfold checkConfigChange at h
  rcases hv : change.validate core.effectiveConfig core.config.membershipMode with e | u
  · rw [hv] at h; cases h
  rcases hc : l.checkCaughtUp core core.effectiveConfig change with e | u
  · rw [hv, hc] at h; cases h
  rw [hv, hc] at h
  cases hp : core.hasPendingConfig with
  | true => rw [hp] at h; cases h
  | false => exact ⟨rfl, rfl, rfl⟩

/-! ## Events -/

/-- A step of the leader's event handlers: a call, from which the node may only fall back to
follower. -/
structure StepCall (env : Env) (l : Leader) (core : Core) (r : Leader × Core × StepResult) :
    Prop where
  call : Call env (l.viewWith core) (r.1.viewWith r.2.1) r.2.2.effects
  snapshotIndex : r.2.1.log.snapshotIndex = 0
  transition : r.2.2.transition = .stay ∨ ∃ leader, r.2.2.transition = .toFollower leader

theorem stepCall_none (l : Leader) {core : Core} (hs : core.log.snapshotIndex = 0) :
    StepCall env l core (l, core, .none) := ⟨.refl _, hs, .inl rfl⟩

theorem stepCall_noise (l : Leader) {core : Core} (hs : core.log.snapshotIndex = 0) {eff : Effects}
    (h : ∀ m ∈ eff.messages, m.payload.isNoise = true) :
    StepCall env l core (l, core, .stay eff) := ⟨.noise h, hs, .inl rfl⟩

theorem afterCommit_call {l l' : Leader} {core : Core} (hs : core.log.snapshotIndex = 0)
    (h : Call env (l.viewWith core) (l'.viewWith core) Effects.none) :
    StepCall env l core (afterCommit (l'.maybeCommit core)) := by
  obtain ⟨hcall, hs'⟩ : Call env _ _ _ ∧ _ := l'.maybeCommit_call hs
  unfold afterCommit
  dsimp only
  split_ifs
  · exact ⟨h.merge hcall, hs', .inr ⟨none, rfl⟩⟩
  · exact ⟨h.merge hcall, hs', .inl rfl⟩

theorem handleDiskWriteComplete_call (l : Leader) {core : Core} (hs : core.log.snapshotIndex = 0)
    {index : ℕ} (hindex : index ≤ core.log.lastIndex) :
    StepCall env l core (l.handleDiskWriteComplete core index) := by
  unfold handleDiskWriteComplete
  split_ifs
  · refine afterCommit_call hs ?_
    simp only [viewWith, RaftNode.view, RoleState.view, index_insert]
    exact .silent (.disk core.erase _ index hindex) rfl
  · exact l.stepCall_none hs

theorem readIndexRequests_noise (core : Core) (pending : PendingReadIndex) :
    ∀ m ∈ (readIndexRequests core pending).messages, m.payload.isNoise = true := by
  intro m hm
  simp only [readIndexRequests, Effects.withMessages_messages, Effects.none_messages,
    List.nil_append, List.mem_map] at hm
  obtain ⟨peer, -, rfl⟩ := hm
  rfl

theorem handleTick_call (l : Leader) {core : Core} (hs : core.log.snapshotIndex = 0) :
    StepCall env l core (l.handleTick core) := by
  unfold handleTick
  dsimp only
  split_ifs
  · set core' := { core with ticks := core.ticks + 1 }
    set l' := { l with heartbeatDeadline := core'.ticks + core'.config.heartbeatInterval }
    have hb : Call env (l.viewWith core) ((l'.broadcastAppend core').1.viewWith core')
        (l'.broadcastAppend core').2 :=
      l'.broadcastAppend_call (show core'.log.snapshotIndex = 0 from hs)
    split
    · exact ⟨hb.merge (.noise (readIndexRequests_noise core' _)), hs, .inl rfl⟩
    · exact ⟨hb, hs, .inl rfl⟩
  · exact ⟨.refl _, hs, .inl rfl⟩

theorem handleAppendResponse_call (l : Leader) {core : Core} (hs : core.log.snapshotIndex = 0)
    {sender : NodeId} {resp : AppendResponse}
    (hmem : ⟨sender, core.id, core.term, .appendResponse resp⟩ ∈ env.sent) :
    StepCall env l core (l.handleAppendResponse core sender resp) := by
  unfold handleAppendResponse
  split
  · exact l.stepCall_none hs
  split
  · next hsuccess =>
    refine afterCommit_call hs ?_
    have hmem' : ⟨sender, core.erase.id, core.erase.term,
        .appendResponse ⟨true, resp.lastLogIndex⟩⟩ ∈ env.sent := by
      rw [← hsuccess]
      exact hmem
    simp only [viewWith, RaftNode.view, RoleState.view, index_insert]
    exact .silent (.ack core.erase _ sender _ hmem') rfl
  · let l' := { l with nextIndex := l.nextIndex.insert sender (l.retryIndex core sender resp) }
    exact ⟨l'.sendAppendTo_call hs sender, hs, .inl rfl⟩

theorem handleReadIndexResponse_matchIndex (l : Leader) (sender : NodeId)
    (resp : ReadIndexResponse) :
    (l.handleReadIndexResponse sender resp).matchIndex = l.matchIndex := by
  unfold handleReadIndexResponse
  dsimp only
  split
  · rfl
  · split_ifs <;> rfl

theorem dispatch_call (l : Leader) {core : Core} (hs : core.log.snapshotIndex = 0) {msg : Message}
    (hmem : msg ∈ env.sent) (hto : msg.to = core.id) (hterm : msg.term = core.term)
    (hsnap : msg.payload.isSnapshot = false) : StepCall env l core (l.dispatch core msg) := by
  obtain ⟨sender, target, term, payload⟩ := msg
  subst hto hterm
  cases payload with
  | appendResponse resp => exact l.handleAppendResponse_call hs hmem
  | installSnapshotResponse resp => cases hsnap
  | readIndexResponse resp =>
    refine ⟨?_, hs, .inl rfl⟩
    simp only [dispatch, viewWith, RaftNode.view, RoleState.view,
      handleReadIndexResponse_matchIndex]
    exact .refl _
  | voteRequest req =>
    refine l.stepCall_noise hs fun m hm => ?_
    simp only [Effects.withMessage_messages, Effects.none_messages, List.nil_append,
      List.mem_singleton] at hm
    subst hm
    rfl
  | _ => exact l.stepCall_none hs

end Leader

end Cloud9
