import Cloud9.Raft.LeaderCalls

/-!
# Every call of a node is a sequence of actions

A role's step and the transition it asks for make one event of a node. `RoleCall` says what a
role's step has done when the transition is still to come, `applyTransition_call` what the
transition adds, and `stepEvent_call` puts them together. The entry points of the API follow.
The log must hold no snapshot, and the delivered message must not be about one.
-/

namespace Cloud9

variable {env : Env}

/-- The node as the transition finds it: every transition but a won election makes it passive. -/
def Transition.viewOf (n : RaftNode) : Transition → View
  | .stay | .toLeader => n.view
  | _ => ⟨n.core.erase, .passive⟩

/-- A role's step from `n` to `n'`, before the transition. -/
structure RoleCall (env : Env) (n n' : RaftNode) (r : StepResult) : Prop where
  call : Call env n.view (r.transition.viewOf n') r.effects
  snapshotIndex : n'.core.log.snapshotIndex = 0
  win : r.transition = .toLeader →
    ∃ c, n'.role = .candidate c ∧ c.hasQuorum n'.core = true

/-! ## Messages without content -/

theorem Effects.noise_none : ∀ m ∈ Effects.none.messages, m.payload.isNoise = true := by
  intro m hm
  simp at hm

theorem Effects.noise_withMessage {m : Message} (h : m.payload.isNoise = true) :
    ∀ m' ∈ (Effects.none.withMessage m).messages, m'.payload.isNoise = true := by
  intro m' hm'
  simp only [withMessage_messages, none_messages, List.nil_append, List.mem_singleton] at hm'
  rw [hm']
  exact h

namespace Core

theorem rejectStale_noise (core : Core) (msg : Message) :
    ∀ m ∈ (core.rejectStale msg).messages, m.payload.isNoise = true := by
  unfold rejectStale
  split
  · exact Effects.noise_withMessage rfl
  · exact Effects.noise_withMessage rfl
  · exact Effects.noise_none

theorem denyVote_noise (core : Core) (msg : Message) :
    ∀ m ∈ (core.denyVote msg).messages, m.payload.isNoise = true := by
  unfold denyVote
  split
  · exact Effects.noise_withMessage rfl
  · exact Effects.noise_withMessage rfl
  · exact Effects.noise_none

theorem prevoteReply_noise (core : Core) (sender : NodeId) (msgTerm : ℕ) (req : PreVoteRequest) :
    ∀ m ∈ (core.prevoteReply sender msgTerm req).messages, m.payload.isNoise = true :=
  Effects.noise_withMessage rfl

theorem maybeUpdateTerm_erase (core : Core) (term : ℕ) :
    (core.maybeUpdateTerm term).2.erase = (core.erase.maybeUpdateTerm term).2 := by
  by_cases h : core.persistent.term < term <;> simp [maybeUpdateTerm, h, erase]

theorem maybeUpdateTerm_log (core : Core) (term : ℕ) :
    (core.maybeUpdateTerm term).2.log = core.log := by
  unfold maybeUpdateTerm
  split_ifs <;> rfl

end Core

/-- A role that finds a higher term becomes a follower of that term. -/
theorem roleCall_adopt {n n' : RaftNode} {term : ℕ} {leader : Option NodeId}
    (hs : n.core.log.snapshotIndex = 0) (hterm : n.core.term < term)
    (hn' : n'.core = (n.core.maybeUpdateTerm term).2) :
    RoleCall env n n' (.toFollower leader Effects.none.withPersist) where
  call := by
    refine .persisted (.single ?_) rfl
    show Action env n.view ⟨n'.core.erase, .passive⟩ []
    rw [hn', Core.maybeUpdateTerm_erase]
    exact .adopt n.view term hterm
  snapshotIndex := by rw [hn', Core.maybeUpdateTerm_log]; exact hs
  win h := by cases h

/-- A step that only talks. -/
theorem roleCall_noise {n n' : RaftNode} {eff : Effects} (hs : n.core.log.snapshotIndex = 0)
    (hview : n'.view = n.view) (h : ∀ m ∈ eff.messages, m.payload.isNoise = true) :
    RoleCall env n n' (.stay eff) where
  call := by
    show Call env n.view n'.view eff
    rw [hview]
    exact .noise h
  snapshotIndex := by
    show n'.view.core.log.snapshotIndex = 0
    rw [hview]
    exact hs
  win h := by cases h

/-- A silent step to a transition that makes the node passive. -/
theorem roleCall_passive {n n' : RaftNode} {r : StepResult} (hs : n.core.log.snapshotIndex = 0)
    (hcore : n'.core.erase = n.core.erase) (hr : r.effects = Effects.none)
    (ht : r.transition.viewOf n' = ⟨n'.core.erase, .passive⟩) (hwin : r.transition ≠ .toLeader) :
    RoleCall env n n' r where
  call := by
    rw [hr, ht, hcore]
    exact .silent (.demote n.view) rfl
  snapshotIndex := by
    show n'.core.erase.log.snapshotIndex = 0
    rw [hcore]
    exact hs
  win h := absurd h hwin

/-! ## Follower -/

namespace Follower

/-- What a follower's handler of a message of the current term does. -/
structure Handled (env : Env) (core : Core) (r : Follower × Core × StepResult) : Prop where
  call : Call env ⟨core.erase, .passive⟩ ⟨r.2.1.erase, .passive⟩ r.2.2.effects
  snapshotIndex : r.2.1.log.snapshotIndex = 0
  transition : r.2.2.transition = .stay ∨ r.2.2.transition = .toCandidate

theorem handleVoteRequest_call (f : Follower) {core : Core} (hs : core.log.snapshotIndex = 0)
    {sender : NodeId} {req : VoteRequest}
    (hmem : ⟨sender, core.id, core.term, .voteRequest req⟩ ∈ env.sent) :
    Handled env core (f.handleVoteRequest core sender req) := by
  unfold handleVoteRequest
  dsimp only
  split_ifs with hgranted
  · simp only [Bool.and_eq_true] at hgranted
    obtain ⟨⟨-, hcan⟩, hlog⟩ := hgranted
    exact ⟨.persisted (.single (.grant core.erase sender req hmem hcan hlog)) rfl, hs, .inl rfl⟩
  · exact ⟨.noise (Effects.noise_withMessage rfl), hs, .inl rfl⟩

/-- The append loop keeps the snapshot metadata. -/
theorem appendEntries_snapshotIndex (log : Log) (entries : List Entry) :
    (appendEntries log entries).1.snapshotIndex = log.snapshotIndex := by
  unfold appendEntries
  suffices h : ∀ acc : Log × Bool,
      (entries.foldl appendEntry acc).1.snapshotIndex = acc.1.snapshotIndex from h (log, false)
  intro acc
  induction entries generalizing acc with
  | nil => rfl
  | cons e es ih =>
    rw [List.foldl_cons, ih]
    unfold appendEntry Log.truncateAfter
    dsimp only
    split_ifs <;> (try split) <;> rfl

/-- On a plain log, cutting a conflicting suffix is always followed by an append. -/
theorem appendEntry_unchanged {log : Log} (hl : log.Plain) {e : Entry}
    (h : (appendEntry (log, false) e).2 = false) : appendEntry (log, false) e = (log, false) := by
  unfold appendEntry at h ⊢
  dsimp only at h ⊢
  by_cases hc : log.termAt e.index ≠ 0 ∧ log.termAt e.index ≠ e.term
  · rw [if_pos hc, hl.truncateAfter] at h
    have hplain := hl.withEntries (hl.indexed.take (e.index - 1))
    have hpos : e.index ≠ 0 := fun h0 => hc.1 (by simp [Log.termAt, h0])
    have hlast :
        e.index > Log.lastIndex { log with entries := log.entries.take (e.index - 1) } := by
      rw [hplain.lastIndex]
      simp only [List.length_take]
      omega
    rw [if_pos hlast] at h
    cases h
  · rw [if_neg hc] at h ⊢
    split_ifs at h ⊢ with hlast
    rfl

theorem foldl_appendEntry_flag (entries : List Entry) (log : Log) :
    (entries.foldl appendEntry (log, true)).2 = true := by
  induction entries generalizing log with
  | nil => rfl
  | cons e es ih =>
    have h : (appendEntry (log, true) e).2 = true := by
      unfold appendEntry
      dsimp only
      split_ifs <;> rfl
    rw [List.foldl_cons, ← Prod.eta (appendEntry (log, true) e), h]
    exact ih _

/-- An append request that appends nothing leaves the log alone. -/
theorem appendEntries_unchanged {log : Log} (hl : log.Plain) {entries : List Entry}
    (h : (appendEntries log entries).2 = false) : (appendEntries log entries).1 = log := by
  unfold appendEntries at h ⊢
  induction entries with
  | nil => rfl
  | cons e es ih =>
    rw [List.foldl_cons] at h ⊢
    rcases hflag : (appendEntry (log, false) e).2 with _ | _
    · rw [appendEntry_unchanged hl hflag] at h ⊢
      exact ih h
    · rw [← Prod.eta (appendEntry (log, false) e), hflag, foldl_appendEntry_flag] at h
      cases h

theorem acceptAppend_log (core : Core) (req : AppendRequest) :
    (acceptAppend core req).log = (appendEntries core.log req.entries).1 := by
  unfold acceptAppend
  dsimp only
  split_ifs <;> rfl

theorem acceptAppend_persistent (core : Core) (req : AppendRequest) :
    (acceptAppend core req).persistent =
      { core.persistent with log := (appendEntries core.log req.entries).1 } := by
  unfold acceptAppend
  dsimp only
  split_ifs <;> rfl

theorem acceptAppend_config (core : Core) (req : AppendRequest) :
    (acceptAppend core req).config = core.config := by
  unfold acceptAppend
  dsimp only
  split_ifs <;> rfl

theorem acceptAppend_commitIndex (core : Core) (req : AppendRequest) :
    (acceptAppend core req).commitIndex =
      if req.leaderCommit > core.commitIndex then
        min req.leaderCommit (appendEntries core.log req.entries).1.lastIndex
      else core.commitIndex := by
  unfold acceptAppend
  dsimp only [Core.setLog]
  split_ifs <;> rfl

theorem acceptAppend_erase (core : Core) (req : AppendRequest) :
    (acceptAppend core req).erase = acceptAppend core.erase req := by
  unfold acceptAppend
  dsimp only [Core.setLog, Core.erase_commitIndex]
  split_ifs <;> rfl

theorem acceptAppend_message (core : Core) (req : AppendRequest) (target : NodeId)
    (payload : Payload) : (acceptAppend core req).message target payload =
      core.message target payload := by
  simp only [Core.message, Core.id, Core.term, acceptAppend_config, acceptAppend_persistent]

theorem handleAppendRequest_call (f : Follower) {core : Core} (hl : core.log.Plain)
    {sender : NodeId} {req : AppendRequest}
    (hmem : ⟨sender, core.id, core.term, .appendRequest req⟩ ∈ env.sent)
    (hok : prevMatches core req = true →
      env.acceptOk core.log ⟨sender, core.id, core.term, .appendRequest req⟩) :
    Handled env core (f.handleAppendRequest core sender req) := by
  unfold handleAppendRequest
  dsimp only
  set core' := ((({ f with leader := some sender } : Follower).recordContact core).resetDeadline
    core).2
  split
  · next hprev =>
    refine ⟨⟨?_, fun hp => ?_⟩, ?_, .inl rfl⟩
    · rw [acceptAppend_erase, acceptAppend_message]
      have hacc := Action.accept core.erase sender req hmem (hok hprev) hprev
      rw [acceptAppend_log] at hacc ⊢
      refine .single ?_
      split_ifs <;> exact hacc
    · have hflag : (appendEntries core'.log req.entries).2 = false := by
        by_contra h
        rw [Bool.not_eq_false] at h
        simp [StepResult.stay, h] at hp
      show (acceptAppend core' req).persistent = core.persistent
      rw [acceptAppend_persistent, appendEntries_unchanged (show core'.log.Plain from hl) hflag]
      rfl
    · show (acceptAppend core' req).log.snapshotIndex = 0
      rw [acceptAppend_log, appendEntries_snapshotIndex]
      exact hl.snapshotIndex
  · exact ⟨.noise (Effects.noise_withMessage rfl), hl.snapshotIndex, .inl rfl⟩

theorem dispatch_call (f : Follower) {core : Core} (hl : core.log.Plain) {msg : Message}
    (hmem : msg ∈ env.sent) (hto : msg.to = core.id) (hterm : msg.term = core.term)
    (hsnap : msg.payload.isSnapshot = false)
    (hok : ∀ req, msg.payload = .appendRequest req → prevMatches core req = true →
      env.acceptOk core.log msg) :
    Handled env core (f.dispatch core msg) := by
  obtain ⟨sender, target, term, payload⟩ := msg
  subst hto hterm
  cases payload with
  | voteRequest req => exact f.handleVoteRequest_call hl.snapshotIndex hmem
  | appendRequest req => exact f.handleAppendRequest_call hl hmem (hok req rfl)
  | readIndexRequest req =>
    exact ⟨.noise (Effects.noise_withMessage rfl), hl.snapshotIndex, .inl rfl⟩
  | installSnapshotRequest req => cases hsnap
  | timeoutNow => exact ⟨.refl _, hl.snapshotIndex, .inr rfl⟩
  | _ => exact ⟨.refl _, hl.snapshotIndex, .inl rfl⟩

/-- An older term is ignored, a higher one adopted. -/
theorem adoptTerm_cases (f : Follower) (core : Core) (msg : Message) :
    (msg.term ≤ core.term ∧ f.adoptTerm core msg = (false, f, core)) ∨
    (core.term < msg.term ∧ ∃ f' rng, f.adoptTerm core msg = (true, f', { core with
      persistent := { core.persistent with term := msg.term, votedFor := none }
      rng := rng })) := by
  unfold adoptTerm
  split_ifs with h
  · refine .inr ⟨h, ?_⟩
    have hupd : core.maybeUpdateTerm msg.term = (true, { core with
        persistent := { core.persistent with term := msg.term, votedFor := none } }) :=
      if_pos h
    simp only [hupd]
    split <;> exact ⟨_, _, rfl⟩
  · exact .inl ⟨not_lt.1 h, rfl⟩

theorem rejectStale_noise (core : Core) (msg : Message) :
    ∀ m ∈ (rejectStale core msg).messages, m.payload.isNoise = true := by
  unfold rejectStale
  split
  · exact Effects.noise_withMessage rfl
  · exact core.rejectStale_noise msg

/-- The handler's result as a step of the node; `hcall` is what happened before the handler. -/
theorem Handled.roleCall {n : RaftNode} {core : Core} {r : Follower × Core × StepResult}
    {eff : Effects} (h : Handled env core r) (hcall : Call env n.view ⟨core.erase, .passive⟩ eff) :
    RoleCall env n ⟨r.2.1, .follower r.1⟩ ⟨r.2.2.transition, eff.merge r.2.2.effects⟩ where
  call := by
    have hview : r.2.2.transition.viewOf ⟨r.2.1, .follower r.1⟩ = ⟨r.2.1.erase, .passive⟩ := by
      rcases h.transition with ht | ht <;> rw [ht] <;> rfl
    rw [hview]
    exact hcall.merge h.call
  snapshotIndex := h.snapshotIndex
  win ht := by rcases h.transition with h' | h' <;> rw [h'] at ht <;> cases ht

theorem handleMessage_call (f : Follower) {core : Core} (hl : core.log.Plain) {msg : Message}
    (hmem : msg ∈ env.sent) (hto : msg.to = core.id) (hsnap : msg.payload.isSnapshot = false)
    (hok : RaftNode.acceptsAppend ⟨core, .follower f⟩ msg = true → env.acceptOk core.log msg) :
    RoleCall env ⟨core, .follower f⟩
      ⟨(f.handleMessage core msg).2.1, .follower (f.handleMessage core msg).1⟩
      (f.handleMessage core msg).2.2 := by
  have hs := hl.snapshotIndex
  unfold handleMessage
  split
  · exact roleCall_noise hs rfl (core.denyVote_noise msg)
  split
  · exact roleCall_noise hs rfl (core.prevoteReply_noise _ _ _)
  have haccept : core.term ≤ msg.term → ∀ req, msg.payload = .appendRequest req →
      prevMatches core req = true → env.acceptOk core.log msg := by
    intro hterm req hreq hprev
    apply hok
    simp [RaftNode.acceptsAppend, hreq, hterm, hprev]
  rcases f.adoptTerm_cases core msg with ⟨hle, hadopt⟩ | ⟨hlt, f', rng, hadopt⟩
  · simp only [hadopt]
    split
    · exact roleCall_noise hs rfl (rejectStale_noise core msg)
    · next hstale =>
      have hterm : msg.term = core.term := by omega
      have h := f.dispatch_call hl hmem hto hterm hsnap (haccept (by omega))
      have hcall : Call env (RaftNode.view ⟨core, .follower f⟩) ⟨core.erase, .passive⟩
        Effects.none := .refl _
      exact h.roleCall hcall
  · set core' : Core := { core with
      persistent := { core.persistent with term := msg.term, votedFor := none }
      rng := rng }
    simp only [hadopt]
    rw [if_neg (show ¬msg.term < core'.term from lt_irrefl _)]
    have h : Handled env core' _ := f'.dispatch_call (show core'.log.Plain from hl) hmem hto rfl
      hsnap (haccept (Nat.le_of_lt hlt))
    have hcall : Call env (RaftNode.view ⟨core, .follower f⟩) ⟨core'.erase, .passive⟩
        Effects.none.withPersist := by
      refine .persisted (.single ?_) rfl
      have hadv : Action env _ _ _ := .adopt (RaftNode.view ⟨core, .follower f⟩) msg.term hlt
      rw [show ((RaftNode.view ⟨core, .follower f⟩).core.maybeUpdateTerm msg.term).2 = core'.erase
        from congrArg Prod.snd (if_pos hlt)] at hadv
      exact hadv
    exact h.roleCall hcall

theorem step_call (f : Follower) {core : Core} (hl : core.log.Plain) {event : Event}
    (hev : ∀ msg, event = .message msg → msg ∈ env.sent ∧ msg.to = core.id ∧
      msg.payload.isSnapshot = false ∧
      (RaftNode.acceptsAppend ⟨core, .follower f⟩ msg = true → env.acceptOk core.log msg)) :
    RoleCall env ⟨core, .follower f⟩ ⟨(f.step core event).2.1, .follower (f.step core event).1⟩
      (f.step core event).2.2 := by
  have hs := hl.snapshotIndex
  cases event with
  | tick =>
    simp only [step, handleTick]
    split_ifs
    · exact roleCall_passive hs rfl rfl rfl nofun
    · exact roleCall_passive hs rfl rfl rfl nofun
    · exact roleCall_noise hs rfl Effects.noise_none
  | diskWriteComplete index => exact roleCall_noise hs rfl Effects.noise_none
  | message msg =>
    obtain ⟨hmem, hto, hsnap, hok⟩ := hev msg rfl
    exact f.handleMessage_call hl hmem hto hsnap hok

end Follower

/-! ## Candidates -/

namespace PreCandidate

theorem dispatch_call (p : PreCandidate) {core : Core} (hs : core.log.snapshotIndex = 0)
    (msg : Message) :
    RoleCall env ⟨core, .preCandidate p⟩
      ⟨(p.dispatch core msg).2.1, .preCandidate (p.dispatch core msg).1⟩
      (p.dispatch core msg).2.2 := by
  obtain ⟨sender, target, term, payload⟩ := msg
  cases payload with
  | preVoteResponse resp =>
    simp only [dispatch, handlePrevoteResponse]
    split_ifs with hterm hold hgranted hquorum
    · exact roleCall_adopt hs hterm rfl
    · exact roleCall_noise hs rfl Effects.noise_none
    · exact roleCall_noise hs rfl Effects.noise_none
    · exact roleCall_passive hs rfl rfl rfl nofun
    · exact roleCall_noise hs rfl Effects.noise_none
  | appendRequest req => exact roleCall_passive hs rfl rfl rfl nofun
  | preVoteRequest req => exact roleCall_noise hs rfl (core.prevoteReply_noise _ _ _)
  | voteRequest req => exact roleCall_noise hs rfl (Effects.noise_withMessage rfl)
  | timeoutNow => exact roleCall_passive hs rfl rfl rfl nofun
  | _ => exact roleCall_noise hs rfl Effects.noise_none

theorem step_call (p : PreCandidate) {core : Core} (hs : core.log.snapshotIndex = 0)
    (event : Event) :
    RoleCall env ⟨core, .preCandidate p⟩
      ⟨(p.step core event).2.1, .preCandidate (p.step core event).1⟩ (p.step core event).2.2 := by
  cases event with
  | tick =>
    simp only [step, handleTick]
    split_ifs
    · exact roleCall_noise hs rfl Effects.noise_none
    · exact roleCall_passive hs rfl rfl rfl nofun
    · exact roleCall_noise hs rfl Effects.noise_none
  | diskWriteComplete index => exact roleCall_noise hs rfl Effects.noise_none
  | message msg =>
    simp only [step, handleMessage]
    split
    · exact roleCall_noise hs rfl (core.denyVote_noise msg)
    split
    · next hterm => exact roleCall_adopt hs hterm rfl
    · exact p.dispatch_call hs msg

end PreCandidate

namespace Candidate

theorem handleVoteResponse_call (c : Candidate) {core : Core} (hs : core.log.snapshotIndex = 0)
    {sender : NodeId} {resp : VoteResponse}
    (hmem : ⟨sender, core.id, core.term, .voteResponse resp⟩ ∈ env.sent) :
    RoleCall env ⟨core, .candidate c⟩
      ⟨(c.handleVoteResponse core sender resp).2.1,
        .candidate (c.handleVoteResponse core sender resp).1⟩
      (c.handleVoteResponse core sender resp).2.2 := by
  simp only [handleVoteResponse]
  split
  · exact roleCall_noise hs rfl Effects.noise_none
  next hgranted =>
  have hmem' : ⟨sender, core.erase.id, core.erase.term, .voteResponse ⟨true⟩⟩ ∈ env.sent := by
    obtain ⟨granted⟩ := resp
    cases granted with
    | false => exact absurd rfl hgranted
    | true => exact hmem
  have hcount : Call env (RaftNode.view ⟨core, .candidate c⟩)
      (RaftNode.view ⟨core, .candidate { c with votes := c.votes.insert sender }⟩) Effects.none :=
    .silent (.count core.erase c.votes sender hmem') rfl
  split
  · next hq => exact ⟨hcount, hs, fun _ => ⟨_, rfl, hq⟩⟩
  · exact ⟨hcount, hs, nofun⟩

theorem step_call (c : Candidate) {core : Core} (hs : core.log.snapshotIndex = 0) {event : Event}
    (hev : ∀ msg, event = .message msg → msg ∈ env.sent ∧ msg.to = core.id) :
    RoleCall env ⟨core, .candidate c⟩
      ⟨(c.step core event).2.1, .candidate (c.step core event).1⟩ (c.step core event).2.2 := by
  cases event with
  | tick =>
    simp only [step, handleTick]
    split_ifs
    · exact roleCall_noise hs rfl Effects.noise_none
    · exact roleCall_passive hs rfl rfl rfl nofun
    · exact roleCall_noise hs rfl Effects.noise_none
  | diskWriteComplete index => exact roleCall_noise hs rfl Effects.noise_none
  | message msg =>
    obtain ⟨hmem, hto⟩ := hev msg rfl
    simp only [step, handleMessage]
    split
    · exact roleCall_noise hs rfl (core.denyVote_noise msg)
    split
    · exact roleCall_noise hs rfl (core.prevoteReply_noise _ _ _)
    split
    · next hterm => exact roleCall_adopt hs hterm rfl
    split
    · exact roleCall_noise hs rfl (core.rejectStale_noise msg)
    next hgt hlt =>
    have hterm : msg.term = core.term := by omega
    obtain ⟨sender, target, term, payload⟩ := msg
    subst hto hterm
    cases payload with
    | voteResponse resp => exact c.handleVoteResponse_call hs hmem
    | appendRequest req => exact roleCall_passive hs rfl rfl rfl nofun
    | voteRequest req => exact roleCall_noise hs rfl (Effects.noise_withMessage rfl)
    | timeoutNow => exact roleCall_passive hs rfl rfl rfl nofun
    | _ => exact roleCall_noise hs rfl Effects.noise_none

end Candidate

/-! ## Leader -/

namespace Leader

theorem StepCall.roleCall {l : Leader} {core : Core} {r : Leader × Core × StepResult}
    (h : StepCall env l core r) : RoleCall env ⟨core, .leader l⟩ ⟨r.2.1, .leader r.1⟩ r.2.2 where
  call := by
    rcases h.transition with ht | ⟨leader, ht⟩
    · rw [ht]
      exact h.call
    · rw [ht]
      have := h.call.merge (.silent (.demote (r.1.viewWith r.2.1)) rfl)
      rwa [Effects.merge_none] at this
  snapshotIndex := h.snapshotIndex
  win ht := by rcases h.transition with h' | ⟨leader, h'⟩ <;> rw [h'] at ht <;> cases ht

theorem step_call (l : Leader) {core : Core} (hs : core.log.snapshotIndex = 0) {event : Event}
    (hev : ∀ msg, event = .message msg → msg ∈ env.sent ∧ msg.to = core.id ∧
      msg.payload.isSnapshot = false)
    (hdisk : ∀ index, event = .diskWriteComplete index → index ≤ core.log.lastIndex) :
    RoleCall env ⟨core, .leader l⟩ ⟨(l.step core event).2.1, .leader (l.step core event).1⟩
      (l.step core event).2.2 := by
  cases event with
  | tick => exact (l.handleTick_call hs).roleCall
  | diskWriteComplete index => exact (l.handleDiskWriteComplete_call hs (hdisk index rfl)).roleCall
  | message msg =>
    obtain ⟨hmem, hto, hsnap⟩ := hev msg rfl
    simp only [step, handleMessage]
    split
    · exact roleCall_noise hs rfl (Effects.noise_withMessage rfl)
    split
    · next hterm => exact roleCall_adopt hs hterm rfl
    split
    · exact roleCall_noise hs rfl (core.rejectStale_noise msg)
    next hgt hlt =>
    exact (l.dispatch_call hs hmem hto (by omega) hsnap).roleCall

theorem initial_call (core : Core) :
    Call env ⟨core.erase, .leader fun _ => 0⟩ ((initial core).viewWith core) Effects.none := by
  have hzero : (core.effectiveConfig.allNodes.foldl (fun m id => m.insert id 0)
      IndexMap.empty).index = fun _ => 0 := index_foldl_insert_zero _ _ rfl
  unfold initial
  simp only [viewWith, RaftNode.view, RoleState.view]
  split_ifs
  · rw [hzero]
    exact .refl _
  · rw [index_insert, hzero]
    exact .silent (.disk core.erase _ _ le_rfl) rfl

theorem new_call {core : Core} (hs : core.log.snapshotIndex = 0) {votes : OrdSet NodeId}
    (hq : core.effectiveConfig.hasQuorum votes.contains = true) :
    Call env ⟨core.erase, .candidate votes⟩ ((new core).1.viewWith core) (new core).2 := by
  have hwin : Action env ⟨core.erase, .candidate votes⟩ ⟨core.erase, .leader fun _ => 0⟩ [] :=
    .win core.erase votes hq
  exact .cons hwin rfl ((initial_call core).merge ((initial core).broadcastAppend_call hs))

end Leader

/-! ## Transitions -/

theorem Candidate.new_call (core : Core) (role : RoleView) :
    Call env ⟨core.erase, role⟩
      (RaftNode.view ⟨(Candidate.new core).2.1, .candidate (Candidate.new core).1⟩)
      (Candidate.new core).2.2 := by
  have hvotes : ∀ id ∈ (Candidate.new core).1.votes, id = core.id ∧ core.isVoter = true := by
    have hv : (Candidate.new core).1.votes =
        if core.isVoter then OrdSet.empty.insert core.id else OrdSet.empty := by
      unfold Candidate.new
      dsimp only
      split <;> rfl
    intro id hid
    rw [hv] at hid
    split_ifs at hid with h
    · simp at hid
      exact ⟨hid, h⟩
    · simp at hid
  have hms : ∀ m ∈ (Candidate.new core).2.2.messages, ∃ peer, m =
      core.erase.startElection.message peer
        (.voteRequest ⟨core.log.lastIndex, core.log.lastTerm⟩) := by
    intro m hm
    unfold Candidate.new at hm
    dsimp only at hm
    split at hm
    · simp at hm
    · simp only [Effects.withMessages_messages, Effects.withPersist_messages,
        Effects.none_messages, List.nil_append, List.mem_map] at hm
      obtain ⟨peer, -, rfl⟩ := hm
      exact ⟨peer, rfl⟩
  have hpersist : (Candidate.new core).2.2.persist = true := by
    unfold Candidate.new
    dsimp only
    split <;> rfl
  have hcore : (Candidate.new core).2.1.erase = core.erase.startElection := by
    unfold Candidate.new
    dsimp only
    split <;> rfl
  refine .persisted (.single ?_) hpersist
  simp only [RaftNode.view, RoleState.view, hcore]
  exact .campaign ⟨core.erase, role⟩ _ _ hvotes hms

theorem PreCandidate.new_call (core : Core) (role : RoleView) :
    Call env ⟨core.erase, role⟩ ⟨(PreCandidate.new core).2.1.erase, .passive⟩
        (PreCandidate.new core).2.2
      ∧ (PreCandidate.new core).2.1.erase = core.erase := by
  have hcore : (PreCandidate.new core).2.1.erase = core.erase := by
    unfold PreCandidate.new
    dsimp only
    split <;> rfl
  have hnoise : ∀ m ∈ (PreCandidate.new core).2.2.messages, m.payload.isNoise = true := by
    intro m hm
    unfold PreCandidate.new at hm
    dsimp only at hm
    split at hm
    · simp at hm
    · simp only [Effects.withMessages_messages, Effects.none_messages, List.nil_append,
        List.mem_map] at hm
      obtain ⟨peer, -, rfl⟩ := hm
      rfl
  refine ⟨?_, hcore⟩
  rw [hcore]
  exact .cons (.demote ⟨core.erase, role⟩) rfl (.noise hnoise)

namespace RaftNode

theorem becomeLeader_call {core : Core} (hs : core.log.snapshotIndex = 0) {votes : OrdSet NodeId}
    (hq : core.effectiveConfig.hasQuorum votes.contains = true) {v : View} {eff : Effects}
    (h : Call env v ⟨core.erase, .candidate votes⟩ eff) :
    Call env v (becomeLeader core eff).1.view (becomeLeader core eff).2 :=
  h.merge (Leader.new_call hs hq)

theorem becomeCandidate_call {core : Core} (hs : core.log.snapshotIndex = 0) {v : View}
    {eff : Effects} {role : RoleView} (h : Call env v ⟨core.erase, role⟩ eff) :
    Call env v (becomeCandidate core eff).1.view (becomeCandidate core eff).2 := by
  have hnew : Call env v _ _ := h.merge (Candidate.new_call core role)
  have hs' : (Candidate.new core).2.1.log.snapshotIndex = 0 := by
    unfold Candidate.new
    dsimp only
    split <;> exact hs
  unfold becomeCandidate
  dsimp only
  split
  · next hq => exact becomeLeader_call hs' hq hnew
  · exact hnew

/-- Carrying out a transition. -/
theorem applyTransition_call (n : RaftNode) (t : Transition) (hs : n.core.log.snapshotIndex = 0)
    (hwin : t = .toLeader → ∃ c, n.role = .candidate c ∧ c.hasQuorum n.core = true) :
    Call env (t.viewOf n) (n.applyTransition t).1.view (n.applyTransition t).2 := by
  cases t with
  | stay => exact .refl _
  | toFollower leader => exact .refl _
  | toFollowerAfterContact leader => exact .refl _
  | toPreCandidate =>
    obtain ⟨hcall, herase⟩ : Call env ⟨n.core.erase, .passive⟩ _ _ ∧ _ :=
      PreCandidate.new_call n.core .passive
    have hs' : (PreCandidate.new n.core).2.1.log.snapshotIndex = 0 := by
      show (PreCandidate.new n.core).2.1.erase.log.snapshotIndex = 0
      rw [herase]
      exact hs
    unfold applyTransition
    dsimp only
    split
    · exact becomeCandidate_call hs' hcall
    · exact hcall
  | toCandidate => exact becomeCandidate_call hs (.refl ⟨n.core.erase, .passive⟩)
  | toLeader =>
    obtain ⟨c, hc, hq⟩ := hwin rfl
    refine becomeLeader_call hs hq ?_
    show Call env n.view _ _
    rw [view, hc]
    exact .refl _

/-- What an event must satisfy: messages come from the network and are not about snapshots, and
the disk completes only what was written. -/
structure EventOk (env : Env) (n : RaftNode) (event : Event) : Prop where
  message : ∀ msg, event = .message msg → msg ∈ env.sent ∧ msg.to = n.core.id ∧
    msg.payload.isSnapshot = false ∧ (n.acceptsAppend msg = true → env.acceptOk n.core.log msg)
  disk : ∀ index, event = .diskWriteComplete index → index ≤ n.core.log.lastIndex

theorem roleStep_call (n : RaftNode) {event : Event} (hl : n.core.log.Plain)
    (h : EventOk env n event) : RoleCall env n (n.roleStep event).1 (n.roleStep event).2 := by
  obtain ⟨core, role⟩ := n
  cases role with
  | follower f => exact f.step_call hl h.message
  | preCandidate p => exact p.step_call hl.snapshotIndex event
  | candidate c =>
    exact c.step_call hl.snapshotIndex fun msg hm => ⟨(h.message msg hm).1, (h.message msg hm).2.1⟩
  | leader l =>
    refine l.step_call hl.snapshotIndex (fun msg hm => ?_) h.disk
    obtain ⟨hmem, hto, hsnap, -⟩ := h.message msg hm
    exact ⟨hmem, hto, hsnap⟩

/-- **An event of a node is a sequence of actions.** -/
theorem stepEvent_call (n : RaftNode) {event : Event} (hl : n.core.log.Plain)
    (h : EventOk env n event) :
    Call env n.view (n.stepEvent event).1.view (n.stepEvent event).2 := by
  have hrole := n.roleStep_call hl h
  exact hrole.call.merge ((n.roleStep event).1.applyTransition_call _ hrole.snapshotIndex hrole.win)

theorem settle_call (core : Core) (l : Leader) (shouldStepDown : Bool) :
    Call env (l.viewWith core) (settle core l shouldStepDown).view Effects.none := by
  cases shouldStepDown with
  | true => exact .silent (.demote (l.viewWith core)) rfl
  | false => exact .refl _

theorem publish_call (l : Leader) {core : Core} (hs : core.log.snapshotIndex = 0) :
    Call env (l.viewWith core) (l.publish core).1.view (l.publish core).2 := by
  have hc : Call env _ _ _ := (l.commit_broadcast_call hs).merge
    (settle_call (l.maybeCommit core).2.1
      ((l.maybeCommit core).1.broadcastAppend (l.maybeCommit core).2.1).1
        (l.maybeCommit core).2.2.2)
  rwa [Effects.merge_none] at hc

theorem propose_call {n n' : RaftNode} {cmd : Command} {r : Except ProposeError (ℕ × Effects)}
    (hs : n.core.log.snapshotIndex = 0) (h : n.propose cmd = some (n', r)) :
    Call env n.view n'.view (Cluster.effectsOf r) := by
  cases propose_cases h with
  | refused => exact .refl _
  | accepted l core core' hcore =>
    subst hcore
    have happend : Trace (Action env) (l.viewWith core)
        (l.viewWith (Leader.appendEntry core (.command cmd))) [] :=
      .single (.appendCommand core.erase _ cmd)
    have hown : Call env _ _ _ := l.recordAppended_call core (.command cmd)
    exact .after (happend.trans hown.trace) (publish_call _ hs) rfl

theorem proposeConfigChange_call {n n' : RaftNode} {change : ConfigChange}
    {r : Except ConfigChangeError (ℕ × Effects)} (h : n.proposeConfigChange change = (n', r))
    (hs : n.core.log.snapshotIndex = 0) (hok : r.isOk = true → env.changeOk n.core.erase) :
    Call env n.view n'.view (Cluster.effectsOf r) := by
  cases proposeConfigChange_cases h with
  | refused => exact .refl _
  | accepted l core core' hcheck hcore =>
    obtain ⟨hvalid, -, hpending⟩ := Leader.checkConfigChange_ok hcheck
    subst hcore
    set core' := Leader.appendEntry core
      (.config (change.apply core.effectiveConfig core.config.membershipMode))
    have happend : Trace (Action env) (l.viewWith core) (l.viewWith core') [] :=
      .single (.appendChange core.erase _ change (hok rfl) hvalid hpending)
    have hown : Call env _ _ _ := l.recordAppended_call core
      (.config (change.apply core.effectiveConfig core.config.membershipMode))
    have hreinit : Call env _ _ _ :=
      (l.recordOwnMatch core' (core.log.lastIndex + 1)).reinitProgress_call core'
    exact .after ((happend.trans hown.trace).trans hreinit.trace) (publish_call _ hs) rfl

theorem requestReadIndex_call (n : RaftNode) :
    Call env n.view n.requestReadIndex.1.view (Cluster.effectsOf n.requestReadIndex.2) := by
  obtain ⟨core, role⟩ := n
  cases role with
  | leader l =>
    simp only [requestReadIndex, Leader.requestReadIndex]
    split
    · exact .refl _
    · split
      · exact .refl _
      · split
        · exact .refl _
        · exact .noise (Leader.readIndexRequests_noise core _)
  | _ => exact .refl _

theorem transferLeadership_call {n : RaftNode} {target : NodeId} {effects : Effects}
    (h : n.transferLeadership target = .ok effects) : Call env n.view n.view effects := by
  obtain ⟨core, role⟩ := n
  cases role with
  | leader l =>
    simp only [transferLeadership, Leader.transferLeadership] at h
    split_ifs at h
    cases h
    exact .noise (Effects.noise_withMessage rfl)
  | _ => cases h

theorem restore_call (n : RaftNode) :
    Call env n.view (restore n.core.config n.core.persistent).view Effects.none :=
  .silent (.restart n.view) rfl

end RaftNode

end Cloud9
