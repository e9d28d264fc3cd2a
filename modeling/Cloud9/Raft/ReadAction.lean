import Cloud9.Raft.Leadership

/-!
# Read-index rounds, one action at a time

What a call does to read-index rounds is a sequence of small actions (`ReadAction`) on the part of
a node that matters for them (`ReadView`): its term, whether it campaigns, and a leader's round
counter, pending round and confirmed index. Everything else a call does, and every message that
belongs to no round, is `other`.

Main result: `RaftNode.stepEvent_reads`, and its companions for the other calls of the API.
-/

namespace Cloud9

def Payload.isRead : Payload → Bool
  | .readIndexRequest _ | .readIndexResponse _ => true
  | _ => false

/-- What a role means for read-index rounds. -/
inductive ReadRole where
  | passive
  | candidate
  | leader (nextReadId : ℕ) (pending : Option PendingReadIndex) (confirmed : ℕ)

structure ReadView where
  id : NodeId
  term : ℕ
  role : ReadRole

/-- A leader's rounds. -/
def Leader.reads (l : Leader) : ReadRole :=
  .leader l.nextReadId l.pendingReadIndex l.confirmedReadIndex

def RoleState.reads : RoleState → ReadRole
  | .follower _ | .preCandidate _ => .passive
  | .candidate _ => .candidate
  | .leader l => l.reads

def RaftNode.readView (n : RaftNode) : ReadView := ⟨n.core.id, n.core.term, n.role.reads⟩

/-- The requests of a round. -/
def roundRequests (id : NodeId) (term : ℕ) (pending : PendingReadIndex) : List Message :=
  (pending.configuration.voterPeers id).map fun peer =>
    ⟨id, peer, term, .readIndexRequest ⟨pending.id, pending.readIndex⟩⟩

/-- One action on read-index rounds, on delivery of a message or without one. -/
inductive ReadAction (delivered : Option Message) : ReadView → ReadView → List Message → Prop
  /-- Nothing happens to the rounds. -/
  | other (v : ReadView) (ms : List Message) (h : ∀ m ∈ ms, m.payload.isRead = false) :
    ReadAction delivered v v ms
  /-- The node becomes a follower, or remains one, perhaps in a later term. -/
  | retire (v : ReadView) {term : ℕ} (h : v.term ≤ term) :
    ReadAction delivered v ⟨v.id, term, .passive⟩ []
  | campaign (v : ReadView) : ReadAction delivered v ⟨v.id, v.term + 1, .candidate⟩ []
  | win (id : NodeId) (term : ℕ) :
    ReadAction delivered ⟨id, term, .candidate⟩ ⟨id, term, .leader 1 none 0⟩ []
  /-- A follower answers a request of its term or of an older one. -/
  | respond (id : NodeId) {term : ℕ} {msg : Message} {req : ReadIndexRequest}
      (hd : delivered = some msg) (hreq : msg.payload = .readIndexRequest req)
      (hterm : msg.term ≤ term) :
    ReadAction delivered ⟨id, term, .passive⟩ ⟨id, term, .passive⟩
      [⟨id, msg.from, term, .readIndexResponse ⟨req.id, req.readIndex⟩⟩]
  /-- The leader repeats the requests of the pending round. -/
  | resend (id : NodeId) (term next : ℕ) (pending : PendingReadIndex) (confirmed : ℕ) :
    ReadAction delivered ⟨id, term, .leader next (some pending) confirmed⟩
      ⟨id, term, .leader next (some pending) confirmed⟩ (roundRequests id term pending)
  /-- The leader opens a round. -/
  | request (id : NodeId) (term next confirmed readIndex : ℕ) (cfg : Configuration) :
    ReadAction delivered ⟨id, term, .leader next none confirmed⟩
      ⟨id, term, .leader (next + 1)
        (some ⟨next, readIndex, cfg, OrdSet.empty.insert id⟩) confirmed⟩
      (roundRequests id term ⟨next, readIndex, cfg, OrdSet.empty.insert id⟩)
  /-- The leader is a quorum alone, and confirms the index at once. -/
  | alone (id : NodeId) (term next confirmed readIndex : ℕ) :
    ReadAction delivered ⟨id, term, .leader next none confirmed⟩
      ⟨id, term, .leader (next + 1) none (max confirmed readIndex)⟩ []
  /-- The leader counts an answer to the pending round. -/
  | count (id : NodeId) {term : ℕ} (next : ℕ) {pending : PendingReadIndex} (confirmed : ℕ)
      {msg : Message} (hd : delivered = some msg)
      (hresp : msg.payload = .readIndexResponse ⟨pending.id, pending.readIndex⟩)
      (hterm : msg.term = term) :
    ReadAction delivered ⟨id, term, .leader next (some pending) confirmed⟩
      ⟨id, term, .leader next (some { pending with acks := pending.acks.insert msg.from })
        confirmed⟩ []
  /-- The pending round has a quorum. -/
  | confirm (id : NodeId) (term next : ℕ) {pending : PendingReadIndex} (confirmed : ℕ)
      (hq : pending.configuration.hasQuorum pending.acks.contains = true) :
    ReadAction delivered ⟨id, term, .leader next (some pending) confirmed⟩
      ⟨id, term, .leader next none (max confirmed pending.readIndex)⟩ []

/-! ## Effects that belong to no round -/

/-- No message of the effects belongs to a round. -/
def Effects.Unread (e : Effects) : Prop := ∀ m ∈ e.messages, m.payload.isRead = false

namespace Effects.Unread

variable {e e' : Effects}

theorem empty : Effects.none.Unread := All.empty

theorem withPersist (h : e.Unread) : e.withPersist.Unread := h

theorem withMessage (h : e.Unread) {m : Message} (hm : m.payload.isRead = false) :
    (e.withMessage m).Unread :=
  All.withMessage h hm

theorem withMessages (h : e.Unread) {ms : List Message}
    (hms : ∀ m ∈ ms, m.payload.isRead = false) : (e.withMessages ms).Unread :=
  All.withMessages h hms

theorem merge (h : e.Unread) (h' : e'.Unread) : (e.merge e').Unread := All.merge h h'

theorem one {m : Message} (hm : m.payload.isRead = false) : (Effects.none.withMessage m).Unread :=
  All.one hm

end Effects.Unread

theorem Core.denyVote_unread (core : Core) (msg : Message) : (core.denyVote msg).Unread := by
  unfold denyVote
  split
  · exact .one rfl
  · exact .one rfl
  · exact .empty

theorem Core.rejectStale_unread (core : Core) (msg : Message) : (core.rejectStale msg).Unread := by
  unfold rejectStale
  split
  · exact .one rfl
  · exact .one rfl
  · exact .empty

/-! ## Leaders -/

namespace Leader

/-- The rounds are left alone. -/
def Unread (l : Leader) (r : Leader × Effects) : Prop := r.1.reads = l.reads ∧ r.2.Unread

theorem sendAppendTo_unread (l : Leader) (core : Core) (peer : NodeId) :
    l.Unread (l.sendAppendTo core peer) := by
  unfold sendAppendTo
  dsimp only
  split_ifs
  · exact ⟨rfl, .empty⟩
  all_goals exact ⟨rfl, .one rfl⟩

theorem broadcastAppend_unread (l : Leader) (core : Core) : l.Unread (l.broadcastAppend core) :=
  broadcastAppend_induct (I := fun l' e => l.Unread (l', e))
    (fun l' _ peer h => have hsend := l'.sendAppendTo_unread core peer
      ⟨hsend.1.trans h.1, h.2.merge hsend.2⟩) ⟨rfl, .empty⟩

theorem tryAutoTransfer_unread (l : Leader) (core : Core) (cfg : Configuration) :
    (l.tryAutoTransfer core cfg).Unread := by
  unfold tryAutoTransfer
  split
  · split
    · exact .one rfl
    · exact .empty
  · exact .empty

theorem appendTransitionTarget_unread (l : Leader) (core : Core) (target : Configuration) :
    (l.appendTransitionTarget core target).1.reads = l.reads ∧
      (l.appendTransitionTarget core target).2.2.Unread := by
  have hsend := (l.reinitProgress (appendEntry core (.config target))).broadcastAppend_unread
    (appendEntry core (.config target))
  exact ⟨hsend.1, hsend.2.withPersist⟩

theorem maybeCommit_unread (l : Leader) (core : Core) : (l.maybeCommit core).1.reads = l.reads ∧
    (l.maybeCommit core).2.2.1.Unread := by
  refine maybeCommit_induct (I := fun l' _ e => l'.reads = l.reads ∧ e.Unread)
    (fun _ _ _ _ h _ _ => h) (fun l' core' _ cfg h => ?_) (fun l' core' _ target h => ?_) l
    ⟨rfl, .empty⟩
  · exact ⟨h.1, h.2.merge (l'.tryAutoTransfer_unread core' cfg)⟩
  · have hnext := l'.appendTransitionTarget_unread core' target
    exact ⟨hnext.1.trans h.1, h.2.merge hnext.2⟩

theorem maybeCommit_identity (l : Leader) (core : Core) :
    (l.maybeCommit core).2.1.id = core.id ∧ (l.maybeCommit core).2.1.term = core.term :=
  maybeCommit_rule (I := fun core' => core'.id = core.id ∧ core'.term = core.term)
    (Q := fun core' _ => core'.id = core.id ∧ core'.term = core.term)
    (fun _ _ h _ _ _ => h) (fun _ _ h _ _ => h) (fun _ _ _ _ h _ _ _ _ => h) l ⟨rfl, rfl⟩

end Leader

/-! ## Steps of the roles -/

def Event.delivered : Event → Option Message
  | .message msg => some msg
  | _ => none

/-- A role's step does read actions before its transition, or lets the node fall back to follower
in the term it then has. -/
def RoleReads (event : Event) (n : RaftNode) (r : RaftNode × StepResult) : Prop :=
  (Trace (ReadAction event.delivered) n.readView r.1.readView r.2.effects.messages ∧
      (r.2.transition = .toLeader → r.1.readView.role = .candidate)) ∨
    (∃ leader, r.2.transition = .toFollower leader) ∧ r.1.core.id = n.core.id ∧
      n.core.term ≤ r.1.core.term ∧ r.2.effects.Unread

namespace RoleReads

variable {event : Event} {n : RaftNode} {r : RaftNode × StepResult}

theorem other (hview : r.1.readView = n.readView) (h : r.2.effects.Unread)
    (hlead : decide (r.2.transition = .toLeader) = false) : RoleReads event n r := by
  refine .inl ⟨?_, fun htr => absurd htr (of_decide_eq_false hlead)⟩
  rw [hview]
  exact .single (.other _ _ h)

theorem none (hview : r.1.readView = n.readView) (h : r.2.effects = Effects.none)
    (hlead : decide (r.2.transition = .toLeader) = false) : RoleReads event n r :=
  other hview (h ▸ .empty) hlead

end RoleReads

theorem Core.maybeUpdateTerm_identity (core : Core) (term : ℕ) :
    (core.maybeUpdateTerm term).2.id = core.id ∧
      core.term ≤ (core.maybeUpdateTerm term).2.term := by
  unfold maybeUpdateTerm
  split
  · next h => exact ⟨rfl, Nat.le_of_lt h⟩
  · exact ⟨rfl, le_rfl⟩

/-- A higher term is adopted on the way to the follower role. -/
theorem RoleReads.adopt {event : Event} {n n' : RaftNode} {term : ℕ} {leader : Option NodeId}
    (hn' : n'.core = (n.core.maybeUpdateTerm term).2) :
    RoleReads event n (n', .toFollower leader Effects.none.withPersist) := by
  obtain ⟨hid, hterm⟩ := n.core.maybeUpdateTerm_identity term
  exact .inr ⟨⟨leader, rfl⟩, by rw [hn', hid], by rw [hn']; exact hterm, Effects.Unread.empty⟩

theorem PreCandidate.step_reads (p : PreCandidate) (core : Core) (event : Event) :
    RoleReads event ⟨core, .preCandidate p⟩
      (⟨(p.step core event).2.1, .preCandidate (p.step core event).1⟩,
        (p.step core event).2.2) := by
  cases event with
  | tick =>
    simp only [step, handleTick]
    split_ifs <;> exact .none rfl rfl rfl
  | diskWriteComplete index => exact .none rfl rfl rfl
  | message msg =>
    simp only [step, handleMessage]
    split
    · exact .other rfl (core.denyVote_unread msg) rfl
    · split
      · exact .adopt rfl
      · unfold dispatch
        split
        · unfold handlePrevoteResponse
          dsimp only
          split_ifs
          · exact .adopt rfl
          all_goals exact .none rfl rfl rfl
        · exact .none rfl rfl rfl
        · exact .other rfl (.one rfl) rfl
        · exact .other rfl (.one rfl) rfl
        · exact .none rfl rfl rfl
        · exact .none rfl rfl rfl

theorem Candidate.step_reads (c : Candidate) (core : Core) (event : Event) :
    RoleReads event ⟨core, .candidate c⟩
      (⟨(c.step core event).2.1, .candidate (c.step core event).1⟩, (c.step core event).2.2) := by
  cases event with
  | tick =>
    simp only [step, handleTick]
    split_ifs <;> exact .none rfl rfl rfl
  | diskWriteComplete index => exact .none rfl rfl rfl
  | message msg =>
    simp only [step, handleMessage]
    split
    · exact .other rfl (core.denyVote_unread msg) rfl
    · split
      · exact .other rfl (.one rfl) rfl
      · split
        · exact .adopt rfl
        · split
          · exact .other rfl (core.rejectStale_unread msg) rfl
          · unfold dispatch
            split
            · unfold handleVoteResponse
              dsimp only
              split_ifs
              · exact .none rfl rfl rfl
              · exact .inl ⟨.refl _, fun _ => rfl⟩
              · exact .none rfl rfl rfl
            · exact .none rfl rfl rfl
            · exact .other rfl (.one rfl) rfl
            · exact .none rfl rfl rfl
            · exact .none rfl rfl rfl

theorem Follower.dispatch_reads (f : Follower) {core : Core} {msg : Message}
    (hterm : msg.term ≤ core.term) :
    Trace (ReadAction (some msg)) ⟨core.id, core.term, .passive⟩
        ⟨(f.dispatch core msg).2.1.id, (f.dispatch core msg).2.1.term, .passive⟩
        (f.dispatch core msg).2.2.effects.messages ∧
      (f.dispatch core msg).2.2.transition ≠ .toLeader := by
  have hother : ∀ {core' : Core} {effects : Effects}, core'.id = core.id → core'.term = core.term →
      effects.Unread → Trace (ReadAction (some msg)) ⟨core.id, core.term, .passive⟩
        ⟨core'.id, core'.term, .passive⟩ effects.messages := by
    intro core' effects hid hterm' h
    rw [hid, hterm']
    exact .single (.other _ _ h)
  unfold dispatch
  split
  · unfold handleVoteRequest
    dsimp only
    split <;> exact ⟨hother rfl rfl (.one rfl), nofun⟩
  · next req _ =>
    have haccept : ∀ core : Core, (acceptAppend core req).id = core.id ∧
        (acceptAppend core req).term = core.term := by
      intro core
      unfold acceptAppend
      dsimp only
      split <;> exact ⟨rfl, rfl⟩
    unfold handleAppendRequest
    dsimp only
    split
    · refine ⟨hother (haccept _).1 (haccept _).2 ?_, nofun⟩
      split
      · exact Effects.Unread.empty.withPersist.withMessage rfl
      · exact .one rfl
    · exact ⟨hother rfl rfl (.one rfl), nofun⟩
  · next req hreq => exact ⟨.single (.respond _ rfl hreq hterm), nofun⟩
  · unfold handleInstallSnapshot
    dsimp only
    split
    · exact ⟨hother rfl rfl (.one rfl), nofun⟩
    · split <;> exact ⟨hother rfl rfl (.one rfl), nofun⟩
  · exact ⟨hother rfl rfl .empty, nofun⟩
  · exact ⟨hother rfl rfl .empty, nofun⟩

theorem Follower.step_reads (f : Follower) (core : Core) (event : Event) :
    RoleReads event ⟨core, .follower f⟩
      (⟨(f.step core event).2.1, .follower (f.step core event).1⟩, (f.step core event).2.2) := by
  cases event with
  | tick =>
    simp only [step, handleTick]
    split_ifs <;> exact .none rfl rfl rfl
  | diskWriteComplete index => exact .none rfl rfl rfl
  | message msg =>
    simp only [step, handleMessage]
    split
    · exact .other rfl (core.denyVote_unread msg) rfl
    · split
      · exact .other rfl (.one rfl) rfl
      · obtain ⟨hid, hle, hmsg⟩ := f.adoptTerm_identity core msg
        have hadopt : Trace (ReadAction (some msg)) ⟨core.id, core.term, .passive⟩
            ⟨(f.adoptTerm core msg).2.2.id, (f.adoptTerm core msg).2.2.term, .passive⟩ [] := by
          rw [hid]
          exact .single (.retire ⟨core.id, core.term, .passive⟩ hle)
        split
        · refine .inl ⟨hadopt.trans ?_, fun htr => by cases htr⟩
          unfold rejectStale
          split
          · next req hreq => exact .single (.respond _ rfl hreq hmsg)
          · exact .single (.other _ _ (Core.rejectStale_unread _ msg))
        · obtain ⟨htrace, hlead⟩ := dispatch_reads (f.adoptTerm core msg).2.1 hmsg
          refine .inl ⟨?_, fun htr => absurd htr hlead⟩
          split
          · exact hadopt.trans htrace
          · exact hadopt.trans htrace

namespace Leader

/-- A leader with a core, seen from its rounds. -/
abbrev readsWith (l : Leader) (core : Core) : ReadView := ⟨core.id, core.term, l.reads⟩

theorem afterCommit_reads {event : Event} {l l' : Leader} (core : Core)
    (hreads : l'.reads = l.reads) : RoleReads event ⟨core, .leader l⟩
      (⟨(afterCommit (l'.maybeCommit core)).2.1, .leader (afterCommit (l'.maybeCommit core)).1⟩,
        (afterCommit (l'.maybeCommit core)).2.2) := by
  obtain ⟨hid, hterm⟩ := l'.maybeCommit_identity core
  obtain ⟨hsame, hunread⟩ := l'.maybeCommit_unread core
  have hview : readsWith (l'.maybeCommit core).1 (l'.maybeCommit core).2.1 = readsWith l core := by
    rw [readsWith, hid, hterm, hsame, hreads]
  cases hdown : (l'.maybeCommit core).2.2.2 with
  | true =>
    refine .other hview ?_ ?_
    · simpa [afterCommit, hdown, StepResult.toFollower] using hunread
    · simp [afterCommit, hdown, StepResult.toFollower]
  | false =>
    refine .other hview ?_ ?_
    · simpa [afterCommit, hdown, StepResult.stay] using hunread
    · simp [afterCommit, hdown, StepResult.stay]

theorem handleReadIndexResponse_reads (l : Leader) (core : Core) {msg : Message}
    {resp : ReadIndexResponse} (hresp : msg.payload = .readIndexResponse resp)
    (hterm : msg.term = core.term) : Trace (ReadAction (some msg)) (l.readsWith core)
      ((l.handleReadIndexResponse msg.from resp).readsWith core) [] := by
  unfold handleReadIndexResponse
  split
  · exact .refl _
  · next pending hpending =>
    have hview : l.readsWith core =
        ⟨core.id, core.term, .leader l.nextReadId (some pending) l.confirmedReadIndex⟩ := by
      rw [readsWith, reads, hpending]
    split
    · exact .refl _
    · split
      · exact .refl _
      · next hmatch =>
        obtain ⟨hid, hidx⟩ : pending.id = resp.id ∧ pending.readIndex = resp.readIndex := by
          simpa using hmatch
        have hcount : Trace (ReadAction (some msg)) (l.readsWith core) ⟨core.id, core.term,
            .leader l.nextReadId (some { pending with acks := pending.acks.insert msg.from })
              l.confirmedReadIndex⟩ [] := by
          rw [hview]
          exact .single (.count core.id l.nextReadId l.confirmedReadIndex rfl
            (by rw [hresp, hid, hidx]) hterm)
        dsimp only
        split
        · next hq => exact hcount.tail (.confirm core.id core.term _ _ hq)
        · exact hcount

theorem dispatch_reads (l : Leader) {core : Core} {msg : Message} (hterm : msg.term = core.term) :
    RoleReads (.message msg) ⟨core, .leader l⟩
      (⟨(l.dispatch core msg).2.1, .leader (l.dispatch core msg).1⟩,
        (l.dispatch core msg).2.2) := by
  unfold dispatch
  split
  · unfold handleAppendResponse
    split
    · exact .none rfl rfl rfl
    · split
      · exact afterCommit_reads core rfl
      · next resp _ _ _ =>
        have hsend := sendAppendTo_unread { l with
          nextIndex := l.nextIndex.insert msg.from (l.retryIndex core msg.from resp) } core msg.from
        refine .other ?_ hsend.2 rfl
        simp only [RaftNode.readView, RoleState.reads, hsend.1]
        rfl
  · unfold handleInstallSnapshotResponse
    split
    · exact .none rfl rfl rfl
    · split
      · exact .none rfl rfl rfl
      · exact afterCommit_reads core rfl
  · next resp hresp =>
    exact .inl ⟨l.handleReadIndexResponse_reads core hresp hterm, nofun⟩
  · exact .other rfl (.one rfl) rfl
  · exact .none rfl rfl rfl

theorem handleTick_reads (l : Leader) (core : Core) :
    RoleReads .tick ⟨core, .leader l⟩
      (⟨(l.handleTick core).2.1, .leader (l.handleTick core).1⟩, (l.handleTick core).2.2) := by
  set core' : Core := { core with ticks := core.ticks + 1 } with hcore'
  unfold handleTick
  rw [← hcore']
  dsimp only
  split
  · obtain ⟨hsame, hunread⟩ := broadcastAppend_unread { l with
      heartbeatDeadline := core'.ticks + core'.config.heartbeatInterval } core'
    generalize broadcastAppend _ core' = r at hsame hunread ⊢
    have hview : r.1.readsWith core' = l.readsWith core := by
      rw [readsWith, hsame]
      rfl
    have hother :
        Trace (ReadAction none) (l.readsWith core) (r.1.readsWith core') r.2.messages := by
      rw [hview]
      exact .single (.other _ _ hunread)
    split
    · next pending hpending =>
      refine .inl ⟨hother.trans (.single ?_), nofun⟩
      have hleader : r.1.readsWith core' =
          ⟨core.id, core.term, .leader r.1.nextReadId (some pending) r.1.confirmedReadIndex⟩ := by
        rw [readsWith, reads, hpending]
        rfl
      rw [show RaftNode.readView ⟨core', .leader r.1⟩ = _ from hleader, hleader]
      exact .resend core.id core.term _ pending _
    · exact .inl ⟨hother, nofun⟩
  · exact .none rfl rfl rfl

theorem step_reads (l : Leader) (core : Core) (event : Event) :
    RoleReads event ⟨core, .leader l⟩
      (⟨(l.step core event).2.1, .leader (l.step core event).1⟩, (l.step core event).2.2) := by
  cases event with
  | tick => exact l.handleTick_reads core
  | diskWriteComplete index =>
    simp only [step, handleDiskWriteComplete]
    split
    · exact afterCommit_reads core rfl
    · exact .none rfl rfl rfl
  | message msg =>
    simp only [step, handleMessage]
    split
    · exact .other rfl (.one rfl) rfl
    · split
      · exact .adopt rfl
      · split
        · exact .other rfl (core.rejectStale_unread msg) rfl
        · exact l.dispatch_reads (by omega)

end Leader

/-! ## Calls -/

theorem Candidate.new_reads (core : Core) : (Candidate.new core).2.1.id = core.id ∧
    (Candidate.new core).2.1.term = core.term + 1 ∧ (Candidate.new core).2.2.Unread := by
  unfold new
  dsimp only
  split
  · exact ⟨rfl, rfl, .empty⟩
  · refine ⟨rfl, rfl, Effects.Unread.empty.withPersist.withMessages fun m hm => ?_⟩
    obtain ⟨peer, -, rfl⟩ := List.mem_map.1 hm
    rfl

theorem PreCandidate.new_reads (core : Core) : (PreCandidate.new core).2.1.id = core.id ∧
    (PreCandidate.new core).2.1.term = core.term ∧ (PreCandidate.new core).2.2.Unread := by
  unfold new
  dsimp only
  split
  · exact ⟨rfl, rfl, .empty⟩
  · refine ⟨rfl, rfl, Effects.Unread.empty.withMessages fun m hm => ?_⟩
    obtain ⟨peer, -, rfl⟩ := List.mem_map.1 hm
    rfl

theorem Leader.recordOwnMatch_reads (l : Leader) (core : Core) (index : ℕ) :
    (l.recordOwnMatch core index).reads = l.reads := by
  unfold recordOwnMatch
  split <;> rfl

namespace RaftNode

variable {d : Option Message}

theorem becomeLeader_reads (core : Core) {effects : Effects} (h : effects.Unread) :
    Trace (ReadAction d) ⟨core.id, core.term, .candidate⟩ (becomeLeader core effects).1.readView
      (becomeLeader core effects).2.messages := by
  obtain ⟨hreads, hunread⟩ := (Leader.initial core).broadcastAppend_unread core
  have hview : (becomeLeader core effects).1.readView = ⟨core.id, core.term, .leader 1 none 0⟩ := by
    simp only [becomeLeader, readView, RoleState.reads, Leader.new, hreads]
    rfl
  rw [hview]
  exact (Trace.single (.win core.id core.term)).emit (.other _ _ (h.merge hunread))

theorem becomeCandidate_reads (core : Core) (role : ReadRole) {effects : Effects}
    (h : effects.Unread) : Trace (ReadAction d) ⟨core.id, core.term, role⟩
      (becomeCandidate core effects).1.readView (becomeCandidate core effects).2.messages := by
  obtain ⟨hid, hterm, hunread⟩ := Candidate.new_reads core
  have hcampaign : Trace (ReadAction d) ⟨core.id, core.term, role⟩
      ⟨(Candidate.new core).2.1.id, (Candidate.new core).2.1.term, .candidate⟩ [] := by
    rw [hid, hterm]
    exact .single (.campaign _)
  unfold becomeCandidate
  dsimp only
  split
  · exact hcampaign.trans (becomeLeader_reads _ (h.merge hunread))
  · exact hcampaign.emit (.other _ _ (h.merge hunread))

theorem applyTransition_reads (n : RaftNode) (t : Transition)
    (hlead : t = .toLeader → n.readView.role = .candidate) :
    Trace (ReadAction d) n.readView (n.applyTransition t).1.readView
      (n.applyTransition t).2.messages := by
  cases t with
  | stay => exact .refl _
  | toFollower leader => exact .single (.retire n.readView le_rfl)
  | toFollowerAfterContact leader => exact .single (.retire n.readView le_rfl)
  | toPreCandidate =>
    obtain ⟨hid, hterm, hunread⟩ := PreCandidate.new_reads n.core
    have hretire : Trace (ReadAction d) n.readView ⟨(PreCandidate.new n.core).2.1.id,
        (PreCandidate.new n.core).2.1.term, .passive⟩ [] := by
      rw [hid, hterm]
      exact .single (.retire n.readView le_rfl)
    simp only [applyTransition]
    split
    · exact hretire.trans (becomeCandidate_reads _ _ hunread)
    · exact hretire.emit (.other _ _ hunread)
  | toCandidate => exact becomeCandidate_reads n.core _ .empty
  | toLeader =>
    have hview : n.readView = ⟨n.core.id, n.core.term, .candidate⟩ := by
      rw [← hlead rfl]
      rfl
    rw [hview]
    exact becomeLeader_reads n.core .empty

theorem roleStep_reads (n : RaftNode) (event : Event) : RoleReads event n (n.roleStep event) := by
  obtain ⟨core, role⟩ := n
  cases role with
  | follower f => exact f.step_reads core event
  | preCandidate p => exact p.step_reads core event
  | candidate c => exact c.step_reads core event
  | leader l => exact l.step_reads core event

/-- **An event does read actions.** -/
theorem stepEvent_reads (n : RaftNode) (event : Event) :
    Trace (ReadAction event.delivered) n.readView (n.stepEvent event).1.readView
      (n.stepEvent event).2.messages := by
  unfold stepEvent
  rcases n.roleStep_reads event with ⟨htrace, hlead⟩ | ⟨⟨leader, htr⟩, hid, hle, hunread⟩
  · exact htrace.trans (applyTransition_reads _ _ hlead)
  · have hretire : Trace (ReadAction event.delivered) n.readView
        ⟨n.core.id, (n.roleStep event).1.core.term, .passive⟩ [] := .single (.retire n.readView hle)
    simp only [htr, applyTransition]
    rw [← hid] at hretire
    exact hretire.emit (.other _ _ (hunread.merge .empty))

theorem settle_reads (core : Core) (l : Leader) (down : Bool) :
    Trace (ReadAction d) (l.readsWith core) (settle core l down).readView [] := by
  cases down with
  | true => exact .single (.retire (l.readsWith core) le_rfl)
  | false => exact .refl _

/-- A proposal commits and announces, on a core of the same term. -/
theorem publish_reads {l l₁ : Leader} {core core₁ : Core} (hreads : l₁.reads = l.reads)
    (hid : core₁.id = core.id) (hterm : core₁.term = core.term) :
    Trace (ReadAction d) (l.readsWith core) (l₁.publish core₁).1.readView
      (l₁.publish core₁).2.messages := by
  obtain ⟨hid', hterm'⟩ := l₁.maybeCommit_identity core₁
  obtain ⟨hsame, hunread⟩ := l₁.maybeCommit_unread core₁
  obtain ⟨hsame', hunread'⟩ := (l₁.maybeCommit core₁).1.broadcastAppend_unread
    (l₁.maybeCommit core₁).2.1
  have hview : l.readsWith core = ((l₁.maybeCommit core₁).1.broadcastAppend
      (l₁.maybeCommit core₁).2.1).1.readsWith (l₁.maybeCommit core₁).2.1 := by
    rw [Leader.readsWith, Leader.readsWith, hsame', hsame, hreads, hid', hterm', hid, hterm]
  rw [hview]
  exact (settle_reads _ _ _).emit (.other _ _ (hunread'.withPersist.merge hunread))

theorem propose_reads {n n' : RaftNode} {cmd : Command} {r : Except ProposeError (ℕ × Effects)}
    (h : n.propose cmd = some (n', r)) :
    Trace (ReadAction d) n.readView n'.readView (Cluster.effectsOf r).messages := by
  cases propose_cases h with
  | refused => exact .refl _
  | accepted l core core' hcore =>
    exact publish_reads (Leader.recordOwnMatch_reads _ _ _) (by rw [hcore]; rfl)
      (by rw [hcore]; rfl)

theorem proposeConfigChange_reads {n n' : RaftNode} {change : ConfigChange}
    {r : Except ConfigChangeError (ℕ × Effects)} (h : n.proposeConfigChange change = (n', r)) :
    Trace (ReadAction d) n.readView n'.readView (Cluster.effectsOf r).messages := by
  cases proposeConfigChange_cases h with
  | refused => exact .refl _
  | accepted l core core' _ hcore =>
    exact publish_reads (Leader.recordOwnMatch_reads _ _ _) (by rw [hcore]; rfl)
      (by rw [hcore]; rfl)

theorem requestReadIndex_reads (n : RaftNode) :
    Trace (ReadAction d) n.readView n.requestReadIndex.1.readView
      (Cluster.effectsOf n.requestReadIndex.2).messages := by
  obtain ⟨core, role⟩ := n
  cases role with
  | leader l =>
    simp only [requestReadIndex, Leader.requestReadIndex]
    split
    · exact .refl _
    · next hpending =>
      have hview : (⟨core, .leader l⟩ : RaftNode).readView =
          ⟨core.id, core.term, .leader l.nextReadId none l.confirmedReadIndex⟩ := by
        rw [readView, RoleState.reads, Leader.reads, hpending]
      split
      · exact .refl _
      · rw [hview]
        split
        · simp only [readView, RoleState.reads, Leader.reads, hpending]
          exact .single (.alone core.id core.term _ _ _)
        · exact .single (.request core.id core.term _ _ _ _)
  | _ => exact .refl _

theorem transferLeadership_reads {n : RaftNode} {target : NodeId} {effects : Effects}
    (h : n.transferLeadership target = .ok effects) :
    Trace (ReadAction d) n.readView n.readView effects.messages := by
  obtain ⟨core, role⟩ := n
  cases role with
  | leader l =>
    simp only [transferLeadership, Leader.transferLeadership] at h
    split_ifs at h
    cases h
    exact .single (.other _ _ (Effects.Unread.one rfl))
  | _ => cases h

end RaftNode

def Input.delivered : Input → Option Message
  | .deliver msg => some msg
  | _ => none

/-- **What an input makes a node do is a sequence of read actions.** -/
theorem Cluster.call_reads {c : Cluster} (hsaved : ∀ id, c.saved id = (c.nodes id).persistent)
    {input : Input} {r : RaftNode × Effects} (hr : c.call input = some r) :
    Trace (ReadAction input.delivered) (c.nodes input.node).readView r.1.readView r.2.messages := by
  cases input with
  | tick id =>
    cases hr
    exact (c.nodes id).stepEvent_reads .tick
  | deliver msg =>
    simp only [call] at hr
    split_ifs at hr
    cases hr
    exact (c.nodes msg.to).stepEvent_reads (.message msg)
  | diskWriteComplete id index =>
    simp only [call] at hr
    split_ifs at hr
    cases hr
    exact (c.nodes id).stepEvent_reads (.diskWriteComplete index)
  | propose id cmd =>
    obtain ⟨⟨n, res⟩, hres, rfl⟩ := Option.map_eq_some_iff.1 hr
    exact RaftNode.propose_reads hres
  | proposeConfigChange id change =>
    cases hr
    exact RaftNode.proposeConfigChange_reads rfl
  | requestReadIndex id =>
    cases hr
    exact (c.nodes id).requestReadIndex_reads
  | transferLeadership id target =>
    simp only [call] at hr
    split at hr
    · next effects heff =>
      cases hr
      exact RaftNode.transferLeadership_reads heff
    · cases hr
      exact .refl _
  | advance id appliedTo =>
    cases hr
    exact .refl _
  | restart id =>
    cases hr
    rw [hsaved id]
    exact .single (.retire (c.nodes id).readView le_rfl)

end Cloud9
