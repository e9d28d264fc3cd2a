import Cloud9.Raft.Broadcast
import Cloud9.Raft.Intact
import Cloud9.Raft.LeaderCompleteness
import Cloud9.Raft.SendWindow

/-!
# Whom a node talks to

A node without snapshot whose log holds only commands sends its messages to the other members of the
configuration it was started with, and to the sender of the message it handles, and asks for no
snapshot to be sent (`RaftNode.stepEvent_within`, `RaftNode.propose_within`).

A leader would ask for a snapshot if a `next_index` were 0, so `Leader.Onward` keeps them positive.
-/

namespace Cloud9

/-! ## Effects that stay within a set of nodes -/

/-- Messages go to nodes of `p` only, and there are no snapshots. -/
structure Effects.Within (p : NodeId → Prop) (e : Effects) : Prop where
  messages : e.All fun m => p m.to
  snapshots : e.sendSnapshots = []

namespace Effects.Within

variable {p q : NodeId → Prop} {e e' : Effects}

theorem empty : Effects.none.Within p := ⟨.empty, rfl⟩

theorem persist (h : e.Within p) : e.withPersist.Within p := ⟨h.messages, h.snapshots⟩

theorem withMessages (h : e.Within p) {ms : List Message} (hms : ∀ m ∈ ms, p m.to) :
    (e.withMessages ms).Within p :=
  ⟨h.messages.withMessages hms, h.snapshots⟩

theorem withMessage (h : e.Within p) {m : Message} (hm : p m.to) : (e.withMessage m).Within p :=
  ⟨h.messages.withMessage hm, h.snapshots⟩

theorem one {m : Message} (hm : p m.to) : (Effects.none.withMessage m).Within p :=
  empty.withMessage hm

theorem merge (h : e.Within p) (h' : e'.Within p) : (e.merge e').Within p :=
  ⟨h.messages.merge h'.messages, by simp [Effects.merge, h.snapshots, h'.snapshots]⟩

theorem mono (h : e.Within p) (hpq : ∀ id, p id → q id) : e.Within q :=
  ⟨fun m hm => hpq _ (h.messages m hm), h.snapshots⟩

end Effects.Within

/-! ## Logs of commands -/

/-- The node has no snapshot and no configuration but the one it was started with. -/
structure Core.Fixed (boot : Configuration) (core : Core) : Prop where
  plain : core.log.Plain
  commands : ∀ e ∈ core.log.entries, ∀ cfg, e.payload ≠ .config cfg
  boot : core.persistent.bootstrapConfig = boot

namespace Core.Fixed

variable {boot : Configuration} {core core' : Core}

theorem effectiveConfig (h : core.Fixed boot) : core.effectiveConfig = boot := by
  rw [Core.effectiveConfig_eq h.plain, h.boot]
  exact configOf_of_commands h.commands

theorem of_alike (h : core'.Fixed boot) (ha : core.Alike core') : core.Fixed boot :=
  ⟨ha.log ▸ h.plain, ha.log ▸ h.commands, ha.boot.symm.trans h.boot⟩

theorem appendCommand (h : core.Fixed boot) (cmd : Command) :
    (Leader.appendEntry core (.command cmd)).Fixed boot := by
  refine ⟨h.plain.append (by rw [← h.plain.lastIndex]), fun e he cfg => ?_, h.boot⟩
  rcases List.mem_append.1 he with hold | hnew
  · exact h.commands e hold cfg
  · rw [List.mem_singleton.1 hnew]
    exact EntryPayload.noConfusion

theorem not_config (h : core.Fixed boot) (idx : ℕ) :
    ((core.log.get idx).bind fun e => e.payload.asConfig) = none := by
  refine Option.bind_eq_none_iff.2 fun e he => ?_
  have hmem : e ∈ core.log.entries := by
    rw [h.plain.get, Log.entryAt] at he
    split_ifs at he
    exact List.mem_of_getElem? he
  cases hp : e.payload with
  | command cmd => rfl
  | config cfg => exact absurd hp (h.commands e hmem cfg)

end Core.Fixed

/-- Where membership is fixed, logs hold commands only. -/
theorem Setting.Tracks.fixed {P : Setting} {w : History} {c : Cluster} (h : P.Tracks w c)
    (hchange : ¬P.change) (id : NodeId) : (c.nodes id).core.Fixed P.boot := by
  refine ⟨h.plain id, fun e he cfg hcfg => hchange ?_, (h.node id).boot⟩
  rw [show (c.nodes id).core.log.entries = w.log id from (h.node id).log] at he
  exact (h.sim.logs.simple (Setting.mem_tlog (h.sim.inv.log_rooted id) he) hcfg).2

/-! ## Answers -/

/-- The sender of the message that is handled. -/
def Event.Sender (event : Event) (id : NodeId) : Prop := ∃ msg, event = .message msg ∧ id = msg.from

theorem Core.denyVote_within (core : Core) (msg : Message) :
    (core.denyVote msg).Within (Event.message msg).Sender := by
  unfold denyVote
  split
  · exact .one ⟨msg, rfl, rfl⟩
  · exact .one ⟨msg, rfl, rfl⟩
  · exact .empty

theorem Core.rejectStale_within (core : Core) (msg : Message) :
    (core.rejectStale msg).Within (Event.message msg).Sender := by
  unfold rejectStale
  split
  · exact .one ⟨msg, rfl, rfl⟩
  · exact .one ⟨msg, rfl, rfl⟩
  · exact .empty

theorem Follower.dispatch_within (f : Follower) (core : Core) (msg : Message) :
    (f.dispatch core msg).2.2.effects.Within (Event.message msg).Sender := by
  have hself : (Event.message msg).Sender msg.from := ⟨msg, rfl, rfl⟩
  unfold dispatch
  split
  · unfold handleVoteRequest
    dsimp only
    split
    · exact Effects.Within.empty.persist.withMessage hself
    · exact .one hself
  · unfold handleAppendRequest
    dsimp only
    split
    · split
      · exact Effects.Within.empty.persist.withMessage hself
      · exact .one hself
    · exact .one hself
  · exact .one hself
  · unfold handleInstallSnapshot
    dsimp only
    split_ifs
    · exact .one hself
    · exact .one hself
    · exact Effects.Within.empty.persist.withMessage hself
  · exact .empty
  · exact .empty

theorem Follower.step_within (f : Follower) (core : Core) (event : Event) :
    (f.step core event).2.2.effects.Within event.Sender := by
  cases event with
  | tick =>
    simp only [step, handleTick]
    split_ifs <;> exact .empty
  | diskWriteComplete index => exact .empty
  | message msg =>
    simp only [step, handleMessage]
    split
    · exact core.denyVote_within msg
    · split
      · exact .one ⟨msg, rfl, rfl⟩
      · split
        · unfold rejectStale
          split
          · exact .one ⟨msg, rfl, rfl⟩
          · exact Core.rejectStale_within _ msg
        · have h := (f.adoptTerm core msg).2.1.dispatch_within (f.adoptTerm core msg).2.2 msg
          split
          · exact h.persist
          · exact h

theorem PreCandidate.step_within (p : PreCandidate) (core : Core) (event : Event) :
    (p.step core event).2.2.effects.Within event.Sender := by
  cases event with
  | tick =>
    simp only [step, handleTick]
    split_ifs <;> exact .empty
  | diskWriteComplete index => exact .empty
  | message msg =>
    simp only [step, handleMessage]
    split
    · exact core.denyVote_within msg
    · split
      · exact Effects.Within.empty.persist
      · unfold dispatch
        split
        · unfold handlePrevoteResponse
          dsimp only
          split_ifs
          · exact Effects.Within.empty.persist
          all_goals exact .empty
        · exact .empty
        · exact .one ⟨msg, rfl, rfl⟩
        · exact .one ⟨msg, rfl, rfl⟩
        · exact .empty
        · exact .empty

theorem Candidate.step_within (c : Candidate) (core : Core) (event : Event) :
    (c.step core event).2.2.effects.Within event.Sender := by
  cases event with
  | tick =>
    simp only [step, handleTick]
    split_ifs <;> exact .empty
  | diskWriteComplete index => exact .empty
  | message msg =>
    simp only [step, handleMessage]
    split
    · exact core.denyVote_within msg
    · split
      · exact .one ⟨msg, rfl, rfl⟩
      · split
        · exact Effects.Within.empty.persist
        · split
          · exact core.rejectStale_within msg
          · unfold dispatch
            split
            · unfold handleVoteResponse
              dsimp only
              split_ifs <;> exact .empty
            · exact .empty
            · exact .one ⟨msg, rfl, rfl⟩
            · exact .empty
            · exact .empty

/-! ## Leaders -/

namespace Leader

variable {boot : Configuration} {l l' : Leader} {core : Core}

/-- Sending never starts before the log, and a read asks the voters of the configuration. -/
structure Onward (boot : Configuration) (l : Leader) : Prop where
  next : ∀ peer, 0 < (l.nextIndex peer).getD 1
  reads : ∀ pending, l.pendingReadIndex = some pending → pending.configuration = boot

theorem Onward.insert (h : l.Onward boot) (peer : NodeId) {next : ℕ} (hnext : 0 < next)
    (hmap : l'.nextIndex = l.nextIndex.insert peer next)
    (hreads : l'.pendingReadIndex = l.pendingReadIndex) : l'.Onward boot := by
  refine ⟨fun peer' => ?_, fun pending hp => h.reads pending (hreads ▸ hp)⟩
  rw [hmap, IndexMap.insert]
  rcases eq_or_ne peer' peer with rfl | hne
  · rw [Function.update_self]
    exact hnext
  · rw [Function.update_of_ne hne]
    exact h.next peer'

theorem Onward.of_same (h : l.Onward boot) (hmap : l'.nextIndex = l.nextIndex)
    (hreads : l'.pendingReadIndex = l.pendingReadIndex) : l'.Onward boot :=
  ⟨fun peer => by rw [hmap]; exact h.next peer, fun pending hp => h.reads pending (hreads ▸ hp)⟩

theorem sendAppendTo_pendingReadIndex (l : Leader) (core : Core) (peer : NodeId) :
    (l.sendAppendTo core peer).1.pendingReadIndex = l.pendingReadIndex := by
  unfold sendAppendTo
  dsimp only
  split_ifs <;> rfl

/-- One append request, to the peer. -/
theorem Onward.sendAppendTo (h : l.Onward boot) (hfixed : core.Fixed boot) (peer : NodeId) :
    (l.sendAppendTo core peer).1.Onward boot ∧
      (l.sendAppendTo core peer).2.Within (· = peer) := by
  have hsnap : core.log.snapshotIndex < (l.nextIndex peer).getD 1 := by
    rw [hfixed.plain.snapshotIndex]
    exact h.next peer
  constructor
  · rcases l.sendAppendTo_nextIndex_cases core peer with hsame | ⟨-, e, -, hnext⟩
    · exact h.of_same hsame (l.sendAppendTo_pendingReadIndex core peer)
    · exact h.insert peer (Nat.succ_pos e.index) hnext (l.sendAppendTo_pendingReadIndex core peer)
  · rw [l.sendAppendTo_effects peer rfl hsnap]
    exact .one rfl

/-- A broadcast goes to the other members. -/
theorem Onward.broadcastAppend (h : l.Onward boot) (hfixed : core.Fixed boot) :
    (l.broadcastAppend core).1.Onward boot ∧
      (l.broadcastAppend core).2.Within (· ∈ boot.replicationPeers core.id) := by
  unfold Leader.broadcastAppend
  rw [hfixed.effectiveConfig]
  refine List.foldlRecOn (motive := fun r : Leader × Effects => r.1.Onward boot ∧
    r.2.Within (· ∈ boot.replicationPeers core.id)) _ _ ⟨h, .empty⟩ fun r hr peer hpeer => ?_
  obtain ⟨honward, hwithin⟩ := hr.1.sendAppendTo hfixed peer
  exact ⟨honward, hr.2.merge (hwithin.mono fun id hid => hid ▸ hpeer)⟩

theorem initial_onward (boot : Configuration) (core : Core) : (initial core).Onward boot := by
  refine ⟨fun peer => ?_, fun pending hp => by cases hp⟩
  refine List.foldlRecOn (motive := fun m : IndexMap => 0 < (m peer).getD 1) _ _ Nat.one_pos
    fun m hm id _ => ?_
  unfold IndexMap.insert
  rcases eq_or_ne peer id with rfl | hne
  · rw [Function.update_self]
    exact Nat.succ_pos _
  · rw [Function.update_of_ne hne]
    exact hm

theorem advanceCommitIndex_fixed (l : Leader) (hfixed : core.Fixed boot) :
    (l.advanceCommitIndex core).Fixed boot := by
  unfold advanceCommitIndex
  split
  · exact ⟨hfixed.plain, hfixed.commands, hfixed.boot⟩
  · exact hfixed

theorem advanceCommitIndex_id (l : Leader) (core : Core) :
    (l.advanceCommitIndex core).id = core.id := by
  unfold advanceCommitIndex
  split <;> rfl

/-- Without configurations in the log, only the commit index moves. -/
theorem maybeCommit_of_fixed (l : Leader) (hfixed : core.Fixed boot) :
    l.maybeCommit core = (l, l.advanceCommitIndex core, Effects.none, false) := by
  have hprocess : ∀ (core : Core), core.Fixed boot → ∀ idxs : List ℕ,
      l.processConfigs core idxs = (l, core, .done) := by
    intro core hfixed idxs
    induction idxs with
    | nil => rfl
    | cons idx rest ih =>
      rw [processConfigs, hfixed.not_config idx]
      exact ih
  unfold maybeCommit maybeCommitLoop
  dsimp only
  split_ifs
  · rfl
  · rw [processCommittedConfigs, hprocess _ (l.advanceCommitIndex_fixed hfixed)]

end Leader

theorem Configuration.mem_replicationPeers_of_voterPeers {c : Configuration} {me id : NodeId}
    (h : id ∈ c.voterPeers me) : id ∈ c.replicationPeers me := by
  simp only [voterPeers, replicationPeers, allNodes, List.filter_append, List.mem_append] at h ⊢
  exact .inl h

/-- The other members of the configuration, and the sender of the message that is handled. -/
def Event.Reach (boot : Configuration) (me : NodeId) (event : Event) (id : NodeId) : Prop :=
  id ∈ boot.replicationPeers me ∨ event.Sender id

namespace Leader

variable {boot : Configuration} {l : Leader} {core : Core}

theorem Onward.readIndexRequests (h : l.Onward boot) {pending : PendingReadIndex}
    (hp : l.pendingReadIndex = some pending) :
    (readIndexRequests core pending).Within (· ∈ boot.replicationPeers core.id) := by
  refine Effects.Within.empty.withMessages fun m hm => ?_
  obtain ⟨peer, hpeer, rfl⟩ := List.mem_map.1 hm
  rw [h.reads pending hp] at hpeer
  exact Configuration.mem_replicationPeers_of_voterPeers hpeer

theorem Onward.handleReadIndexResponse (h : l.Onward boot) (sender : NodeId)
    (resp : ReadIndexResponse) : (l.handleReadIndexResponse sender resp).Onward boot := by
  unfold Leader.handleReadIndexResponse
  split
  · exact h
  · next pending hp =>
    dsimp only
    split_ifs
    · exact h
    · exact h
    · exact ⟨h.next, fun _ hnone => by cases hnone⟩
    · refine ⟨h.next, fun pending' hsome => ?_⟩
      cases hsome
      exact h.reads pending hp

theorem afterCommit_within (hfixed : core.Fixed boot) (h : l.Onward boot) {p : NodeId → Prop} :
    (afterCommit (l.maybeCommit core)).1.Onward boot ∧
      (afterCommit (l.maybeCommit core)).2.2.effects.Within p := by
  rw [l.maybeCommit_of_fixed hfixed]
  exact ⟨h, .empty⟩

theorem Onward.dispatch (h : l.Onward boot) (hfixed : core.Fixed boot) (msg : Message) :
    (l.dispatch core msg).1.Onward boot ∧
      (l.dispatch core msg).2.2.effects.Within (Event.message msg).Sender := by
  have hself : (Event.message msg).Sender msg.from := ⟨msg, rfl, rfl⟩
  unfold Leader.dispatch
  split
  · next resp _ =>
    unfold handleAppendResponse
    split
    · exact ⟨h, .empty⟩
    · split
      · refine afterCommit_within hfixed ?_
        by_cases hpipe : core.config.pipelining
        · exact h.of_same (by simp [hpipe]) rfl
        · exact h.insert msg.from (Nat.succ_pos resp.lastLogIndex) (by simp [hpipe]) rfl
      · have hpos : 0 < l.retryIndex core msg.from resp := by
          unfold retryIndex
          dsimp only
          split_ifs <;> omega
        have hretry : Onward boot { l with
            nextIndex := l.nextIndex.insert msg.from (l.retryIndex core msg.from resp) } :=
          h.insert msg.from hpos rfl rfl
        obtain ⟨honward, hwithin⟩ := hretry.sendAppendTo hfixed msg.from
        exact ⟨honward, hwithin.mono fun id hid => hid ▸ hself⟩
  · next resp _ =>
    unfold handleInstallSnapshotResponse
    split_ifs
    · exact ⟨h, .empty⟩
    · exact ⟨h, .empty⟩
    · refine afterCommit_within hfixed ?_
      exact h.insert msg.from (Nat.succ_pos resp.lastIncludedIndex) rfl rfl
  · exact ⟨h.handleReadIndexResponse msg.from _, .empty⟩
  · exact ⟨h, .one hself⟩
  · exact ⟨h, .empty⟩

theorem Onward.step (h : l.Onward boot) (hfixed : core.Fixed boot) (event : Event) :
    (l.step core event).1.Onward boot ∧
      (l.step core event).2.2.effects.Within (event.Reach boot core.id) := by
  cases event with
  | tick =>
    simp only [Leader.step, handleTick]
    split
    · have hticks : Onward boot { l with
          heartbeatDeadline := core.ticks + 1 + core.config.heartbeatInterval } := h.of_same rfl rfl
      have hfixed' : Core.Fixed boot { core with ticks := core.ticks + 1 } :=
        ⟨hfixed.plain, hfixed.commands, hfixed.boot⟩
      obtain ⟨honward, hwithin⟩ := hticks.broadcastAppend hfixed'
      have hwithin' := hwithin.mono (q := Event.tick.Reach boot core.id) fun id hid => .inl hid
      split
      · next pending hp =>
        exact ⟨honward, hwithin'.merge ((honward.readIndexRequests hp).mono fun id hid => .inl hid)⟩
      · exact ⟨honward, hwithin'⟩
    · exact ⟨h, .empty⟩
  | diskWriteComplete index =>
    simp only [Leader.step, handleDiskWriteComplete]
    split
    · refine afterCommit_within hfixed ?_
      exact h.of_same rfl rfl
    · exact ⟨h, .empty⟩
  | message msg =>
    have hsender : ∀ id, (Event.message msg).Sender id →
        (Event.message msg).Reach boot core.id id := fun id hid => .inr hid
    simp only [Leader.step, handleMessage]
    split
    · exact ⟨h, .one (.inr ⟨msg, rfl, rfl⟩)⟩
    · split
      · exact ⟨h, Effects.Within.empty.persist⟩
      · split
        · exact ⟨h, (core.rejectStale_within msg).mono hsender⟩
        · obtain ⟨honward, hwithin⟩ := h.dispatch hfixed msg
          exact ⟨honward, hwithin.mono hsender⟩

end Leader

/-! ## Nodes -/

namespace RaftNode

variable {boot : Configuration} {n n' : RaftNode}

/-- If the node leads, it can send. -/
def Onward (boot : Configuration) (n : RaftNode) : Prop :=
  ∀ l, n.role = .leader l → l.Onward boot

theorem onward_of_not_leader (h : n.isLeader = false) : n.Onward boot := by
  intro l hl
  rw [isLeader, hl] at h
  cases h

theorem onward_leader {core : Core} {l : Leader} (h : l.Onward boot) :
    Onward boot ⟨core, .leader l⟩ := by
  intro l' hl'
  cases hl'
  exact h

theorem becomeLeader_within {core : Core} (hfixed : core.Fixed boot) {effects : Effects}
    (h : effects.Within (· ∈ boot.replicationPeers core.id)) :
    (becomeLeader core effects).1.Onward boot ∧
      (becomeLeader core effects).2.Within (· ∈ boot.replicationPeers core.id) := by
  obtain ⟨honward, hwithin⟩ := (Leader.initial_onward boot core).broadcastAppend hfixed
  exact ⟨onward_leader honward, h.merge hwithin⟩

theorem becomeCandidate_within {core : Core} (hfixed : core.Fixed boot) {effects : Effects}
    (h : effects.Within (· ∈ boot.replicationPeers core.id)) :
    (becomeCandidate core effects).1.Onward boot ∧
      (becomeCandidate core effects).2.Within (· ∈ boot.replicationPeers core.id) := by
  have hfixed' : (Candidate.new core).2.1.Fixed boot := by
    unfold Candidate.new
    dsimp only
    split_ifs <;> exact ⟨hfixed.plain, hfixed.commands, hfixed.boot⟩
  have hid : (Candidate.new core).2.1.id = core.id := by
    unfold Candidate.new
    dsimp only
    split_ifs <;> rfl
  have hnew : (Candidate.new core).2.2.Within (· ∈ boot.replicationPeers core.id) := by
    have hstart : core.startElection.randomElectionTimeout.2.effectiveConfig = boot :=
      Core.Fixed.effectiveConfig ⟨hfixed.plain, hfixed.commands, hfixed.boot⟩
    unfold Candidate.new
    dsimp only
    rw [hstart]
    split
    · exact Effects.Within.empty.persist
    · refine Effects.Within.empty.persist.withMessages fun m hm => ?_
      obtain ⟨peer, hpeer, rfl⟩ := List.mem_map.1 hm
      exact Configuration.mem_replicationPeers_of_voterPeers hpeer
  unfold becomeCandidate
  dsimp only
  split_ifs
  · rw [← hid] at h hnew ⊢
    exact becomeLeader_within hfixed' (h.merge hnew)
  · exact ⟨onward_of_not_leader rfl, h.merge hnew⟩

/-- A transition addresses the other members. -/
theorem applyTransition_within (hfixed : n.core.Fixed boot) (t : Transition)
    (h : t = .stay → n.Onward boot) : (n.applyTransition t).1.Onward boot ∧
      (n.applyTransition t).2.Within (· ∈ boot.replicationPeers n.core.id) := by
  cases t with
  | stay => exact ⟨h rfl, .empty⟩
  | toFollower leader => exact ⟨onward_of_not_leader rfl, .empty⟩
  | toFollowerAfterContact leader => exact ⟨onward_of_not_leader rfl, .empty⟩
  | toPreCandidate =>
    have hfixed' : (PreCandidate.new n.core).2.1.Fixed boot := by
      unfold PreCandidate.new
      dsimp only
      split_ifs <;> exact ⟨hfixed.plain, hfixed.commands, hfixed.boot⟩
    have hid : (PreCandidate.new n.core).2.1.id = n.core.id := by
      unfold PreCandidate.new
      dsimp only
      split_ifs <;> rfl
    have hnew : (PreCandidate.new n.core).2.2.Within (· ∈ boot.replicationPeers n.core.id) := by
      have hsame : n.core.randomElectionTimeout.2.effectiveConfig = boot :=
        Core.Fixed.effectiveConfig ⟨hfixed.plain, hfixed.commands, hfixed.boot⟩
      unfold PreCandidate.new
      dsimp only
      rw [hsame]
      split
      · exact .empty
      · refine Effects.Within.empty.withMessages fun m hm => ?_
        obtain ⟨peer, hpeer, rfl⟩ := List.mem_map.1 hm
        exact Configuration.mem_replicationPeers_of_voterPeers hpeer
    simp only [applyTransition]
    split_ifs
    · rw [← hid] at hnew ⊢
      exact becomeCandidate_within hfixed' hnew
    · exact ⟨onward_of_not_leader rfl, hnew⟩
  | toCandidate => exact becomeCandidate_within hfixed .empty
  | toLeader => exact becomeLeader_within hfixed .empty

theorem roleStep_within (hfixed : n.core.Fixed boot) (h : n.Onward boot) (event : Event) :
    (n.roleStep event).1.Onward boot ∧
      (n.roleStep event).2.effects.Within (event.Reach boot n.core.id) := by
  have hsender : ∀ id, event.Sender id → event.Reach boot n.core.id id := fun id hid => .inr hid
  obtain ⟨core, role⟩ := n
  cases role with
  | follower f => exact ⟨onward_of_not_leader rfl, (f.step_within core event).mono hsender⟩
  | preCandidate p => exact ⟨onward_of_not_leader rfl, (p.step_within core event).mono hsender⟩
  | candidate c => exact ⟨onward_of_not_leader rfl, (c.step_within core event).mono hsender⟩
  | leader l =>
    obtain ⟨honward, hwithin⟩ := (h l rfl).step hfixed event
    exact ⟨onward_leader honward, hwithin⟩

/-- **An event**: the node answers the sender, or talks to the other members. -/
theorem stepEvent_within (hfixed : n.core.Fixed boot) (h : n.Onward boot) {event : Event}
    (hfixed' : (n.stepEvent event).1.core.Fixed boot) : (n.stepEvent event).1.Onward boot ∧
      (n.stepEvent event).2.Within (event.Reach boot n.core.id) := by
  obtain ⟨honward, hwithin⟩ := roleStep_within hfixed h event
  have halike := (applyTransition_steady (n.roleStep event).1
    (n.roleStep event).2.transition).toAlike
  have hrole : (n.roleStep event).1.core.Fixed boot := hfixed'.of_alike halike
  have hid : (n.roleStep event).1.core.id = n.core.id :=
    congrArg Config.id (halike.config.symm.trans (n.stepEvent_config event))
  obtain ⟨honward', hwithin'⟩ := applyTransition_within hrole (n.roleStep event).2.transition
    fun _ => honward
  rw [hid] at hwithin'
  exact ⟨honward', hwithin.merge (hwithin'.mono fun id hid => .inl hid)⟩

/-- The leader announces what it has appended. -/
theorem publish_within {l : Leader} {core : Core} (hfixed : core.Fixed boot) (h : l.Onward boot) :
    (l.publish core).1.Onward boot ∧
      (l.publish core).2.Within (· ∈ boot.replicationPeers core.id) := by
  obtain ⟨honward, hwithin⟩ := h.broadcastAppend (l.advanceCommitIndex_fixed hfixed)
  rw [l.advanceCommitIndex_id core] at hwithin
  simp only [Leader.publish, l.maybeCommit_of_fixed hfixed, Effects.merge_none]
  exact ⟨onward_leader honward, hwithin.persist⟩

/-- **A proposal**: the leader talks to the other members. -/
theorem propose_within (hfixed : n.core.Fixed boot) (h : n.Onward boot) {cmd : Command}
    {r : Except ProposeError (ℕ × Effects)} (hp : n.propose cmd = some (n', r)) :
    n'.Onward boot ∧ ∀ {index effects}, r = .ok (index, effects) →
      effects.Within (· ∈ boot.replicationPeers n.core.id) := by
  cases propose_cases hp with
  | refused e => exact ⟨h, fun hr => by cases hr⟩
  | accepted l core core' hcore =>
    have hfixed' : core'.Fixed boot := hcore ▸ hfixed.appendCommand cmd
    have hid : core'.id = core.id := by rw [hcore]; rfl
    have honward : (l.recordOwnMatch core' (core.log.lastIndex + 1)).Onward boot := by
      unfold Leader.recordOwnMatch
      split_ifs
      · exact h l rfl
      · exact (h l rfl).of_same rfl rfl
    obtain ⟨honward', hwithin⟩ := publish_within hfixed' honward
    rw [hid] at hwithin
    refine ⟨honward', fun hr => ?_⟩
    cases hr
    exact hwithin

end RaftNode

end Cloud9
