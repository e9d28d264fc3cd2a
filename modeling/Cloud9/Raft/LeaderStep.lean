import Cloud9.Raft.Commit
import Cloud9.Raft.NodeCalls

/-!
# What an event does to a leader

Many branches of `Leader.step` come to the same: the leader talks and keeps its progress. The others
change the progress of one node and then send or commit. `Leader.Stepped` lists them, so that a
property of the leader's step is proved by one look at each.
-/

namespace Cloud9

namespace Leader

/-- The ways a leader's step can go. -/
inductive Stepped (l : Leader) (core : Core) : Event → Leader × Core × StepResult → Prop
  /-- Refusals, pre-votes and reads. -/
  | quiet (event : Event) (l' : Leader) (ticks : ℕ) (e : Effects)
      (hnext : l'.nextIndex = l.nextIndex) (hmatch : l'.matchIndex = l.matchIndex)
      (he : ∀ m ∈ e.messages, m.payload.isNoise = true) :
    Stepped l core event (l', { core with ticks := ticks }, .stay e)
  | heartbeat (l' : Leader) (ticks : ℕ) (e : Effects)
      (hnext : l'.nextIndex = l.nextIndex) (hmatch : l'.matchIndex = l.matchIndex)
      (he : ∀ m ∈ e.messages, m.payload.isNoise = true) :
    Stepped l core .tick ((l'.broadcastAppend { core with ticks := ticks }).1,
      { core with ticks := ticks },
      .stay ((l'.broadcastAppend { core with ticks := ticks }).2.merge e))
  | adopt (msg : Message) (leader : Option NodeId) (hterm : core.term < msg.term) :
    Stepped l core (.message msg)
      (l, (core.maybeUpdateTerm msg.term).2, .toFollower leader Effects.none.withPersist)
  | disk (index : ℕ) (h : l.matchIndex.index core.id < index) :
    Stepped l core (.diskWriteComplete index)
      (afterCommit ({ l with matchIndex := l.matchIndex.insert core.id index }.maybeCommit core))
  | acked (msg : Message) (resp : AppendResponse) (hterm : msg.term = core.term)
      (hp : msg.payload = .appendResponse resp)
      (hmember : core.effectiveConfig.isMember msg.from = true) (hsuccess : resp.success = true) :
    Stepped l core (.message msg) (afterCommit ({ l with
      matchIndex := l.matchIndex.insert msg.from resp.lastLogIndex
      nextIndex := if core.config.pipelining then l.nextIndex
        else l.nextIndex.insert msg.from (resp.lastLogIndex + 1) }.maybeCommit core))
  | retried (msg : Message) (resp : AppendResponse) (l' : Leader) (hterm : msg.term = core.term)
      (hp : msg.payload = .appendResponse resp)
      (hmember : core.effectiveConfig.isMember msg.from = true) (hfail : resp.success = false)
      (hl' : l' = { l with
        nextIndex := l.nextIndex.insert msg.from (l.retryIndex core msg.from resp) }) :
    Stepped l core (.message msg)
      ((l'.sendAppendTo core msg.from).1, core, .stay (l'.sendAppendTo core msg.from).2)
  | installed (msg : Message) (resp : InstallSnapshotResponse) (hterm : msg.term = core.term)
      (hp : msg.payload = .installSnapshotResponse resp)
      (hmember : core.effectiveConfig.isMember msg.from = true) (hsuccess : resp.success = true)
      (hnew : l.matchIndex.index msg.from < resp.lastIncludedIndex) :
    Stepped l core (.message msg) (afterCommit ({ l with
      matchIndex := l.matchIndex.insert msg.from resp.lastIncludedIndex
      nextIndex := l.nextIndex.insert msg.from (resp.lastIncludedIndex + 1) }.maybeCommit core))

theorem Stepped.talk {l : Leader} {core : Core} {event : Event} {e : Effects}
    (he : ∀ m ∈ e.messages, m.payload.isNoise = true) :
    Stepped l core event (l, core, .stay e) :=
  .quiet event l core.ticks e rfl rfl he

theorem handleReadIndexResponse_progress (l : Leader) (sender : NodeId) (resp : ReadIndexResponse) :
    (l.handleReadIndexResponse sender resp).nextIndex = l.nextIndex ∧
      (l.handleReadIndexResponse sender resp).matchIndex = l.matchIndex := by
  unfold handleReadIndexResponse
  split
  · exact ⟨rfl, rfl⟩
  · dsimp only
    split_ifs <;> exact ⟨rfl, rfl⟩

theorem dispatch_stepped (l : Leader) (core : Core) {msg : Message} (hterm : msg.term = core.term) :
    Stepped l core (.message msg) (l.dispatch core msg) := by
  unfold dispatch
  split
  · next resp hp =>
    unfold handleAppendResponse
    split
    · exact .talk Effects.noise_none
    · next hmember =>
      have hmember : core.effectiveConfig.isMember msg.from = true := by simpa using hmember
      split
      · next hsuccess => exact .acked msg resp hterm hp hmember hsuccess
      · next hfail =>
        exact .retried msg resp _ hterm hp hmember (by simpa using hfail) rfl
  · next resp hp =>
    unfold handleInstallSnapshotResponse
    split
    · exact .talk Effects.noise_none
    · next hok =>
      simp only [Bool.or_eq_true, Bool.not_eq_true', not_or, Bool.not_eq_false] at hok
      split
      · exact .talk Effects.noise_none
      · next hnew => exact .installed msg resp hterm hp hok.2 hok.1 (Nat.lt_of_not_le hnew)
  · next resp hp =>
    obtain ⟨hnext, hmatch⟩ := l.handleReadIndexResponse_progress msg.from resp
    exact .quiet _ _ core.ticks _ hnext hmatch Effects.noise_none
  · exact .talk (Effects.noise_withMessage rfl)
  · exact .talk Effects.noise_none

/-- **The step of a leader.** -/
theorem step_stepped (l : Leader) (core : Core) (event : Event) :
    Stepped l core event (l.step core event) := by
  cases event with
  | tick =>
    simp only [step, handleTick]
    split
    · split
      · exact .heartbeat { l with heartbeatDeadline := _ } _ _ rfl rfl (readIndexRequests_noise _ _)
      · have h : Stepped l core .tick _ := .heartbeat { l with heartbeatDeadline :=
          core.ticks + 1 + core.config.heartbeatInterval } (core.ticks + 1) Effects.none rfl rfl
          Effects.noise_none
        rwa [Effects.merge_none] at h
    · exact .quiet _ l _ _ rfl rfl Effects.noise_none
  | diskWriteComplete index =>
    simp only [step, handleDiskWriteComplete]
    split
    · next h => exact .disk index h
    · exact .talk Effects.noise_none
  | message msg =>
    simp only [step, handleMessage]
    split
    · exact .talk (Effects.noise_withMessage rfl)
    · split
      · next hterm => exact .adopt msg _ hterm
      · next hle =>
        split
        · exact .talk (core.rejectStale_noise msg)
        · next hge => exact l.dispatch_stepped core (by omega)

end Leader

end Cloud9
