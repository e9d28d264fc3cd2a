import Cloud9.Raft.ReadAction

/-!
# Who sends a leader's messages

Append requests, read-index requests and snapshots come from leaders. The receiver of one takes its
sender for the leader of the message's term without asking, so it matters that nobody else sends
them: every such message that a call emits has the name and the term of the leader the call was made
on, or of the leader that it has made of the node (`Cluster.call_speaks`).
-/

namespace Cloud9

/-- The messages that only a leader sends. -/
def Payload.isLeaders : Payload → Bool
  | .appendRequest _ | .readIndexRequest _ | .installSnapshotRequest _ => true
  | _ => false

/-! ## Roles -/

/-- A message that does not claim to come from a leader. -/
def Message.Plain (m : Message) : Prop := m.payload.isLeaders = false

theorem Core.denyVote_plain (core : Core) (msg : Message) :
    (core.denyVote msg).All Message.Plain := by
  unfold denyVote
  split
  · exact .one rfl
  · exact .one rfl
  · exact .empty

theorem Core.rejectStale_plain (core : Core) (msg : Message) :
    (core.rejectStale msg).All Message.Plain := by
  unfold rejectStale
  split
  · exact .one rfl
  · exact .one rfl
  · exact .empty

theorem Follower.dispatch_plain (f : Follower) (core : Core) (msg : Message) :
    (f.dispatch core msg).2.2.effects.All Message.Plain := by
  unfold dispatch
  split
  · unfold handleVoteRequest
    dsimp only
    split <;> exact .one rfl
  · unfold handleAppendRequest
    dsimp only
    split
    · split <;> exact .one rfl
    · exact .one rfl
  · exact .one rfl
  · unfold handleInstallSnapshot
    dsimp only
    split_ifs <;> exact .one rfl
  · exact .empty
  · exact .empty

theorem Follower.step_plain (f : Follower) (core : Core) (event : Event) :
    (f.step core event).2.2.effects.All Message.Plain := by
  cases event with
  | tick =>
    simp only [step, handleTick]
    split_ifs <;> exact .empty
  | diskWriteComplete index => exact .empty
  | message msg =>
    simp only [step, handleMessage]
    split
    · exact core.denyVote_plain msg
    · split
      · exact .one rfl
      · split
        · unfold rejectStale
          split
          · exact .one rfl
          · exact Core.rejectStale_plain _ msg
        · have hplain := (f.adoptTerm core msg).2.1.dispatch_plain (f.adoptTerm core msg).2.2 msg
          split <;> exact hplain

theorem PreCandidate.step_plain (p : PreCandidate) (core : Core) (event : Event) :
    (p.step core event).2.2.effects.All Message.Plain := by
  cases event with
  | tick =>
    simp only [step, handleTick]
    split_ifs <;> exact .empty
  | diskWriteComplete index => exact .empty
  | message msg =>
    simp only [step, handleMessage]
    split
    · exact core.denyVote_plain msg
    · split
      · exact .empty
      · unfold dispatch
        split
        · unfold handlePrevoteResponse
          dsimp only
          split_ifs <;> exact .empty
        · exact .empty
        · exact .one rfl
        · exact .one rfl
        · exact .empty
        · exact .empty

theorem Candidate.step_plain (c : Candidate) (core : Core) (event : Event) :
    (c.step core event).2.2.effects.All Message.Plain := by
  cases event with
  | tick =>
    simp only [step, handleTick]
    split_ifs <;> exact .empty
  | diskWriteComplete index => exact .empty
  | message msg =>
    simp only [step, handleMessage]
    split
    · exact core.denyVote_plain msg
    · split
      · exact .one rfl
      · split
        · exact .empty
        · split
          · exact core.rejectStale_plain msg
          · unfold dispatch
            split
            · unfold handleVoteResponse
              dsimp only
              split_ifs <;> exact .empty
            · exact .empty
            · exact .one rfl
            · exact .empty
            · exact .empty

/-- The messages of one node in one term. -/
def Message.SentBy (id : NodeId) (term : ℕ) (m : Message) : Prop := m.from = id ∧ m.term = term

namespace Leader

theorem sendAppendTo_sentBy (l : Leader) (core : Core) (peer : NodeId) :
    (l.sendAppendTo core peer).2.All (Message.SentBy core.id core.term) := by
  unfold sendAppendTo
  dsimp only
  split_ifs
  · exact .empty
  all_goals exact .one ⟨rfl, rfl⟩

theorem broadcastAppend_sentBy (l : Leader) (core : Core) :
    (l.broadcastAppend core).2.All (Message.SentBy core.id core.term) :=
  broadcastAppend_induct (I := fun _ e => e.All (Message.SentBy core.id core.term))
    (fun l' _ peer h => h.merge (l'.sendAppendTo_sentBy core peer)) .empty

theorem tryAutoTransfer_sentBy (l : Leader) (core : Core) (cfg : Configuration) :
    (l.tryAutoTransfer core cfg).All (Message.SentBy core.id core.term) := by
  unfold tryAutoTransfer
  split
  · split
    · exact .one ⟨rfl, rfl⟩
    · exact .empty
  · exact .empty

theorem maybeCommit_sentBy (l : Leader) (core : Core) :
    (l.maybeCommit core).2.2.1.All (Message.SentBy core.id core.term) := by
  refine (maybeCommit_induct (I := fun _ core' e => (core'.id = core.id ∧ core'.term = core.term) ∧
    e.All (Message.SentBy core.id core.term)) ?_ ?_ ?_ l ⟨⟨rfl, rfl⟩, .empty⟩).2
  · exact fun _ _ _ _ h _ _ => h
  · rintro l' core' e cfg ⟨⟨hid, hterm⟩, he⟩
    have hsent := l'.tryAutoTransfer_sentBy core' cfg
    rw [hid, hterm] at hsent
    exact ⟨⟨hid, hterm⟩, he.merge hsent⟩
  · rintro l' core' e target ⟨⟨hid, hterm⟩, he⟩
    have hsent := broadcastAppend_sentBy (l'.reinitProgress (appendEntry core' (.config target)))
      (appendEntry core' (.config target))
    have hid' : (appendEntry core' (.config target)).id = core.id := hid
    have hterm' : (appendEntry core' (.config target)).term = core.term := hterm
    rw [hid', hterm'] at hsent
    exact ⟨⟨hid, hterm⟩, he.merge hsent⟩

theorem afterCommit_sentBy (l : Leader) (core : Core) :
    (afterCommit (l.maybeCommit core)).2.2.effects.All (Message.SentBy core.id core.term) := by
  have hsent := l.maybeCommit_sentBy core
  simp only [afterCommit]
  split <;> exact hsent

theorem readIndexRequests_sentBy (core : Core) (pending : PendingReadIndex) :
    (readIndexRequests core pending).All (Message.SentBy core.id core.term) := by
  refine Effects.All.empty.withMessages fun m hm => ?_
  obtain ⟨peer, -, rfl⟩ := List.mem_map.1 hm
  exact ⟨rfl, rfl⟩

theorem dispatch_sentBy (l : Leader) (core : Core) (msg : Message) :
    (l.dispatch core msg).2.2.effects.All (Message.SentBy core.id core.term) := by
  unfold dispatch
  split
  · unfold handleAppendResponse
    split
    · exact .empty
    · split
      · exact afterCommit_sentBy _ core
      · exact sendAppendTo_sentBy _ core _
  · unfold handleInstallSnapshotResponse
    split_ifs
    · exact .empty
    · exact .empty
    · exact afterCommit_sentBy _ core
  · exact .empty
  · exact .one ⟨rfl, rfl⟩
  · exact .empty

theorem handleTick_sentBy (l : Leader) (core : Core) :
    (l.handleTick core).2.2.effects.All (Message.SentBy core.id core.term) := by
  unfold handleTick
  dsimp only
  split
  · have hsent : ∀ l' : Leader, (l'.broadcastAppend { core with ticks := core.ticks + 1 }).2.All
        (Message.SentBy core.id core.term) := fun l' => l'.broadcastAppend_sentBy _
    split
    · exact (hsent _).merge (readIndexRequests_sentBy { core with ticks := core.ticks + 1 } _)
    · exact hsent _
  · exact .empty

theorem step_sentBy (l : Leader) (core : Core) (event : Event) :
    (l.step core event).2.2.effects.All (Message.SentBy core.id core.term) := by
  cases event with
  | tick => exact l.handleTick_sentBy core
  | diskWriteComplete index =>
    simp only [step, handleDiskWriteComplete]
    split
    · exact afterCommit_sentBy _ core
    · exact .empty
  | message msg =>
    simp only [step, handleMessage]
    split
    · exact .one ⟨rfl, rfl⟩
    · split
      · exact .empty
      · split
        · unfold Core.rejectStale
          split
          · exact .one ⟨rfl, rfl⟩
          · exact .one ⟨rfl, rfl⟩
          · exact .empty
        · exact l.dispatch_sentBy core msg

end Leader

/-! ## Calls -/

namespace RaftNode

/-- The leader's messages among some messages come from this node, which leads. -/
def Speaks (n : RaftNode) (m : Message) : Prop :=
  m.payload.isLeaders = true → n.isLeader = true ∧ m.from = n.core.id ∧ m.term = n.core.term

theorem speaks_of_plain (n : RaftNode) {e : Effects} (h : e.All Message.Plain) :
    e.All n.Speaks := by
  intro m hm hleaders
  rw [h m hm] at hleaders
  cases hleaders

theorem speaks_of_sentBy {n : RaftNode} {e : Effects} (hlead : n.isLeader = true)
    (h : e.All (Message.SentBy n.core.id n.core.term)) : e.All n.Speaks :=
  fun m hm _ => ⟨hlead, h m hm⟩

theorem roleStep_speaks (n : RaftNode) (event : Event) :
    (n.roleStep event).2.effects.All n.Speaks := by
  obtain ⟨core, role⟩ := n
  cases role with
  | follower f => exact speaks_of_plain _ (f.step_plain core event)
  | preCandidate p => exact speaks_of_plain _ (p.step_plain core event)
  | candidate c => exact speaks_of_plain _ (c.step_plain core event)
  | leader l => exact speaks_of_sentBy rfl (l.step_sentBy core event)

theorem becomeLeader_speaks (core : Core) {effects : Effects} (h : effects.All Message.Plain) :
    (becomeLeader core effects).2.All (becomeLeader core effects).1.Speaks :=
  (speaks_of_plain _ h).merge
    (speaks_of_sentBy rfl ((Leader.initial core).broadcastAppend_sentBy core))

theorem becomeCandidate_speaks (core : Core) {effects : Effects} (h : effects.All Message.Plain) :
    (becomeCandidate core effects).2.All (becomeCandidate core effects).1.Speaks := by
  have hnew : (Candidate.new core).2.2.All Message.Plain := by
    unfold Candidate.new
    dsimp only
    split
    · exact .empty
    · refine Effects.All.empty.withMessages fun m hm => ?_
      obtain ⟨peer, -, rfl⟩ := List.mem_map.1 hm
      rfl
  unfold becomeCandidate
  dsimp only
  split
  · exact becomeLeader_speaks _ (h.merge hnew)
  · exact speaks_of_plain _ (h.merge hnew)

/-- A transition sends a leader's messages only into the leader role. -/
theorem applyTransition_speaks (n : RaftNode) (t : Transition) :
    (n.applyTransition t).2.All (n.applyTransition t).1.Speaks := by
  cases t with
  | stay => exact .empty
  | toFollower leader => exact .empty
  | toFollowerAfterContact leader => exact .empty
  | toPreCandidate =>
    have hnew : (PreCandidate.new n.core).2.2.All Message.Plain := by
      unfold PreCandidate.new
      dsimp only
      split
      · exact .empty
      · refine Effects.All.empty.withMessages fun m hm => ?_
        obtain ⟨peer, -, rfl⟩ := List.mem_map.1 hm
        rfl
    simp only [applyTransition]
    split
    · exact becomeCandidate_speaks _ hnew
    · exact speaks_of_plain _ hnew
  | toCandidate => exact becomeCandidate_speaks n.core .empty
  | toLeader => exact becomeLeader_speaks n.core .empty

/-- A leader's message that a call sends is of the leader it was made on, or of the one it makes. -/
def CallSpeaks (n : RaftNode) (r : RaftNode × Effects) : Prop :=
  ∀ m ∈ r.2.messages, n.Speaks m ∨ r.1.Speaks m

theorem stepEvent_speaks (n : RaftNode) (event : Event) : n.CallSpeaks (n.stepEvent event) := by
  intro m hm
  rcases List.mem_append.1 hm with hm | hm
  · exact .inl (n.roleStep_speaks event m hm)
  · exact .inr (applyTransition_speaks _ _ m hm)

theorem callSpeaks_none (n n' : RaftNode) : n.CallSpeaks (n', Effects.none) := by
  intro m hm
  cases hm

/-- What a leader sends when it has appended an entry. -/
theorem publish_sentBy (l : Leader) (core : Core) :
    (l.publish core).2.All (Message.SentBy core.id core.term) := by
  obtain ⟨hid, hterm⟩ := l.maybeCommit_identity core
  have hsent := (l.maybeCommit core).1.broadcastAppend_sentBy (l.maybeCommit core).2.1
  rw [hid, hterm] at hsent
  exact Effects.All.merge hsent (l.maybeCommit_sentBy core)

theorem publish_speaks {l l₁ : Leader} {core core' : Core} (hid : core'.id = core.id)
    (hterm : core'.term = core.term) :
    CallSpeaks ⟨core, .leader l⟩ ((l₁.publish core').1, (l₁.publish core').2) := by
  have hsent := publish_sentBy l₁ core'
  rw [hid, hterm] at hsent
  exact fun m hm => .inl (speaks_of_sentBy (n := ⟨core, .leader l⟩) rfl hsent m hm)

theorem propose_speaks {n n' : RaftNode} {cmd : Command} {r : Except ProposeError (ℕ × Effects)}
    (h : n.propose cmd = some (n', r)) : n.CallSpeaks (n', Cluster.effectsOf r) := by
  cases propose_cases h with
  | refused => exact callSpeaks_none _ _
  | accepted l core core' hcore =>
    exact publish_speaks (by rw [hcore]; rfl) (by rw [hcore]; rfl)

theorem proposeConfigChange_speaks {n n' : RaftNode} {change : ConfigChange}
    {r : Except ConfigChangeError (ℕ × Effects)} (h : n.proposeConfigChange change = (n', r)) :
    n.CallSpeaks (n', Cluster.effectsOf r) := by
  cases proposeConfigChange_cases h with
  | refused => exact callSpeaks_none _ _
  | accepted l core core' _ hcore =>
    exact publish_speaks (by rw [hcore]; rfl) (by rw [hcore]; rfl)

theorem requestReadIndex_speaks (n : RaftNode) :
    n.CallSpeaks (n.requestReadIndex.1, Cluster.effectsOf n.requestReadIndex.2) := by
  obtain ⟨core, role⟩ := n
  cases role with
  | leader l =>
    simp only [requestReadIndex, Leader.requestReadIndex]
    split
    · exact callSpeaks_none _ _
    · split
      · exact callSpeaks_none _ _
      · split
        · exact callSpeaks_none _ _
        · intro m hm
          exact .inl (speaks_of_sentBy (n := ⟨core, .leader l⟩) rfl
            (Leader.readIndexRequests_sentBy core _) m hm)
  | _ => exact callSpeaks_none _ _

theorem transferLeadership_speaks {n : RaftNode} {target : NodeId} {effects : Effects}
    (h : n.transferLeadership target = .ok effects) : n.CallSpeaks (n, effects) := by
  obtain ⟨core, role⟩ := n
  cases role with
  | leader l =>
    simp only [transferLeadership, Leader.transferLeadership] at h
    split_ifs at h
    cases h
    have hplain : (Effects.none.withMessage (core.message target .timeoutNow)).All Message.Plain :=
      .one rfl
    exact fun m hm => .inl (speaks_of_plain _ hplain m hm)
  | _ => cases h

end RaftNode

/-- **Only leaders send a leader's messages**, with their own name and in their own term. -/
theorem Cluster.call_speaks {c : Cluster} {input : Input} {r : RaftNode × Effects}
    (hr : c.call input = some r) : (c.nodes input.node).CallSpeaks r := by
  cases input with
  | tick id =>
    cases hr
    exact (c.nodes id).stepEvent_speaks .tick
  | deliver msg =>
    simp only [call] at hr
    split_ifs at hr
    cases hr
    exact (c.nodes msg.to).stepEvent_speaks (.message msg)
  | diskWriteComplete id index =>
    simp only [call] at hr
    split_ifs at hr
    cases hr
    exact (c.nodes id).stepEvent_speaks (.diskWriteComplete index)
  | propose id cmd =>
    obtain ⟨⟨n, res⟩, hres, rfl⟩ := Option.map_eq_some_iff.1 hr
    exact RaftNode.propose_speaks hres
  | proposeConfigChange id change =>
    cases hr
    exact RaftNode.proposeConfigChange_speaks rfl
  | requestReadIndex id =>
    cases hr
    exact (c.nodes id).requestReadIndex_speaks
  | transferLeadership id target =>
    simp only [call] at hr
    split at hr
    · next effects heff =>
      cases hr
      exact RaftNode.transferLeadership_speaks heff
    · cases hr
      exact RaftNode.callSpeaks_none _ _
  | advance id appliedTo =>
    cases hr
    exact RaftNode.callSpeaks_none _ _
  | restart id =>
    cases hr
    exact RaftNode.callSpeaks_none _ _

end Cloud9
