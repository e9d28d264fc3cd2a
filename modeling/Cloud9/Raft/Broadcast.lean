import Cloud9.Raft.Words

/-!
# Who is sent what in a broadcast

`Leader.broadcast_append` sends to every element of `replication_peers`, the voters of the effective
configuration followed by its learners, without the leader. A joint configuration that demotes a
voter has this node on both sides, as an old voter and as a learner, so the list has it twice and it
is sent two messages (`demoted_voter_twice`).

In every other configuration that validated changes lead to, each member but the leader is sent
exactly one append request or snapshot, and nobody else is sent anything (`broadcast_once_iff`).
-/

namespace Cloud9

namespace Configuration

/-- What validated changes, in either mode and with the completion of joint configurations, make of
the configuration a cluster starts with. -/
inductive Reachable : Configuration → Prop
  | initial (voters : List NodeId) : Reachable (simpleOf voters)
  | changed {current : Configuration} {change : ConfigChange} {mode : MembershipMode}
      (h : Reachable current) (hvalid : change.validate current mode = .ok ()) :
      Reachable (change.apply current mode)
  | completed {current target : Configuration} (h : Reachable current)
      (htarget : current.transitionTarget = some target) : Reachable target

/-- The new voters are not learners. -/
def Separate : Configuration → Prop
  | .simple voters learners => ∀ id ∈ voters, id ∉ learners
  | .joint _ new learners => ∀ id ∈ new, id ∉ learners

theorem Separate.apply {change : ConfigChange} {current : Configuration} {mode : MembershipMode}
    (h : current.Separate) (hvalid : change.validate current mode = .ok ()) :
    (change.apply current mode).Separate := by
  cases current with
  | joint old new learners => cases hvalid
  | simple voters learners =>
    cases change with
    | addVoter added =>
      intro id hid hlearner
      obtain ⟨hlearner, hne⟩ := OrdSet.mem_erase.1 hlearner
      exact h id ((OrdSet.mem_insert.1 hid).resolve_left hne) hlearner
    | removeVoter removed => exact fun id hid => h id (OrdSet.mem_erase.1 hid).1
    | addLearner added =>
      intro id hid hlearner
      rcases OrdSet.mem_insert.1 hlearner with rfl | hlearner
      · simp [ConfigChange.validate, hid] at hvalid
      · exact h id hid hlearner
    | removeLearner removed => exact fun id hid hlearner => h id hid (OrdSet.mem_erase.1 hlearner).1
    | setMembers members =>
      unfold ConfigChange.apply
      dsimp only
      split_ifs
      · exact members.disjoint
      · exact members.disjoint

theorem Reachable.separate {cfg : Configuration} (h : cfg.Reachable) : cfg.Separate := by
  induction h with
  | initial voters => exact fun id _ => OrdSet.not_mem_empty id
  | changed _ hvalid ih => exact ih.apply hvalid
  | @completed current target _ htarget ih =>
    cases current with
    | simple voters learners => cases htarget
    | joint old new learners =>
      cases htarget
      exact ih

/-! ## The list of peers -/

theorem mem_voters {cfg : Configuration} {id : NodeId} :
    id ∈ cfg.voters ↔ cfg.isVoter id = true := by
  cases cfg with
  | simple voters learners => exact OrdSet.contains_eq_true.symm
  | joint old new learners =>
    simp only [Configuration.voters, isVoter, List.mem_append, OrdSet.mem_diffList, Bool.or_eq_true,
      OrdSet.contains_eq_true, ← OrdSet.mem_def]
    tauto

theorem nodup_voters (cfg : Configuration) : cfg.voters.Nodup := by
  cases cfg with
  | simple voters learners => exact voters.nodup
  | joint old new learners =>
    refine List.nodup_append.2 ⟨old.nodup, new.nodup.filter _, fun a ha b hb heq => ?_⟩
    exact (OrdSet.mem_diffList.1 hb).2 (heq ▸ ha)

theorem mem_learners {cfg : Configuration} {id : NodeId} :
    id ∈ cfg.learners ↔ cfg.isLearner id = true :=
  OrdSet.contains_eq_true.symm

theorem nodup_learners (cfg : Configuration) : cfg.learners.Nodup := cfg.learnerSet.nodup

theorem count_replicationPeers (cfg : Configuration) (me id : NodeId) :
    (cfg.replicationPeers me).count id = if id = me then 0 else
      (if cfg.isVoter id = true then 1 else 0) + if cfg.isLearner id = true then 1 else 0 := by
  unfold replicationPeers
  by_cases hme : id = me
  · rw [if_pos hme]
    exact List.count_eq_zero.2 fun hmem => by simpa [hme] using (List.mem_filter.1 hmem).2
  · rw [if_neg hme, List.count_filter (by simpa using hme), allNodes, List.count_append,
      cfg.nodup_voters.count, cfg.nodup_learners.count]
    simp only [mem_voters, mem_learners]

/-- Every member but the node itself is listed exactly once, and nobody else. -/
def ListsOnce (cfg : Configuration) (me : NodeId) (peers : List NodeId) : Prop :=
  ∀ id, peers.count id = if cfg.isMember id = true ∧ id ≠ me then 1 else 0

/-- A joint configuration makes a learner of one of its old voters, other than the node itself. -/
def Demotes (cfg : Configuration) (me : NodeId) : Prop :=
  ∃ old new learners, cfg = .joint old new learners ∧ ∃ id ∈ old, id ∈ learners ∧ id ≠ me

theorem Reachable.listsOnce_iff {cfg : Configuration} (h : cfg.Reachable) (me : NodeId) :
    cfg.ListsOnce me (cfg.replicationPeers me) ↔ ¬cfg.Demotes me := by
  have hboth : cfg.ListsOnce me (cfg.replicationPeers me) ↔
      ∀ id, id ≠ me → ¬(cfg.isVoter id = true ∧ cfg.isLearner id = true) := by
    refine forall_congr' fun id => ?_
    rw [cfg.count_replicationPeers, isMember]
    by_cases hme : id = me <;> cases cfg.isVoter id <;> cases cfg.isLearner id <;> simp [hme]
  rw [hboth]
  cases cfg with
  | simple voters learners =>
    refine iff_of_true (fun id _ hid => ?_) fun hdem => ?_
    · exact h.separate id (OrdSet.contains_eq_true.1 hid.1) (OrdSet.contains_eq_true.1 hid.2)
    · obtain ⟨old, new, learners', heq, -⟩ := hdem
      cases heq
  | joint old new learners =>
    refine ⟨fun hone hdem => ?_, fun hdem id hne hid => hdem ⟨old, new, learners, rfl, id, ?_⟩⟩
    · obtain ⟨_, _, _, heq, id, hold, hlearner, hne⟩ := hdem
      cases heq
      exact hone id hne ⟨by simp [isVoter, hold], by simp [isLearner, learnerSet, hlearner]⟩
    · have hlearner : id ∈ learners := OrdSet.contains_eq_true.1 hid.2
      have hvoter := hid.1
      simp only [isVoter, Bool.or_eq_true, OrdSet.contains_eq_true] at hvoter
      exact ⟨hvoter.resolve_right fun hnew => h.separate id hnew hlearner, hlearner, hne⟩

end Configuration

/-! ## The messages -/

/-- The nodes that are sent a message or a snapshot, one entry each time. -/
def Effects.targets (e : Effects) : List NodeId :=
  e.messages.map Message.to ++ e.sendSnapshots.map SendSnapshot.to

theorem Effects.count_targets_merge (e f : Effects) (id : NodeId) :
    (e.merge f).targets.count id = e.targets.count id + f.targets.count id := by
  simp only [targets, merge, List.map_append, List.count_append]
  omega

namespace Leader

/-- One call of `send_append_to` sends one append request or one snapshot, to the peer. -/
theorem sendAppendTo64_targets (l : Leader) (core : Core) (peer : NodeId) :
    (l.sendAppendTo64 core peer).2.targets = [peer] ∧
      ∀ m ∈ (l.sendAppendTo64 core peer).2.messages, m.payload.isAppendRequest = true := by
  unfold sendAppendTo64
  dsimp only
  split_ifs
  · exact ⟨rfl, fun m hm => absurd hm List.not_mem_nil⟩
  all_goals exact ⟨rfl, fun m hm => by rw [List.mem_singleton.1 hm]; rfl⟩

theorem broadcastAppend?_targets {l : Leader} {core : Core} {r : Leader × Effects}
    (h : l.broadcastAppend? core = some r) :
    (∀ id, r.2.targets.count id = (core.effectiveConfig.replicationPeers core.id).count id) ∧
      ∀ m ∈ r.2.messages, m.payload.isAppendRequest = true := by
  refine broadcastAppend?_induct (I := fun sent _ effects =>
    (∀ id, effects.targets.count id = sent.count id) ∧
      ∀ m ∈ effects.messages, m.payload.isAppendRequest = true) ?_ h ⟨fun _ => rfl, by simp⟩
  rintro sent l effects peer ⟨hcount, hmessages⟩
  obtain ⟨htargets, happend⟩ := l.sendAppendTo64_targets core peer
  refine ⟨fun id => ?_, fun m hm => ?_⟩
  · rw [Effects.count_targets_merge, hcount, htargets, List.count_append]
  · rcases List.mem_append.1 hm with hm | hm
    · exact hmessages m hm
    · exact happend m hm

end Leader

/-- **One message per peer.** For every leader state and every effective configuration that
validated changes lead to, a broadcast (one that returns, as it does on every contiguous log)
consists of one append request or one snapshot for each member other than the leader, and nothing
else, if and only if the configuration does not make a learner of an old voter; and the same is true
of the list of peers itself. -/
theorem broadcast_once_iff {l : Leader} {core : Core} {r : Leader × Effects}
    (h : core.effectiveConfig.Reachable) (hsent : l.broadcastAppend? core = some r) :
    ((core.effectiveConfig.ListsOnce core.id r.2.targets ∧
        ∀ m ∈ r.2.messages, m.payload.isAppendRequest = true) ↔
      ¬core.effectiveConfig.Demotes core.id) ∧
    (core.effectiveConfig.ListsOnce core.id (core.effectiveConfig.replicationPeers core.id) ↔
      ¬core.effectiveConfig.Demotes core.id) := by
  have hpeers := h.listsOnce_iff core.id
  obtain ⟨hcount, happend⟩ := Leader.broadcastAppend?_targets hsent
  refine ⟨?_, hpeers⟩
  rw [and_iff_left happend, ← hpeers]
  exact forall_congr' fun id => by rw [hcount]

/-- The leader of voters 0 and 1 while the change to `members` is on its way. -/
def changing (members : Members) : Core :=
  Core.restore (Config.new 0)
    { Core.initialPersistent [0, 1] with
      term := 1
      log := { Log.empty with
        entries := [⟨1, 1, .config ((ConfigChange.setMembers members).apply (.simpleOf [0, 1])
          .jointConsensus)⟩] } }

theorem reachable_changing {members : Members}
    (h : (ConfigChange.setMembers members).validate (.simpleOf [0, 1]) .jointConsensus = .ok ()) :
    (changing members).effectiveConfig.Reachable :=
  .changed (.initial [0, 1]) h

/-- Node 2 replaces node 1. -/
theorem broadcast_once_iff_replaced :
    let core := changing ⟨.ofList [0, 2], .empty, fun _ _ => OrdSet.not_mem_empty _⟩
    ∃ r, (Leader.initial core).broadcastAppend? core = some r ∧
      core.effectiveConfig.ListsOnce core.id r.2.targets ∧ r.2.targets = [1, 2] := by
  intro core
  have hreach : core.effectiveConfig.Reachable := reachable_changing (by decide)
  have hsent : ((Leader.initial core).broadcastAppend? core).any
      (fun r => r.2.targets == [1, 2]) = true := by decide +kernel
  obtain ⟨r, hr, htargets⟩ := (Option.any_eq_true _ _).1 hsent
  refine ⟨r, hr, ((broadcast_once_iff hreach hr).1.2 ?_).1, beq_iff_eq.1 htargets⟩
  rintro ⟨old, new, learners, heq, id, -, hlearner, -⟩
  cases heq
  exact OrdSet.not_mem_empty id hlearner

/-- **A demoted voter is sent two messages**: node 1 is an old voter and a learner. -/
theorem demoted_voter_twice :
    let core := changing ⟨.ofList [0], .ofList [1], by decide⟩
    core.effectiveConfig.Reachable ∧
      core.effectiveConfig = .joint (.ofList [0, 1]) (.ofList [0]) (.ofList [1]) ∧
      core.effectiveConfig.replicationPeers 0 = [1, 1] ∧
      ∃ r, (Leader.initial core).broadcastAppend? core = some r ∧
        r.2.messages.map Message.to = [1, 1] ∧
        ¬core.effectiveConfig.ListsOnce 0 r.2.targets := by
  intro core
  have hsent : ((Leader.initial core).broadcastAppend? core).any (fun r =>
      decide (r.2.messages.map Message.to = [1, 1] ∧ r.2.targets.count 1 = 2)) = true := by
    decide +kernel
  obtain ⟨r, hr, hfacts⟩ := (Option.any_eq_true _ _).1 hsent
  obtain ⟨hmessages, htwice⟩ := of_decide_eq_true hfacts
  refine ⟨reachable_changing (by decide), by decide +kernel, by decide +kernel, r, hr, hmessages,
    fun h => ?_⟩
  have hone := h 1
  rw [htwice] at hone
  revert hone
  decide +kernel

end Cloud9
