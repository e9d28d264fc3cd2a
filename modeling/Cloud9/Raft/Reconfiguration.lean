import Cloud9.Raft.Safety
import Cloud9.Raft.Script

/-!
# Election safety across configuration changes

Every node counts votes in the latest configuration of its own log, committed or not, and
configurations take effect when they are appended. Changing one server at a time makes neighbouring
configurations have meeting quorums, but two leaders that each start from the same configuration
and change it on their own do not have neighbouring ones. A leader that has committed an entry of
its own term cannot start from an outdated configuration.

`Leader.proposeConfigChange` does not ask for such an entry. `election_safety_reconfiguring` says
that a term has one leader if configuration changes are only proposed to leaders that have one, and
`two_leaders` is a run in which they are not. (`Leader.requestReadIndex` makes the very check.)
-/

namespace Cloud9

open World

/-- Configuration changes are proposed only to leaders that have committed an entry of their term,
and every accepted append request is verified. -/
def Cluster.guarded (c : Cluster) : Input → Bool
  | .deliver msg => !(c.nodes msg.to).acceptsAppend msg ||
      Follower.verified c.sent (c.nodes msg.to).core.log msg
  | .proposeConfigChange id _ => !(c.nodes id).isLeader ||
      (Leader.currentTermCommitIndex (c.nodes id).core).isSome
  | _ => true

/-- Only a leader accepts a configuration change. -/
theorem RaftNode.isLeader_of_proposeConfigChange {n : RaftNode} {change : ConfigChange}
    (h : (n.proposeConfigChange change).2.isOk = true) : n.isLeader = true := by
  obtain ⟨core, role⟩ := n
  cases role with
  | leader l => rfl
  | _ => cases h

def changingSetting (configs : NodeId → Config) (voters : List NodeId)
    (hmode : ∀ id, (configs id).membershipMode = .singleServer) : Setting :=
  Setting.start configs voters True True fun _ => ⟨trivial, hmode⟩

theorem changingSetting_inputOk {configs : NodeId → Config} {voters : List NodeId}
    (hmode : ∀ id, (configs id).membershipMode = .singleServer) {c : Cluster} {input : Input}
    (h : c.guarded input = true) : (changingSetting configs voters hmode).InputOk c input := by
  cases input with
  | deliver msg =>
    intro _ hacc
    simpa [Cluster.guarded, hacc] using h
  | proposeConfigChange id change =>
    intro hok
    refine ⟨trivial, ?_⟩
    simpa [Cluster.guarded, RaftNode.isLeader_of_proposeConfigChange hok] using h
  | _ => trivial

/-- **Election safety across single-server changes**: if configuration changes are proposed only to
leaders that have committed an entry of their term and all accepted append requests are verified,
then no two nodes are ever leaders of the same term. -/
theorem election_safety_reconfiguring (configs : NodeId → Config) (voters : List NodeId)
    (hmode : ∀ id, (configs id).membershipMode = .singleServer) {inputs inputs' : List Input}
    {c c' : Cluster} (h : (Cluster.init configs voters).run Cluster.guarded inputs = some c)
    (h' : c.run Cluster.guarded inputs' = some c') {a b : NodeId}
    (ha : (c.nodes a).isLeader = true) (hb : (c'.nodes b).isLeader = true)
    (hterm : (c.nodes a).term = (c'.nodes b).term) : a = b := by
  obtain ⟨w, -, hw⟩ := (Setting.tracks_init configs voters True True fun _ => ⟨trivial, hmode⟩).run
    (fun _ _ => changingSetting_inputOk hmode) h
  obtain ⟨w', hle, hw'⟩ := hw.run (fun _ _ => changingSetting_inputOk hmode) h'
  have hla := hle.leader (hw.leader ha)
  rw [hterm, hw'.leader hb] at hla
  exact (Option.some.inj hla).symm

/-- Node 0 of the trio commits a command of its term and then adds a learner. -/
theorem election_safety_reconfiguring_trio : ∃ c c',
    trio.run Cluster.guarded (electZero ++ replicateOne) = some c ∧
    c.run Cluster.guarded [.proposeConfigChange 0 (.addLearner 3)] = some c' ∧
    ∃ a b, (c.nodes a).isLeader = true ∧ (c'.nodes b).isLeader = true ∧
      (c.nodes a).term = (c'.nodes b).term ∧ (c'.nodes b).core.effectiveConfig.isLearner 3 = true ∧
      a = b := by
  have hrun : (trio.run Cluster.guarded (electZero ++ replicateOne)).any (fun c =>
      (c.run Cluster.guarded [.proposeConfigChange 0 (.addLearner 3)]).any fun c' =>
        decide ((c.nodes 0).isLeader = true ∧ (c'.nodes 0).isLeader = true ∧
          (c.nodes 0).term = (c'.nodes 0).term ∧
          (c'.nodes 0).core.effectiveConfig.isLearner 3 = true)) = true := by
    decide +kernel
  obtain ⟨c, hc, hrest⟩ := (Option.any_eq_true _ _).1 hrun
  obtain ⟨c', hc', hfacts⟩ := (Option.any_eq_true _ _).1 hrest
  obtain ⟨ha, hb, hterm, hlearner⟩ := of_decide_eq_true hfacts
  exact ⟨c, c', hc, hc', 0, 0, ha, hb, hterm, hlearner,
    election_safety_reconfiguring (fun _ => quickConfig) [0, 1, 2]
      (fun _ => rfl) hc hc' ha hb hterm⟩

/-! ## Two leaders of one term -/

/-- Nodes 1 and 2 campaign at once, the others are slow to. -/
def unevenConfig (id : NodeId) : Config :=
  if id ≤ 2 then quickConfig else { quickConfig with electionTimeout := slowTimeout }

/-- Four voters. Node 1 leads term 1, adds node 5 as a learner, and has only node 5 know that it
becomes a voter. Node 2 leads term 2 and removes node 1 before it commits anything. In term 3 node 1
is elected by 1, 4, 5 of five voters, and node 2 by 2, 3 of three. -/
def divergingChanges : List Move :=
  [.input (.tick 1), .relay 1 2, .relay 2 1, .relay 1 3, .relay 3 1,
    .input (.proposeConfigChange 1 (.addLearner 5)),
    .relay 1 2, .relay 2 1, .relay 1 3, .relay 3 1,
    .relay 1 5, .relay 5 1, .relay 1 5, .relay 5 1, .input (.tick 1), .relay 1 2,
    .input (.proposeConfigChange 1 (.addVoter 5)), .relay 1 5,
    .input (.tick 2), .input (.tick 3), .relay 2 1, .relay 2 3, .relay 3 2, .relay 2 4, .relay 4 2,
    .input (.proposeConfigChange 2 (.removeVoter 1)),
    .input (.restart 2), .input (.tick 2), .relay 2 3, .relay 3 2,
    .input (.tick 1), .input (.tick 5), .relay 1 4, .relay 4 1, .relay 1 5, .relay 5 1]

/-- **Configuration changes of an outdated leader break election safety**: nodes 1 and 2 both lead
term 3, although every accepted append request is verified. -/
theorem two_leaders : ∃ inputs c,
    (Cluster.init unevenConfig [1, 2, 3, 4]).run (fun c input => c.verified input || !input.isFixed)
      inputs = some c ∧
    (c.nodes 1).isLeader = true ∧ (c.nodes 2).isLeader = true ∧
    (c.nodes 1).term = 3 ∧ (c.nodes 2).term = 3 := by
  have hplay : ((Cluster.init unevenConfig [1, 2, 3, 4]).play
      (fun c input => c.verified input || !input.isFixed) divergingChanges).any (fun c =>
        decide ((c.nodes 1).isLeader = true ∧ (c.nodes 2).isLeader = true ∧
          (c.nodes 1).term = 3 ∧ (c.nodes 2).term = 3)) = true := by
    decide +kernel
  obtain ⟨inputs, c, hrun, hfacts⟩ := Cluster.exists_run_of_play hplay
  exact ⟨inputs, c, hrun, of_decide_eq_true hfacts⟩

end Cloud9
