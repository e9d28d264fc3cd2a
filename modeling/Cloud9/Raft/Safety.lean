import Cloud9.Raft.Runs

/-!
# Safety with fixed membership

What the history of a run says about the states in it, for clusters whose membership never
changes. Nodes may crash and restart, and messages may be lost, duplicated and reordered.

* `election_safety`: a term has one leader.
* `log_matching`: logs that hold an entry of the same term at an index agree up to it.
* `committed_agree`: committed entries agree, in runs in which every accepted append request is
  verified.

The condition of the last one is needed. A follower acknowledges its whole log, also the part that
the request did not compare with the leader's, and the leader counts that as replicated
(`committed_disagree`).
-/

namespace Cloud9

open World

/-! ## Runs with fixed membership -/

namespace Cluster

/-- Nobody proposes a configuration change. -/
def fixed (_ : Cluster) (input : Input) : Bool := input.isFixed

/-- Nobody proposes a configuration change, and every accepted append request is verified. -/
def verified (c : Cluster) : Input → Bool
  | .deliver msg => !(c.nodes msg.to).acceptsAppend msg ||
      Follower.verified c.sent (c.nodes msg.to).core.log msg
  | input => input.isFixed

end Cluster

section

variable (configs : NodeId → Config) (voters : List NodeId)

def fixedSetting (strong : Prop) : Setting := Setting.start configs voters strong False (nofun)

variable {configs voters}

theorem fixedSetting_inputOk {c : Cluster} {input : Input} (h : c.fixed input = true) :
    (fixedSetting configs voters False).InputOk c input := by
  cases input with
  | deliver msg => exact fun hs => hs.elim
  | proposeConfigChange id change => cases h
  | _ => trivial

theorem verifiedSetting_inputOk {c : Cluster} {input : Input} (h : c.verified input = true) :
    (fixedSetting configs voters True).InputOk c input := by
  cases input with
  | deliver msg =>
    intro _ hacc
    simpa [Cluster.verified, hacc] using h
  | proposeConfigChange id change => cases h
  | _ => trivial

/-- The history of a run with fixed membership. -/
theorem fixed_run {inputs : List Input} {c : Cluster}
    (h : (Cluster.init configs voters).run Cluster.fixed inputs = some c) :
    ∃ w, (fixedSetting configs voters False).Tracks w c := by
  obtain ⟨w, -, hw⟩ := (Setting.tracks_init configs voters False False nofun).run
    (fun _ _ => fixedSetting_inputOk) h
  exact ⟨w, hw⟩

end

/-! ## A cluster of three

Runs of this cluster show that the conditions of the theorems below can be met. -/

/-- Short timeouts, no pre-vote, and the leader counts its own log without waiting for the disk. -/
def quickConfig : Config :=
  { Config.new 0 with
    electionTimeout := ⟨1, 2, Nat.one_lt_two⟩
    heartbeatInterval := 1
    prevote := false
    parallelDiskWrite := false }

/-- The timeout of a node that is slow to campaign. -/
def slowTimeout : TimeoutRange := ⟨1, 100, Nat.one_lt_succ_succ 98⟩

def trio : Cluster := Cluster.init (fun _ => quickConfig) [0, 1, 2]

/-- Node 0 becomes the leader of term 1. -/
def electZero : List Input :=
  [.tick 0, .deliver ⟨0, 1, 1, .voteRequest ⟨0, 0⟩⟩, .deliver ⟨1, 0, 1, .voteResponse ⟨true⟩⟩]

/-- Node 0 replicates a command to node 1 and commits it, while node 2 restarts. -/
def replicateOne : List Input :=
  [.propose 0 [7], .restart 2, .deliver ⟨0, 1, 1, .appendRequest ⟨0, 0, [⟨1, 1, .command [7]⟩], 0⟩⟩,
    .deliver ⟨1, 0, 1, .appendResponse ⟨true, 1⟩⟩, .tick 0,
    .deliver ⟨0, 1, 1, .appendRequest ⟨1, 1, [], 1⟩⟩]

/-! ## One leader a term -/

/-- A node in the leader role is the leader of its term in the history. -/
theorem Setting.Tracks.leader {P : Setting} {w : History} {c : Cluster} (h : P.Tracks w c)
    {id : NodeId} (hl : (c.nodes id).isLeader = true) :
    w.leader (c.nodes id).term = some id := by
  have hterm : (c.nodes id).term = w.cur id := (h.node id).term
  have hrole := (h.node id).role
  rcases hr : (c.nodes id).role with f | p | ca | l <;>
    simp only [RaftNode.isLeader, hr, RoleState.isLeader, Bool.false_eq_true] at hl
  simp only [RaftNode.view, hr, RoleState.view] at hrole
  rw [hterm]
  exact hrole.1

/-- **Election safety**: in no run with fixed membership are two nodes ever leaders of the same
term, at the same time or at different times. -/
theorem election_safety (configs : NodeId → Config) (voters : List NodeId)
    {inputs inputs' : List Input} {c c' : Cluster}
    (h : (Cluster.init configs voters).run Cluster.fixed inputs = some c)
    (h' : c.run Cluster.fixed inputs' = some c') {a b : NodeId}
    (ha : (c.nodes a).isLeader = true) (hb : (c'.nodes b).isLeader = true)
    (hterm : (c.nodes a).term = (c'.nodes b).term) : a = b := by
  obtain ⟨w, hw⟩ := fixed_run h
  obtain ⟨w', hle, hw'⟩ := hw.run (fun _ _ => fixedSetting_inputOk) h'
  have hla := hle.leader (hw.leader ha)
  rw [hterm, hw'.leader hb] at hla
  exact (Option.some.inj hla).symm

/-- Node 0 leads term 1 of the trio before and after it replicates a command. -/
theorem election_safety_trio : ∃ c c', trio.run Cluster.fixed electZero = some c ∧
    c.run Cluster.fixed replicateOne = some c' ∧ ∃ a b, (c.nodes a).isLeader = true ∧
      (c'.nodes b).isLeader = true ∧ (c.nodes a).term = (c'.nodes b).term ∧ a = b := by
  have hrun : (trio.run Cluster.fixed electZero).any (fun c =>
      (c.run Cluster.fixed replicateOne).any fun c' => decide ((c.nodes 0).isLeader = true ∧
        (c'.nodes 0).isLeader = true ∧ (c.nodes 0).term = (c'.nodes 0).term)) = true := by
    decide +kernel
  obtain ⟨c, hc, hrest⟩ := (Option.any_eq_true _ _).1 hrun
  obtain ⟨c', hc', hfacts⟩ := (Option.any_eq_true _ _).1 hrest
  obtain ⟨ha, hb, hterm⟩ := of_decide_eq_true hfacts
  exact ⟨c, c', hc, hc', 0, 0, ha, hb, hterm,
    election_safety (fun _ => quickConfig) [0, 1, 2] hc hc' ha hb hterm⟩

/-! ## Log matching -/

theorem Log.Matching.get {l l' : Log} (hl : l.Plain) (hl' : l'.Plain)
    (hm : Matching l.entries l'.entries) {i : ℕ} {e e' : Entry} (he : l.get i = some e)
    (he' : l'.get i = some e') (hterm : e.term = e'.term) {j : ℕ} (hj : j ≤ i) :
    l.get j = l'.get j := by
  rw [hl.get, entryAt] at he ⊢
  rw [hl'.get, entryAt] at he' ⊢
  split_ifs at he he' with h0
  split_ifs
  · rfl
  · have htake := hm _ _ _ he he' hterm
    exact List.getElem?_of_take_eq htake (by omega)

/-- **Log matching**: in every run with fixed membership, logs that hold entries of the same term
at an index hold the same entries up to it. -/
theorem log_matching (configs : NodeId → Config) (voters : List NodeId) {inputs : List Input}
    {c : Cluster} (h : (Cluster.init configs voters).run Cluster.fixed inputs = some c)
    {a b : NodeId} {i : ℕ} {e e' : Entry} (ha : (c.nodes a).core.log.get i = some e)
    (hb : (c.nodes b).core.log.get i = some e') (hterm : e.term = e'.term) :
    ∀ j ≤ i, (c.nodes a).core.log.get j = (c.nodes b).core.log.get j := by
  obtain ⟨w, hw⟩ := fixed_run h
  have hm : Log.Matching (c.nodes a).core.log.entries (c.nodes b).core.log.entries := by
    have hla : (c.nodes a).core.log.entries = w.log a := (hw.node a).log
    have hlb : (c.nodes b).core.log.entries = w.log b := (hw.node b).log
    rw [hla, hlb]
    exact Setting.matching_of_rooted (hw.sim.inv.log_rooted a) (hw.sim.inv.log_rooted b)
  exact fun j hj => hm.get (hw.plain a) (hw.plain b) ha hb hterm hj

/-- Nodes 0 and 1 of the trio hold an entry of term 1 at index 1. -/
theorem log_matching_trio : ∃ c e e', trio.run Cluster.fixed (electZero ++ replicateOne) = some c ∧
    (c.nodes 0).core.log.get 1 = some e ∧ (c.nodes 1).core.log.get 1 = some e' ∧
      e.term = e'.term ∧
      ∀ j ≤ 1, (c.nodes 0).core.log.get j = (c.nodes 1).core.log.get j := by
  have hrun : (trio.run Cluster.fixed (electZero ++ replicateOne)).any (fun c =>
      decide ((c.nodes 0).core.log.get 1 = some ⟨1, 1, .command [7]⟩ ∧
        (c.nodes 1).core.log.get 1 = some ⟨1, 1, .command [7]⟩)) = true := by
    decide +kernel
  obtain ⟨c, hc, hfacts⟩ := (Option.any_eq_true _ _).1 hrun
  obtain ⟨ha, hb⟩ := of_decide_eq_true hfacts
  exact ⟨c, _, _, hc, ha, hb, rfl,
    log_matching (fun _ => quickConfig) [0, 1, 2] hc ha hb rfl⟩

/-! ## Committed entries -/

/-- **State machine safety**: in every run with fixed membership in which all accepted append
requests are verified, nodes that have committed an index hold the same entry there, at the same
time or at different times. -/
theorem committed_agree (configs : NodeId → Config) (voters : List NodeId)
    {inputs inputs' : List Input} {c c' : Cluster}
    (h : (Cluster.init configs voters).run Cluster.verified inputs = some c)
    (h' : c.run Cluster.verified inputs' = some c') {a b : NodeId} {i : ℕ} (hi : 0 < i)
    (ha : i ≤ (c.nodes a).commitIndex) (hb : i ≤ (c'.nodes b).commitIndex) :
    ∃ e, (c.nodes a).core.log.get i = some e ∧ (c'.nodes b).core.log.get i = some e := by
  obtain ⟨w, -, hw⟩ := (Setting.tracks_init configs voters True False nofun).run
    (fun _ _ => verifiedSetting_inputOk) h
  obtain ⟨w', hle, hw'⟩ := hw.run (fun _ _ => verifiedSetting_inputOk) h'
  have hla : (c.nodes a).core.log.entries = w.log a := (hw.node a).log
  have hlb : (c'.nodes b).core.log.entries = w'.log b := (hw'.node b).log
  -- What was committed in the first state is still committed in the history of the second.
  have hca := ((hw.node a).commit trivial).mono hw.sim.inv hle le_rfl List.prefix_rfl
  have hcb := (hw'.node b).commit trivial
  have heq := hw'.sim.inv.covered_agree hca hcb (j := i - 1)
    (show i - 1 < (c.nodes a).commitIndex by omega) (show i - 1 < (c'.nodes b).commitIndex by omega)
  have hlen := ((hw.node a).commit trivial).length_le
  have hlt : i - 1 < (w.log a).length := Nat.lt_of_lt_of_le
    (show i - 1 < (c.nodes a).commitIndex by omega) hlen
  refine ⟨(w.log a).get ⟨i - 1, hlt⟩, ?_, ?_⟩
  · rw [(hw.plain a).get, Log.entryAt, if_neg (by omega), hla]
    exact List.getElem?_eq_getElem hlt
  · rw [(hw'.plain b).get, Log.entryAt, if_neg (by omega), hlb, ← heq]
    exact List.getElem?_eq_getElem hlt

/-- Nodes 0 and 1 of the trio commit index 1. -/
theorem committed_agree_trio :
    ∃ c c', trio.run Cluster.verified (electZero ++ replicateOne) = some c ∧
    c.run Cluster.verified [.tick 2] = some c' ∧ 1 ≤ (c.nodes 0).commitIndex ∧
      1 ≤ (c'.nodes 1).commitIndex ∧
      ∃ e, (c.nodes 0).core.log.get 1 = some e ∧ (c'.nodes 1).core.log.get 1 = some e := by
  have hrun : (trio.run Cluster.verified (electZero ++ replicateOne)).any (fun c =>
      (c.run Cluster.verified [.tick 2]).any fun c' => decide (1 ≤ (c.nodes 0).commitIndex ∧
        1 ≤ (c'.nodes 1).commitIndex)) = true := by
    decide +kernel
  obtain ⟨c, hc, hrest⟩ := (Option.any_eq_true _ _).1 hrun
  obtain ⟨c', hc', hfacts⟩ := (Option.any_eq_true _ _).1 hrest
  obtain ⟨ha, hb⟩ := of_decide_eq_true hfacts
  exact ⟨c, c', hc, hc', ha, hb,
    committed_agree (fun _ => quickConfig) [0, 1, 2] hc hc' Nat.one_pos ha hb⟩

/-- Ticks, proposals, disk completions and deliveries. -/
def Input.isBasic : Input → Bool
  | .tick _ | .propose .. | .diskWriteComplete .. | .deliver _ => true
  | _ => false

/-- Node 0 leads term 1 and appends `x`; node 1 leads term 2, whose heartbeat node 0 answers with
its whole log, and commits its own `y` on that answer. In term 3 node 0 wins again and replicates
`x` to node 2. -/
def unverifiedAck : List Input :=
  let x : Entry := ⟨1, 1, .command [120]⟩
  let z : Entry := ⟨3, 2, .command [122]⟩
  [.tick 0, .deliver ⟨0, 2, 1, .voteRequest ⟨0, 0⟩⟩, .deliver ⟨2, 0, 1, .voteResponse ⟨true⟩⟩,
    .propose 0 [120],
    .tick 1, .tick 1, .deliver ⟨1, 2, 2, .voteRequest ⟨0, 0⟩⟩,
    .deliver ⟨2, 1, 2, .voteResponse ⟨true⟩⟩,
    .deliver ⟨1, 0, 2, .appendRequest ⟨0, 0, [], 0⟩⟩,
    .deliver ⟨1, 0, 2, .appendRequest ⟨0, 0, [], 0⟩⟩,
    .propose 1 [121], .deliver ⟨0, 1, 2, .appendResponse ⟨true, 1⟩⟩,
    .tick 0, .deliver ⟨0, 2, 3, .voteRequest ⟨1, 1⟩⟩, .deliver ⟨2, 0, 3, .voteResponse ⟨true⟩⟩,
    .propose 0 [122],
    .deliver ⟨0, 2, 3, .appendRequest ⟨1, 1, [], 0⟩⟩,
    .deliver ⟨2, 0, 3, .appendResponse ⟨false, 0⟩⟩,
    .deliver ⟨0, 2, 3, .appendRequest ⟨0, 0, [x, z], 0⟩⟩,
    .deliver ⟨2, 0, 3, .appendResponse ⟨true, 2⟩⟩]

/-- **An unverified acknowledgement breaks state machine safety**: nodes 0 and 1 commit different
commands at index 1. -/
theorem committed_disagree : ∃ c, trio.run (fun _ input => input.isBasic) unverifiedAck = some c ∧
    1 ≤ (c.nodes 0).commitIndex ∧ 1 ≤ (c.nodes 1).commitIndex ∧
      (c.nodes 0).core.log.get 1 = some ⟨1, 1, .command [120]⟩ ∧
      (c.nodes 1).core.log.get 1 = some ⟨2, 1, .command [121]⟩ := by
  have hrun : (trio.run (fun _ input => input.isBasic) unverifiedAck).any (fun c =>
      decide (1 ≤ (c.nodes 0).commitIndex ∧ 1 ≤ (c.nodes 1).commitIndex ∧
        (c.nodes 0).core.log.get 1 = some ⟨1, 1, .command [120]⟩ ∧
        (c.nodes 1).core.log.get 1 = some ⟨2, 1, .command [121]⟩)) = true := by
    decide +kernel
  obtain ⟨c, hc, hfacts⟩ := (Option.any_eq_true _ _).1 hrun
  exact ⟨c, hc, of_decide_eq_true hfacts⟩

end Cloud9
