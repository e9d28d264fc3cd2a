import Cloud9.Raft.Safety

/-!
# Committed entries are kept

What `Cloud9.Raft.Safety` says of two nodes that have both committed an index, said of nodes that
need not know of the commit: every leader of the term or a later one has the entry
(`leader_completeness`), and so has a majority of the voters at any later time
(`Setting.Tracks.covered_majority`). Membership is fixed and accepted append requests are verified;
nodes crash and restart.

The majority is counted in the configuration the cluster was started with. A quorum of the history
is counted in a leader's log, and in runs without configuration changes no leader's log has a
configuration.
-/

namespace Cloud9

open World

/-- A log without configurations leaves the one the cluster was started with. -/
theorem configOf_of_commands {boot : Configuration} {l : List Entry}
    (h : ∀ e ∈ l, ∀ cfg, e.payload ≠ .config cfg) : configOf boot l = boot := by
  induction l using List.reverseRecOn with
  | nil => rfl
  | append_singleton l e ih =>
    rw [configOf, Log.lastConfig_concat]
    have he := h e (List.mem_append_right _ (List.mem_singleton.2 rfl))
    cases hp : e.payload with
    | command cmd => exact ih fun e' he' => h e' (List.mem_append_left _ he')
    | config cfg => exact absurd hp (he cfg)

namespace Setting.Tracks

variable {P : Setting} {w : History} {c : Cluster} (h : P.Tracks w c)
include h

/-- **A committed prefix is in the logs of a majority**, then and at any time after. -/
theorem covered_majority (hchange : ¬P.change) {T : ℕ} {l : List Entry} {n : ℕ}
    (hc : Covered P.system w T l n) (hpos : 0 < n) : ∃ f : NodeId → Bool,
      P.boot.hasQuorum f = true ∧ ∀ id, f id = true → ∀ w' c', w.Le w' → P.Tracks w' c' →
        l.take n <+: (c'.nodes id).core.log.entries := by
  obtain ⟨T₀, m, Q, ⟨f, hf, hQ⟩, hheld⟩ := h.sim.inv.covered_held hc hpos
  rw [configOf_of_commands fun e he cfg hcfg =>
    hchange (h.sim.logs.simple (List.mem_of_mem_take he) hcfg).2] at hf
  refine ⟨f, hf, fun id hid w' c' hle h' => ?_⟩
  rw [show (c'.nodes id).core.log.entries = w'.log id from (h'.node id).log]
  exact hheld id (hQ id hid) w' hle h'.sim.inv

/-- **A leader has what was committed in earlier terms and its own.** -/
theorem covered_leader {id : NodeId} (hl : (c.nodes id).isLeader = true) {l : List Entry} {n : ℕ}
    (hc : Covered P.system w (c.nodes id).term l n) :
    l.take n <+: (c.nodes id).core.log.entries := by
  have hlead := h.leader hl
  rw [show (c.nodes id).core.log.entries = w.log id from (h.node id).log,
    h.sim.inv.held hlead (h.node id).term.symm]
  exact h.sim.inv.covered_tlog hc (by rw [hlead]; exact Option.some_ne_none id)

end Setting.Tracks

/-- An entry of a prefix. -/
theorem Log.Plain.get_of_covers {log : Log} (h : log.Plain) {l : List Entry} {n i : ℕ} (hi : 0 < i)
    (hin : i ≤ n) (hn : n ≤ l.length) (hp : l.take n <+: log.entries) :
    log.get i = l[i - 1]? := by
  rw [h.get, entryAt, if_neg (by omega)]
  exact (List.getElem?_of_take_prefix hp (by omega) hn).symm

/-- **Leader completeness**: in every run with fixed membership in which all accepted append
requests are verified, an entry that any node has committed is in the log of every node that leads
the same term or a later one, then or at any time after. -/
theorem leader_completeness (configs : NodeId → Config) (voters : List NodeId)
    {inputs inputs' : List Input} {c c' : Cluster}
    (h : (Cluster.init configs voters).run Cluster.verified inputs = some c)
    (h' : c.run Cluster.verified inputs' = some c') {a b : NodeId} {i : ℕ} (hi : 0 < i)
    (ha : i ≤ (c.nodes a).commitIndex) (hb : (c'.nodes b).isLeader = true)
    (hterm : (c.nodes a).term ≤ (c'.nodes b).term) :
    ∃ e, (c.nodes a).core.log.get i = some e ∧ (c'.nodes b).core.log.get i = some e := by
  obtain ⟨w, -, hw⟩ := (Setting.tracks_init configs voters True False (fun h => by cases h)).run
    (fun _ _ => verifiedSetting_inputOk) h
  obtain ⟨w', hle, hw'⟩ := hw.run (fun _ _ => verifiedSetting_inputOk) h'
  have hterm' : w.cur a ≤ (c'.nodes b).term := (hw.node a).term ▸ hterm
  have hla : (c.nodes a).core.log.entries = w.log a := (hw.node a).log
  have hcommit := (hw.node a).commit trivial
  have hlen : (c.nodes a).commitIndex ≤ (w.log a).length := hcommit.length_le
  have hprefix := hw'.covered_leader hb (hcommit.mono hw.sim.inv hle hterm' List.prefix_rfl)
  refine ⟨(w.log a).get ⟨i - 1, by omega⟩, ?_, ?_⟩
  · rw [(hw.plain a).get, Log.entryAt, if_neg (by omega), hla]
    exact List.getElem?_eq_getElem _
  · rw [(hw'.plain b).get_of_covers hi ha hlen hprefix]
    exact List.getElem?_eq_getElem _

/-- Node 1 of the trio is elected in term 2, by itself and by node 2 that has nothing. -/
def electOne : List Input :=
  [.tick 1, .deliver ⟨1, 2, 2, .voteRequest ⟨1, 1⟩⟩,
    .deliver ⟨2, 1, 2, .voteResponse ⟨true⟩⟩]

theorem leader_completeness_trio : ∃ c c',
    trio.run Cluster.verified (electZero ++ replicateOne) = some c ∧
    c.run Cluster.verified electOne = some c' ∧ 1 ≤ (c.nodes 0).commitIndex ∧
      (c'.nodes 1).isLeader = true ∧ (c.nodes 0).term ≤ (c'.nodes 1).term ∧
      ∃ e, (c.nodes 0).core.log.get 1 = some e ∧ (c'.nodes 1).core.log.get 1 = some e := by
  have hrun : (trio.run Cluster.verified (electZero ++ replicateOne)).any (fun c =>
      (c.run Cluster.verified electOne).any fun c' => decide (1 ≤ (c.nodes 0).commitIndex ∧
        (c'.nodes 1).isLeader = true ∧ (c.nodes 0).term ≤ (c'.nodes 1).term)) = true := by
    decide +kernel
  obtain ⟨c, hc, hrest⟩ := (Option.any_eq_true _ _).1 hrun
  obtain ⟨c', hc', hfacts⟩ := (Option.any_eq_true _ _).1 hrest
  obtain ⟨ha, hb, hterm⟩ := of_decide_eq_true hfacts
  exact ⟨c, c', hc, hc', ha, hb, hterm,
    leader_completeness (fun _ => quickConfig) [0, 1, 2] hc hc' Nat.one_pos ha hb hterm⟩

end Cloud9
