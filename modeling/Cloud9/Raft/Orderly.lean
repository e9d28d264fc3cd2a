import Cloud9.Raft.Intact
import Cloud9.Raft.Runs

/-!
# The cluster's own messages are orderly

`Cloud9.Raft.Intact` asks two things of the append requests a node accepts: that they skip no index,
and that they conflict with nothing committed. Requests of the nodes of a cluster satisfy both. They
are windows of a leader's log, whose entries carry their positions; and once accepted requests are
verified, the leader's log begins with what the receiver has committed.

So what `Cloud9.Raft.Intact` proves of a single node holds of the nodes of a cluster.
-/

namespace Cloud9

open World

/-- Consecutive entries of a log in sequence skip no index. -/
theorem Follower.gapless_of_isPrefix {L es : List Entry} (hL : Log.Indexed L) :
    ∀ {p last : ℕ}, es <+: L.drop p → p ≤ last → gapless last es = true := by
  induction es with
  | nil => exact fun _ _ => rfl
  | cons e es ih =>
    intro p last hes hle
    have hat : L[p]? = some e := by
      have := hes.getElem?_eq_some (i := 0) (a := e) rfl
      rwa [List.getElem?_drop] at this
    have hindex := hL.index_eq hat
    obtain ⟨t, ht⟩ := hes
    have hrest : es <+: L.drop (p + 1) := ⟨t, by rw [← List.drop_drop, ← ht]; rfl⟩
    rw [gapless, ih hrest (Nat.le_of_eq hindex.symm), Bool.and_true, decide_eq_true_eq]
    omega

theorem RaftNode.acceptsAppend_spec {n : RaftNode} {msg : Message} {req : AppendRequest}
    (hreq : msg.payload = .appendRequest req) (h : n.acceptsAppend msg = true) :
    n.core.term ≤ msg.term ∧ Follower.prevMatches n.core req = true := by
  unfold acceptsAppend at h
  split at h
  · next req' _ hreq' =>
    rw [hreq] at hreq'
    cases hreq'
    simpa using h
  · cases h

namespace Setting.Tracks

variable {P : Setting} {w : History} {c : Cluster} (h : P.Tracks w c) {msg : Message}
  (hmem : msg ∈ c.sent)
include h

theorem matching (id : NodeId) (T : ℕ) :
    Log.Matching (c.nodes id).core.log.entries (w.tlog T) := by
  rw [show (c.nodes id).core.log.entries = w.log id from (h.node id).log]
  exact matching_of_rooted (h.sim.inv.log_rooted id) (h.sim.inv.tlog_rooted T)

theorem positiveTerms (id : NodeId) : Log.PositiveTerms (c.nodes id).core.log.entries := by
  rw [show (c.nodes id).core.log.entries = w.log id from (h.node id).log]
  exact PositiveTerms.log h.sim.inv id

include hmem

/-- **Requests of the cluster skip no index.** -/
theorem gapless : (c.nodes msg.to).gapless (.message msg) = true := by
  simp only [RaftNode.gapless]
  split
  · next req hreq =>
    cases hacc : (c.nodes msg.to).acceptsAppend msg with
    | false => rfl
    | true =>
      have hrel := h.sim.msgs msg hmem
      simp only [MsgRel, hreq] at hrel
      have hprev := (RaftNode.acceptsAppend_spec hreq hacc).2
      rcases Follower.accepted_cases (PositiveTerms.tlog h.sim.inv msg.term) (h.plain msg.to)
          (h.positiveTerms msg.to) (h.matching msg.to msg.term) hrel.2.1 hprev with
        ⟨hp, hes, -, hlen⟩ | ⟨hnil, -⟩
      · have hle := hp.length_le
        rw [List.length_take, ← (h.plain msg.to).lastIndex] at hle
        simp only [Bool.not_true, Bool.false_or]
        exact Follower.gapless_of_isPrefix (h.sim.logs.indexed msg.term) hes (by omega)
      · rw [hnil]
        rfl
  · rfl

/-- Where accepted requests are verified, the log of a request's leader begins with what the
receiver has committed. -/
theorem committed_isPrefix (hs : P.strong) {req : AppendRequest}
    (hreq : msg.payload = .appendRequest req) (hacc : (c.nodes msg.to).acceptsAppend msg = true) :
    (c.nodes msg.to).core.log.entries.take (c.nodes msg.to).core.commitIndex <+:
      w.tlog msg.term := by
  have hrel := h.sim.msgs msg hmem
  simp only [MsgRel, hreq] at hrel
  have hterm : (c.nodes msg.to).core.term = w.cur msg.to := (h.node msg.to).term
  have hle := (RaftNode.acceptsAppend_spec hreq hacc).1
  have hcovered := ((h.node msg.to).commit hs).mono h.sim.inv (Le.refl w)
    (Nat.le_trans (Nat.le_of_eq hterm.symm) hle) List.prefix_rfl
  rw [show (c.nodes msg.to).core.log.entries = w.log msg.to from (h.node msg.to).log]
  exact h.sim.inv.covered_tlog hcovered (by rw [hrel.1]; exact Option.some_ne_none _)

/-- **Requests of the cluster conflict with nothing committed**, where accepted requests are
verified. -/
theorem sparesCommitted (hs : P.strong) :
    (c.nodes msg.to).sparesCommitted (.message msg) = true := by
  simp only [RaftNode.sparesCommitted]
  split
  · next req hreq =>
    cases hacc : (c.nodes msg.to).acceptsAppend msg with
    | false => rfl
    | true =>
      have hpre := h.committed_isPrefix hmem hs hreq hacc
      have hrel := h.sim.msgs msg hmem
      simp only [MsgRel, hreq] at hrel
      have hlen : (c.nodes msg.to).core.commitIndex ≤ (c.nodes msg.to).core.log.entries.length := by
        rw [show (c.nodes msg.to).core.log.entries = w.log msg.to from (h.node msg.to).log]
        exact ((h.node msg.to).commit hs).length_le
      simp only [Bool.not_true, Bool.false_or, Follower.sparesCommitted, List.all_eq_true,
        Bool.or_eq_true, decide_eq_true_eq, Bool.not_eq_true']
      intro e he
      obtain ⟨i, hi⟩ := List.mem_iff_getElem?.1 (hrel.2.1.mem he)
      have hindex := (h.sim.logs.indexed msg.term).index_eq hi
      rcases Nat.lt_or_ge (c.nodes msg.to).core.commitIndex e.index with hlt | hge
      · exact .inl hlt
      · -- The receiver holds this very entry.
        refine .inr ?_
        have hlt : i < (c.nodes msg.to).core.commitIndex := by omega
        have hsame : (c.nodes msg.to).core.log.entries[i]? = some e := by
          have hget := hpre.getElem?_eq_some (i := i) (a := (c.nodes msg.to).core.log.entries.get
            ⟨i, by omega⟩) (by rw [List.getElem?_take_of_lt hlt]; exact List.getElem?_eq_getElem _)
          rw [hi] at hget
          rw [Option.some.inj hget]
          exact List.getElem?_eq_getElem _
        have hterm : (c.nodes msg.to).core.log.termAt e.index = e.term := by
          rw [(h.plain msg.to).termAt, hindex, Log.entryTerm_of_getElem? hsame]
        simp [Follower.entryConflicts, hterm]
  · rfl

omit hmem in
/-- The nodes are intact, where accepted requests are verified. -/
theorem intact (hs : P.strong) (id : NodeId) : (c.nodes id).core.Intact := by
  have hplain := h.plain id
  refine ⟨hplain.contiguous, ?_, ?_⟩
  · rw [hplain.snapshotIndex]
    exact Nat.zero_le _
  · rw [hplain.lastIndex, show (c.nodes id).core.log.entries = w.log id from (h.node id).log]
    exact ((h.node id).commit hs).length_le

end Setting.Tracks

end Cloud9
