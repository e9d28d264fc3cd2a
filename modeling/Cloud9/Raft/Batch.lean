import Cloud9.Raft.Words

/-!
# How many entries a request carries

`Leader.send_append_to` computes the end of a batch as if it were exclusive, and `Log::slice`
includes it. So a leader that has more than `max_entries_per_msg` entries for a peer sends one too
many (`batch_exceeds_limit`); the limit is kept exactly if there are no more than that
(`batch_limit_iff`).

The limit can be any `u64`, so the request is the one of `sendAppendTo64`, with sums on 64 bits.
-/

namespace Cloud9

/-- The number of entries between two indices of a log, both included. -/
theorem Log.Contiguous.length_slice {log : Log} (h : log.Contiguous) {a : ℕ}
    (ha : log.snapshotIndex < a) (b : ℕ) :
    (log.slice a b).length = min b log.lastIndex + 1 - a := by
  rw [h.slice ha, List.length_drop, List.length_take, h.lastIndex]
  omega

namespace Leader

/-- Every append request among the effects keeps the limit: it carries at most so many entries, and
exactly so many if the log has them, or else all there are from the peer's next index on. -/
def KeepsLimit (core : Core) (next : ℕ) (effects : Effects) : Prop :=
  ∀ m ∈ effects.messages, ∀ req, m.payload = .appendRequest req →
    req.entries.length ≤ core.config.maxEntriesPerMsg ∧
      (core.log.snapshotIndex < next → next ≤ core.log.lastIndex →
        req.entries.length =
          min core.config.maxEntriesPerMsg (core.log.lastIndex - next + 1))

theorem keepsLimit_iff {l : Leader} {core : Core} {peer : NodeId} (hlog : core.log.Contiguous) :
    let next := (l.nextIndex peer).getD 1
    let sent := min (batchEnd core next) core.log.lastIndex + 1 - next
    KeepsLimit core next (l.sendAppendTo64 core peer).2 ↔
      next ≤ core.log.snapshotIndex ∨ sent ≤ core.config.maxEntriesPerMsg ∧
        (next ≤ core.log.lastIndex →
          sent = min core.config.maxEntriesPerMsg (core.log.lastIndex - next + 1)) := by
  intro next sent
  unfold sendAppendTo64
  rcases Nat.lt_or_ge core.log.snapshotIndex next with hsnap | hsnap
  · have hlen := hlog.length_slice hsnap (batchEnd core next)
    rw [if_neg (Nat.not_le.2 hsnap), or_iff_right (Nat.not_le.2 hsnap)]
    refine ⟨fun h => ?_, fun h m hm req hreq => ?_⟩
    · obtain ⟨hle, heq⟩ := h _ (List.mem_singleton.2 rfl) _ rfl
      rw [← show _ = sent from hlen]
      exact ⟨hle, heq hsnap⟩
    · obtain rfl := List.mem_singleton.1 hm
      cases hreq
      rw [← show _ = sent from hlen] at h
      exact ⟨h.1, fun _ => h.2⟩
  · rw [if_pos hsnap]
    exact ⟨fun _ => .inl hsnap, fun _ m hm => absurd hm List.not_mem_nil⟩

end Leader

/-- The number of entries from `next` up to the end of a batch is right iff the log has no more of
them than the limit, or none. -/
theorem within_limit_iff {next last limit : ℕ} (hnext : 1 ≤ next) (hlimit : 1 ≤ limit)
    (hlimit64 : limit < 2 ^ 64) (hnext64 : next < 2 ^ 64) (hlast64 : last < 2 ^ 64) :
    let sent := min (min (wrappingAdd next limit) (wrappingAdd last 1)) last + 1 - next
    (sent ≤ limit ∧ (next ≤ last → sent = min limit (last - next + 1))) ↔
      last < next ∨ last < next + limit ∧ next + limit < 2 ^ 64 := by
  intro sent
  rcases Nat.lt_or_ge last next with hbeyond | hwithin
  · exact iff_of_true ⟨by omega, fun h => absurd h (Nat.not_le.2 hbeyond)⟩ (.inl hbeyond)
  rw [or_iff_right (Nat.not_lt.2 hwithin)]
  rcases Nat.lt_or_ge (next + limit) (2 ^ 64) with hfits | hover
  · rcases Nat.lt_or_ge (last + 1) (2 ^ 64) with hlast | hlast
    · simp only [sent, wrappingAdd_of_lt hfits, wrappingAdd_of_lt hlast]
      omega
    · -- the end of the log overflows: nothing is sent, although something is missing
      have hzero : wrappingAdd last 1 = 0 := by
        rw [wrappingAdd, show last + 1 = 2 ^ 64 by omega, Nat.mod_self]
      have hsent : sent = 0 := by
        simp only [sent, hzero]
        omega
      omega
  · -- the end of the batch overflows
    have hend := wrappingAdd_lt hlimit64 hnext64 hover
    omega

/-- **When a batch keeps the limit.** The peer needs the snapshot, or it needs nothing, or what it
needs is no more than the limit allows (and the sum of the next index and the limit is a `u64`). -/
theorem batch_limit_iff {l : Leader} {core : Core} {peer : NodeId} (hlog : core.log.Contiguous)
    (hlimit : 1 ≤ core.config.maxEntriesPerMsg) (hlimit64 : core.config.maxEntriesPerMsg < 2 ^ 64)
    (hnext64 : (l.nextIndex peer).getD 1 < 2 ^ 64) (hlast64 : core.log.lastIndex < 2 ^ 64) :
    let next := (l.nextIndex peer).getD 1
    Leader.KeepsLimit core next (l.sendAppendTo64 core peer).2 ↔
      next ≤ core.log.snapshotIndex ∨ core.log.lastIndex < next ∨
        core.log.lastIndex < next + core.config.maxEntriesPerMsg ∧
          next + core.config.maxEntriesPerMsg < 2 ^ 64 :=
  (Leader.keepsLimit_iff hlog).trans
    (or_congr_right' fun hsnap =>
      within_limit_iff (Nat.one_le_of_lt (Nat.not_le.1 hsnap)) hlimit hlimit64 hnext64 hlast64)

/-- A leader of nodes 0 and 1 with a log of commands, under a limit of one entry per message. -/
def oneAtATime (entries : List Entry) : Core :=
  Core.restore { Config.new 0 with maxEntriesPerMsg := 1 }
    { Core.initialPersistent [0, 1] with
      term := 1
      log := { Log.empty with entries := entries } }

/-- With one entry the limit is kept. -/
theorem batch_limit_iff_single :
    let core := oneAtATime [⟨1, 1, .command [7]⟩]
    let l := { Leader.initial core with nextIndex := IndexMap.empty.insert 1 1 }
    Leader.KeepsLimit core 1 (l.sendAppendTo64 core 1).2 := by
  intro core l
  have hcont : core.log.Contiguous := (show core.log.Plain by decide).contiguous
  exact (@batch_limit_iff l core 1 hcont (by decide) (by decide) (by decide) (by decide)).2
    (.inr (.inr (by decide)))

/-- **A batch exceeds the limit**: with two entries for the peer both are sent. -/
theorem batch_exceeds_limit :
    let core := oneAtATime [⟨1, 1, .command [7]⟩, ⟨1, 2, .command [8]⟩]
    let l := { Leader.initial core with nextIndex := IndexMap.empty.insert 1 1 }
    core.log.Contiguous ∧ (l.sendAppendTo64 core 1).2 = (l.sendAppendTo core 1).2 ∧
      (l.sendAppendTo core 1).2.messages =
        [⟨0, 1, 1, .appendRequest ⟨0, 0, [⟨1, 1, .command [7]⟩, ⟨1, 2, .command [8]⟩], 0⟩⟩] ∧
      ¬Leader.KeepsLimit core 1 (l.sendAppendTo64 core 1).2 := by
  intro core l
  have hcont : core.log.Contiguous := (show core.log.Plain by decide).contiguous
  have hsent : (l.sendAppendTo64 core 1).2.messages =
      [⟨0, 1, 1, .appendRequest ⟨0, 0, [⟨1, 1, .command [7]⟩, ⟨1, 2, .command [8]⟩], 0⟩⟩] := by
    decide +kernel
  refine ⟨hcont, by rw [Leader.sendAppendTo64_eq hcont (by decide) (by decide)], by decide +kernel,
    fun h => ?_⟩
  have hle := (h _ (by rw [hsent]; exact List.mem_singleton.2 rfl) _ rfl).1
  exact absurd hle (by decide)

end Cloud9
