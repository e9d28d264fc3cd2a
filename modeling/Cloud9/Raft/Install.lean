import Cloud9.Raft.Intact

/-!
# Installing a snapshot

`Follower.handle_install_snapshot` compares the snapshot with three positions (the snapshot there
is, the commit index and the last applied index) and keeps or discards the entries above it after
comparing one term, which reads as 0 outside the log.

**Theorem (`install_snapshot_keeps_committed`).** On a contiguous log no position moves back, the
committed entries above the snapshot stay, and a refusal changes nothing. The configurations at the
indices of these entries are read from what is kept, or from the snapshot that was installed. The
node that refuses an older snapshot keeps its own (`refused_snapshot_configuration`).
-/

namespace Cloud9

/-- Nothing is applied that is not committed, and nothing committed that is not in the log. -/
structure Core.Ordered (core : Core) : Prop where
  applied : core.lastApplied ≤ core.commitIndex
  commit : core.commitIndex ≤ core.log.lastIndex

/-- None of the three positions has moved back. -/
structure Core.Forward (core core' : Core) : Prop where
  applied : core.lastApplied ≤ core'.lastApplied
  commit : core.commitIndex ≤ core'.commitIndex
  snapshot : core.log.snapshotIndex ≤ core'.log.snapshotIndex

namespace Core.Steady

variable {core core' : Core}

theorem ordered (h : core.Steady core') (ho : core.Ordered) : core'.Ordered := by
  refine ⟨?_, ?_⟩
  · rw [h.lastApplied, h.commitIndex]
    exact ho.applied
  · rw [h.commitIndex, h.log]
    exact ho.commit

theorem forward {core₀ : Core} (h : core.Steady core') (hf : core₀.Forward core) :
    core₀.Forward core' := by
  refine ⟨?_, ?_, ?_⟩
  · rw [h.lastApplied]
    exact hf.applied
  · rw [h.commitIndex]
    exact hf.commit
  · rw [h.log]
    exact hf.snapshot

theorem configAt (h : core.Steady core') (i : ℕ) : core'.configAt i = core.configAt i := by
  have hlog : core'.persistent.log = core.persistent.log := h.log
  rw [Core.configAt, hlog, h.boot, Core.configAt]

end Core.Steady

namespace Follower

variable {core : Core} {req : InstallSnapshotRequest}

theorem acceptSnapshot_ordered (hcont : core.log.Contiguous) (ho : core.Ordered)
    (hinst : Installs core req) : (acceptSnapshot core req).Ordered :=
  ⟨Nat.max_le.2 ⟨Nat.le_trans ho.applied (Nat.le_max_left _ _), Nat.le_max_right _ _⟩,
    acceptSnapshot_commit hcont ho.commit hinst⟩

theorem acceptSnapshot_forward (hinst : Installs core req) :
    core.Forward (acceptSnapshot core req) := by
  refine ⟨Nat.le_max_left _ _, Nat.le_max_left _ _, ?_⟩
  show core.log.snapshotIndex ≤ (core.log.installSnapshot _ _ _).snapshotIndex
  rw [Log.Contiguous.installSnapshot_snapshotIndex hinst.1]
  exact Nat.le_of_lt hinst.1

/-- The configuration at an index whose entry is kept: the latest one of the kept entries up to it,
else the snapshot's. -/
theorem acceptSnapshot_configAt (hcont : core.log.Contiguous) (hinst : Installs core req) {i : ℕ}
    (hlo : req.lastIncludedIndex < i) (hhi : i ≤ core.commitIndex) :
    (acceptSnapshot core req).configAt i =
      (Log.lastConfig (core.log.slice (req.lastIncludedIndex + 1) i)).getD req.configuration := by
  have hmatch := hinst.2 (Nat.lt_of_lt_of_le hlo hhi)
  have hidx := hinst.1
  have hlog : (acceptSnapshot core req).persistent.log =
      ⟨core.log.entries.drop (req.lastIncludedIndex - core.log.snapshotIndex),
        req.lastIncludedIndex, req.lastIncludedTerm, some req.configuration⟩ := by
    show core.log.installSnapshot _ _ _ = _
    rw [Log.installSnapshot, if_pos hmatch, Log.Contiguous.truncatePrefix_eq hidx]
  have hkept : (core.log.entries.drop (req.lastIncludedIndex - core.log.snapshotIndex)).take
      (i - req.lastIncludedIndex) = core.log.slice (req.lastIncludedIndex + 1) i := by
    rw [hcont.slice (by omega), List.take_drop]
    congr 1
    · omega
    · congr 1
      omega
  have hnot : ¬i ≤ req.lastIncludedIndex := by omega
  have hstop : i - req.lastIncludedIndex - 1 + 1 = i - req.lastIncludedIndex := by omega
  rw [Core.configAt, hlog]
  simp only [Log.configAt, Log.toVecIndex, hnot, if_false, Option.map_some, Option.getD_some, hstop]
  rw [← List.take_eq_take_min, hkept]
  cases Log.lastConfig (core.log.slice (req.lastIncludedIndex + 1) i) <;> rfl

/-- A message of the current term goes straight to its handler. -/
theorem step_installSnapshot (f : Follower) {msg : Message} (hterm : msg.term = core.term)
    (hreq : msg.payload = .installSnapshotRequest req) :
    f.step core (.message msg) = f.handleInstallSnapshot core msg.from req := by
  simp [step, handleMessage, adoptTerm, dispatch, hreq, hterm, Payload.isVoteOrPreVoteRequest]

/-- What a request to install a snapshot of the node's term comes to. -/
structure Installed (core : Core) (req : InstallSnapshotRequest) (core' : Core) (success : Bool) :
    Prop where
  ordered : core'.Ordered
  forward : core.Forward core'
  /-- Committed entries above the snapshot stay. -/
  entries : ∀ i, req.lastIncludedIndex < i → i ≤ core.commitIndex → core'.log.get i = core.log.get i
  /-- With the snapshot installed, the configuration there is the latest one of the kept entries,
  else the one of the request. -/
  configuration : success = true → ∀ i, req.lastIncludedIndex < i → i ≤ core.commitIndex →
    core'.configAt i =
      (Log.lastConfig (core.log.slice (req.lastIncludedIndex + 1) i)).getD req.configuration
  refused : success = false → core'.log = core.log ∧ core'.commitIndex = core.commitIndex ∧
    core'.lastApplied = core.lastApplied

end Follower

/-- **A snapshot never discards a committed suffix.** For every follower with a contiguous log and
every request of its term, the answer tells whether the snapshot was installed, and either way what
is committed above it stays. -/
theorem install_snapshot_keeps_committed (f : Follower) {core : Core} (hcont : core.log.Contiguous)
    (happlied : core.lastApplied ≤ core.commitIndex)
    (hcommit : core.commitIndex ≤ core.log.lastIndex)
    {msg : Message} {req : InstallSnapshotRequest} (hterm : msg.term = core.term)
    (hreq : msg.payload = .installSnapshotRequest req) :
    ∃ success, (f.step core (.message msg)).2.2.effects.messages =
        [core.message msg.from (.installSnapshotResponse ⟨success, req.lastIncludedIndex⟩)] ∧
      Follower.Installed core req (f.step core (.message msg)).2.1 success := by
  have ho : core.Ordered := ⟨happlied, hcommit⟩
  rw [f.step_installSnapshot hterm hreq]
  rcases f.handleInstallSnapshot_cases core msg.from req with
    ⟨hsteady, hanswer⟩ | ⟨hinst, hsteady, hanswer⟩
  · refine ⟨false, hanswer, hsteady.ordered ho, hsteady.forward ⟨le_rfl, le_rfl, le_rfl⟩, ?_, nofun,
      fun _ => ⟨hsteady.log, hsteady.commitIndex, hsteady.lastApplied⟩⟩
    intro i _ _
    rw [hsteady.log]
  · refine ⟨true, hanswer, hsteady.ordered (Follower.acceptSnapshot_ordered hcont ho hinst),
      hsteady.forward (Follower.acceptSnapshot_forward hinst), ?_, ?_, nofun⟩
    · intro i hlo hhi
      rw [hsteady.log]
      exact Follower.acceptSnapshot_get hcont hinst hlo hhi
    · intro _ i hlo hhi
      rw [hsteady.configAt]
      exact Follower.acceptSnapshot_configAt hcont hinst hlo hhi

/-- A core of node 0, of term 1, with the given log, commit index and applied index. -/
def coreWith (log : Log) (commitIndex lastApplied : ℕ) : Core :=
  { Core.restore (Config.new 0) ⟨1, none, log, .simpleOf [0, 1, 2]⟩ with
    commitIndex := commitIndex, lastApplied := lastApplied }

/-- A snapshot of the first of three entries: the other two, one of them a configuration, are
committed and stay. -/
theorem install_snapshot_keeps_three :
    let log : Log := ⟨[⟨1, 1, .command [1]⟩, ⟨1, 2, .config (.simpleOf [0, 1])⟩,
      ⟨1, 3, .command [3]⟩], 0, 0, none⟩
    let req : InstallSnapshotRequest := ⟨1, 1, .simpleOf [0, 1, 2]⟩
    let step := Follower.step ⟨none, 0, none⟩ (coreWith log 3 2)
      (.message ⟨1, 0, 1, .installSnapshotRequest req⟩)
    step.2.1.log.snapshotIndex = 1 ∧
      ∃ success, Follower.Installed (coreWith log 3 2) req step.2.1 success := by
  intro log req step
  have hcont : log.Contiguous := by
    apply Log.Plain.contiguous
    exact ⟨rfl, rfl, rfl, by unfold Log.Indexed; decide⟩
  obtain ⟨success, -, h⟩ := @install_snapshot_keeps_committed ⟨none, 0, none⟩
    (coreWith log 3 2) hcont (by decide) (by decide) ⟨1, 0, 1, .installSnapshotRequest req⟩ req
    rfl rfl
  exact ⟨by decide +kernel, success, h⟩

/-- **A refused snapshot does not lend its configuration.** The node has a newer snapshot, so it
refuses, and its committed entry above the request's index keeps the configuration of its own
snapshot. -/
theorem refused_snapshot_configuration : ∃ (f : Follower) (core : Core) (msg : Message)
    (req : InstallSnapshotRequest), core.log.Contiguous ∧ core.Ordered ∧ msg.term = core.term ∧
      msg.payload = .installSnapshotRequest req ∧ ∃ i, req.lastIncludedIndex < i ∧
        i ≤ core.commitIndex ∧ (f.step core (.message msg)).2.1.configAt i ≠
          (Log.lastConfig (core.log.slice (req.lastIncludedIndex + 1) i)).getD
            req.configuration := by
  let log : Log := ⟨[⟨1, 2, .command [1]⟩], 1, 1, some (.simpleOf [0, 1, 2])⟩
  let req : InstallSnapshotRequest := ⟨1, 1, .simpleOf [0, 1]⟩
  refine ⟨⟨none, 0, none⟩, coreWith log 2 1, ⟨1, 0, 1, .installSnapshotRequest req⟩, req, ?_,
    ⟨by decide, by decide⟩, rfl, rfl, 2, by decide, by decide, by decide +kernel⟩
  intro i e he
  rcases i with _ | i
  · cases he
    rfl
  · cases he

end Cloud9
