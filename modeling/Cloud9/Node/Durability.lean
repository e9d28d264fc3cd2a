import Cloud9.Node.Crash
import Cloud9.Raft.LeaderCompleteness

/-!
# What was acknowledged is on disk

A client that was told the result of its command can rely on it. At any moment of a run with crashes
(`Fleet.crashRun`) let every process die, at rest or in the middle of a call, with any part of the
bytes that were not synced lost: a majority of the directories still has the entry
(`acknowledged_durable`).

The entry is committed, so a majority acknowledged it, and a node keeps what it acknowledged
(`Setting.Tracks.covered_majority`). What the directory of a process leads to is the persistent
state of its node before or after the call in which it dies (`Fleet.Survives.open_leaves`).
-/

namespace Cloud9

open World

/-- A process that starts on the directory has the entry in its log. -/
def Dir.recovers (D : Deployment) (f : Formats) (d : Dir) (entry : CommittedEntry) : Bool :=
  match RaftStore.open f.delta d (Core.initialPersistent D.peers.toList) with
  | (_, .ok s) => decide (s.durable.log.get entry.index = some entry.asEntry)
  | (_, .error _) => false

namespace Fleet

variable {D : Deployment} {f : Formats} {fl : Fleet} {id : NodeId}

/-- What a node that follows the history has in memory before and after a call. -/
theorem Survives.left_log (h : fl.Survives D f) {w : History} {l : List Entry}
    (hagrees : fl.Agrees D f w l) {during : Option RuntimeInput}
    (hok : during.all (fl.regular f id) = true) {last : RaftStore}
    (hlast : fl.lastStore f id during = some last) (k : ℕ) : ∃ s w' c',
      RaftStore.open f.delta ((fl.nodes id).runtime.store.leaves last k)
        (Core.initialPersistent D.peers.toList) = (s.wal.dir, .ok s) ∧
      w.Le w' ∧ (D.setting True).Tracks w' c' ∧ s.durable = (c'.nodes id).persistent := by
  obtain ⟨s, -, hopen, -, hdurable⟩ := h.open_leaves hok hlast k
  obtain ⟨c, ht, href⟩ := hagrees.refines
  rcases hdurable with hold | ⟨input, r, report, -, hregular, hcall, hnew⟩
  · exact ⟨s, w, c, hopen, Le.refl w, ht, hold.trans (congrArg _ (href.node id))⟩
  · obtain ⟨hinput, hposs, hverified, -⟩ := regular_spec hregular
    obtain ⟨w', l', hle, -, hagrees'⟩ :=
      hagrees.step hverified (step_eq_some.2 ⟨hposs, r, report, hcall, rfl⟩)
    obtain ⟨c', ht', href'⟩ := hagrees'.refines
    have hnode := href'.node id
    rw [Journal.next_of_live (RuntimeInput.regular_live hinput)] at hnode
    simp only [Fleet.next, Function.update_self, Journal.record] at hnode
    exact ⟨s, w', c', hopen, hle, ht', hnew.trans (congrArg _ hnode)⟩

end Fleet

/-- **What was acknowledged is on the disks of a majority.** In every run of regular calls in which
processes crash and start again, for every result that a client was told: if now all processes die,
each at rest or in the middle of a regular call and with any part of what it did not sync lost, a
majority of them finds the entry in the directory. -/
theorem acknowledged_durable (D : Deployment) (f : Formats) {inputs : List CrashInput} {fl : Fleet}
    (hrun : (Fleet.init D).crashRun f inputs = some fl) {a : Ack} (ha : a ∈ fl.acks)
    {during : NodeId → Option RuntimeInput} {last : NodeId → RaftStore} (k : NodeId → ℕ)
    (hok : ∀ id, fl.crashOk f (.crash id (during id) (k id)) = true)
    (hlast : ∀ id, fl.lastStore f id (during id) = some (last id)) :
    (Configuration.simpleOf D.peers.toList).hasQuorum (fun id =>
      ((fl.nodes id).runtime.store.leaves (last id) (k id)).recovers D f a.entry) = true := by
  obtain ⟨acts, spec, -, hshadows, hsurvives⟩ := Fleet.matched_run hrun
  obtain ⟨w, l, hagrees⟩ := hsurvives.agrees
  obtain ⟨hpos, hentry, -⟩ := hagrees.acked_entry (hshadows.acks ha)
  have hlen := (List.getElem?_eq_some_iff.1 hentry).1
  obtain ⟨T, hdecided⟩ := hagrees.decided
  obtain ⟨c, ht, -⟩ := hagrees.refines
  obtain ⟨q, hquorum, hheld⟩ := ht.covered_majority (fun h => by cases h) hdecided (by omega)
  refine Configuration.hasQuorum_mono (fun id hid => ?_) hquorum
  have hok' : (during id).all (spec.regular f id) = true := by
    refine (Option.all_eq_true _ _).2 fun input hinput => ?_
    exact hshadows.regular ((Option.all_eq_true _ _).1 (hok id) input hinput)
  have hlast' : spec.lastStore f id (during id) = some (last id) := by
    rw [hshadows.lastStore_eq, hlast id]
  obtain ⟨s, w', c', hopen, hle, ht', hdurable⟩ := hsurvives.left_log hagrees hok' hlast' (k id)
  rw [← hshadows.runtime id] at hopen
  simp only [Dir.recovers, hopen, hdurable]
  refine decide_eq_true ?_
  rw [← hentry]
  exact (ht'.plain id).get_of_covers hpos (by omega) le_rfl (hheld id hid w' c' hle ht')

/-- Node 0 of the trio is elected, takes two registrations and commits them with node 2; node 1,
which has missed all this, dies and starts again. -/
def registerTwice : List CrashInput :=
  (registerZero ++ replicateBoth).map (fun act => .call act.1 act.2) ++ [.crash 1 none 0]

/-- Node 0 is in the middle of a third registration, the other processes are at rest. -/
def thirdRegistration (id : NodeId) : Option RuntimeInput :=
  if id = 0 then some (.propose .registerSession {}) else none

theorem acknowledged_durable_trio : ∃ (fl : Fleet) (last : NodeId → RaftStore), ∃ a ∈ fl.acks,
    (Fleet.init trioDeployment).crashRun jsonFormats registerTwice = some fl ∧
    (∀ id, fl.lastStore jsonFormats id (thirdRegistration id) = some (last id)) ∧
    (Configuration.simpleOf trioDeployment.peers.toList).hasQuorum (fun id =>
      ((fl.nodes id).runtime.store.leaves (last id) 0).recovers trioDeployment jsonFormats
        a.entry) = true := by
  have hrun : ((Fleet.init trioDeployment).crashRun jsonFormats registerTwice).any (fun fl =>
      fl.acks.head?.isSome && fl.crashOk jsonFormats (.crash 0 (thirdRegistration 0) 0) &&
        (fl.lastStore jsonFormats 0 (thirdRegistration 0)).isSome) = true := by
    decide +kernel
  obtain ⟨fl, hfl, hfacts⟩ := (Option.any_eq_true _ _).1 hrun
  simp only [Bool.and_eq_true] at hfacts
  obtain ⟨⟨hacks, hok⟩, hsome⟩ := hfacts
  obtain ⟨a, ha⟩ := Option.isSome_iff_exists.1 hacks
  have hlast : ∀ id, ∃ last, fl.lastStore jsonFormats id (thirdRegistration id) = some last := by
    intro id
    rcases eq_or_ne id 0 with rfl | hne
    · exact Option.isSome_iff_exists.1 hsome
    · rw [thirdRegistration, if_neg hne]
      exact ⟨_, rfl⟩
  choose last hlast using hlast
  refine ⟨fl, last, a, List.mem_of_mem_head? ha, hfl, hlast,
    acknowledged_durable trioDeployment jsonFormats hfl (List.mem_of_mem_head? ha) (fun _ => 0)
      (fun id => ?_) hlast⟩
  rcases eq_or_ne id 0 with rfl | hne
  · exact hok
  · rw [thirdRegistration, if_neg hne]
    rfl

end Cloud9
