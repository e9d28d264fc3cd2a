import Cloud9.Node.Runtime
import Cloud9.Raft.Cluster
import Cloud9.Raft.Durable

/-!
# Write-ahead discipline

Whenever the runtime hands out a message, the store holds the persistent state of the node. A call
begins with both equal. If the effects do not ask to persist, nothing has changed; if they do, the
save comes before the messages.

This needs the effects to announce every change, and so that accepted append requests skip no index
(`write_ahead`). A request that does can leave a log whose entries are not at their indices. A later
request then cuts a suffix off without appending anything, and the loss is announced to the leader
but not saved (`unsaved_truncation`).
-/

namespace Cloud9

/-- The append requests the node accepts skip no index. -/
def Runtime.gapless (r : Runtime) (input : RuntimeInput) : Bool :=
  (r.event? input).all r.node.gapless

/-- The save of the call, if there is one, does not fail. -/
def Report.saved (report : Report) : Bool :=
  match report.outcome with
  | some (.failed (.store _)) => false
  | _ => true

def Journal.saves (f : Formats) (j : Journal) (input : RuntimeInput) : Bool :=
  (j.call f input).all fun (_, report) => report.saved

/-- The store holds the node's persistent state, and held it at every handover. -/
structure Journal.Recorded (j : Journal) : Prop where
  contiguous : j.runtime.node.core.log.Contiguous
  snapshot : j.runtime.node.core.log.snapshotIndex = 0
  durable : j.runtime.store.durable = j.runtime.node.persistent
  handed : ∀ h ∈ j.handed, h.durable = h.persistent

namespace Runtime

variable {f : Formats} {r r₀ : Runtime} {input : RuntimeInput} {effects : Effects}
  {ticket : Option Ticket}

/-- What the first half of a call does to the persistent state. -/
theorem Begins.covers (h : Begins f r input r₀ effects ticket)
    (hcont : r.node.core.log.Contiguous) (hsnap : r.node.core.log.snapshotIndex = 0)
    (hgap : r.gapless input = true) :
    r₀.store = r.store ∧ effects.Covers r.node.core r₀.node.core ∧
      r₀.node.core.log.Contiguous := by
  cases h with
  | event hevent =>
    rw [gapless, hevent, Option.all_some] at hgap
    exact ⟨rfl, RaftNode.stepEvent_covers hcont hsnap hgap,
      RaftNode.stepEvent_contiguous hcont hsnap hgap⟩
  | propose _ _ _ hpropose =>
    exact ⟨rfl, .of_persist (RaftNode.propose_persist hpropose),
      RaftNode.propose_contiguous hcont hpropose⟩

/-- After a save that did not fail the store holds what the node holds, and the snapshot is the
same. -/
theorem Saves.durable {store : RaftStore} (h : r₀.Saves effects store)
    (hcovers : effects.Covers r.node.core r₀.node.core) (hstore : r₀.store = r.store)
    (hdurable : r.store.durable = r.node.persistent) :
    store.durable = r₀.node.persistent ∧
      r₀.node.core.log.snapshotIndex = r.node.core.log.snapshotIndex := by
  have hlog : r₀.store.durable.log = r.node.core.log := by
    rw [hstore, hdurable]
    rfl
  cases hpersist : effects.persist with
  | true =>
    obtain ⟨hsaved, hsnap⟩ := h.saved hpersist
    rw [hlog] at hsnap
    exact ⟨hsaved, hsnap⟩
  | false =>
    have hkept : r₀.node.persistent = r.node.persistent := hcovers hpersist
    rw [h.kept hpersist, hstore, hdurable, hkept]
    exact ⟨rfl, congrArg (fun p => p.log.snapshotIndex) hkept⟩

/-- What `handle_effects` leaves, if the save does not fail. -/
theorem handleEffects_durable (hcovers : effects.Covers r.node.core r₀.node.core)
    (hstore : r₀.store = r.store) (hdurable : r.store.durable = r.node.persistent)
    {env : CallEnv} {out : Runtime × List Handover × List Applied × Outcome}
    (hout : r₀.handleEffects f effects env = out) (hsaved : ∀ e, out.2.2.2 ≠ .failed (.store e)) :
    out.1.store.durable = out.1.node.persistent ∧ out.1.node.core.log = r₀.node.core.log ∧
      r₀.node.core.log.snapshotIndex = r.node.core.log.snapshotIndex ∧
      ∀ h ∈ out.2.1, h.durable = h.persistent := by
  have hhandles := r₀.handleEffects_handles f effects env
  rw [hout] at hhandles
  cases hhandles with
  | unsaved store e => exact absurd rfl (hsaved e)
  | stopped store handed e hsaves hhands =>
    obtain ⟨hheld, hsnap⟩ := hsaves.durable hcovers hstore hdurable
    exact ⟨hheld, rfl, hsnap, fun h hmem =>
      ((hhands h hmem).2.1.trans hheld).trans (hhands h hmem).2.2.symm⟩
  | applied store handed hsaves hhands =>
    obtain ⟨hheld, hsnap⟩ := hsaves.durable hcovers hstore hdurable
    obtain ⟨hkept, -, -, k, hnode⟩ :=
      ({ r₀ with store := store } : Runtime).applyCommitted_frame f env.cancelAt
    refine ⟨?_, ?_, hsnap, fun h hmem =>
      ((hhands h hmem).2.1.trans hheld).trans (hhands h hmem).2.2.symm⟩
    · rw [hkept, hnode]
      exact hheld
    · rw [hnode]
      rfl

end Runtime

theorem Journal.recorded_start {f : Formats} {config : NodeConfig} {d d' : Dir} {r : Runtime}
    (h : Runtime.open f config d = (d', .ok r)) : (Journal.start r).Recorded := by
  obtain ⟨hr, hplain⟩ := Runtime.open_start h
  rw [hr]
  exact ⟨hplain.contiguous, hplain.snapshotIndex, rfl, fun _ hmem => absurd hmem List.not_mem_nil⟩

namespace Journal

variable {f : Formats} {j j' : Journal} {input : RuntimeInput}

theorem Recorded.record (h : j.Recorded) {r : Runtime} {report : Report}
    (hcont : r.node.core.log.Contiguous) (hsnap : r.node.core.log.snapshotIndex = 0)
    (hdurable : r.store.durable = r.node.persistent)
    (hhanded : ∀ h ∈ report.handed, h.durable = h.persistent) : (j.record r report).Recorded := by
  refine ⟨hcont, hsnap, hdurable, fun x hx => ?_⟩
  rcases List.mem_append.1 hx with hold | hnew
  · exact h.handed x hold
  · exact hhanded x hnew

/-- **One input.** -/
theorem Recorded.call (h : j.Recorded) {r' : Runtime} {report : Report}
    (hcall : Runtime.Call f j.runtime input r' report) (hgap : j.runtime.gapless input = true)
    (hsaved : report.saved = true) : (j.next input r' report).Recorded := by
  cases hcall with
  | idle hrests hhanded _ _ _ hlive =>
    rw [next_of_live hlive]
    refine h.record ?_ ?_ ?_ ?_
    · rw [hrests.node]
      exact h.contiguous
    · rw [hrests.node]
      exact h.snapshot
    · rw [hrests.store, hrests.node]
      exact h.durable
    · rw [hhanded]
      exact fun _ hmem => absurd hmem List.not_mem_nil
  | handled hbegins hhandles hrests houtcome hlive =>
    rw [next_of_live hlive]
    obtain ⟨hstore, hcovers, hcont⟩ := hbegins.covers h.contiguous h.snapshot hgap
    obtain ⟨hdurable, hlog, hsnap, hhanded⟩ :=
      Runtime.handleEffects_durable hcovers hstore h.durable hhandles fun e heq => by
        subst heq
        simp [Report.saved, houtcome] at hsaved
    refine h.record ?_ ?_ ?_ hhanded
    · rw [hrests.node, hlog]
      exact hcont
    · rw [hrests.node, hlog, hsnap]
      exact h.snapshot
    · rw [hrests.store, hrests.node]
      exact hdurable
  | restart hinput hopen _ =>
    subst hinput
    have hstart := recorded_start hopen
    exact ⟨hstart.contiguous, hstart.snapshot, hstart.durable, h.handed⟩

theorem Recorded.step (h : j.Recorded)
    (hok : (j.runtime.gapless input && j.saves f input) = true) (hstep : j.step f input = some j') :
    j'.Recorded := by
  rw [Bool.and_eq_true] at hok
  obtain ⟨⟨r', report⟩, hcall, rfl⟩ := Option.map_eq_some_iff.1 hstep
  have hsaved := hok.2
  rw [saves, hcall, Option.all_some] at hsaved
  exact h.call (call_spec hcall) hok.1 hsaved

end Journal

/-- **Write-ahead discipline.** In a run in which no save fails and the append requests the node
accepts skip no index, whenever a message is handed out the store holds the persistent state of the
node. In every state of such a run the effects of the next event or proposal ask to persist if it
changes the persistent state. -/
theorem write_ahead {f : Formats} {config : NodeConfig} {d d' : Dir} {r : Runtime}
    {inputs : List RuntimeInput} {j : Journal} (hopen : Runtime.open f config d = (d', .ok r))
    (hrun : (Journal.start r).run f
      (fun j input => j.runtime.gapless input && j.saves f input) inputs = some j) :
    (∀ h ∈ j.handed, h.durable = h.persistent) ∧
    (∀ event, j.runtime.node.gapless event = true → (j.runtime.node.stepEvent event).2.Covers
      j.runtime.node.core (j.runtime.node.stepEvent event).1.core) ∧
    ∀ cmd node result, j.runtime.node.propose cmd = some (node, result) →
      (Cluster.effectsOf result).Covers j.runtime.node.core node.core := by
  have h : j.Recorded :=
    runWhile_invariant (fun h hok hstep => Journal.Recorded.step h hok hstep)
      (Journal.recorded_start hopen) hrun
  refine ⟨h.handed, fun event hgap => RaftNode.stepEvent_covers h.contiguous h.snapshot hgap,
    fun cmd node result hpropose => ?_⟩
  rcases RaftNode.propose_core hpropose with ⟨e, rfl, rfl⟩ | ⟨effects, rfl, -⟩
  · exact .refl
  · exact .of_persist (RaftNode.propose_persist hpropose)

/-- An append request of node 1 to node 0 that starts at the beginning of the log. -/
def requestFrom (term : ℕ) (entries : List Entry) (leaderCommit : ℕ) : RuntimeInput :=
  .receive ⟨1, 0, term, .appendRequest ⟨0, 0, entries, leaderCommit⟩⟩ {}

/-- Three entries in sequence. -/
def threeEntries : RuntimeInput :=
  requestFrom 1 [⟨1, 1, .command KvCommand.readBarrier.toJson⟩,
    ⟨1, 2, .command KvCommand.readBarrier.toJson⟩, ⟨1, 3, .command KvCommand.readBarrier.toJson⟩] 0

/-- A follower takes three entries and, in the next term, another one in the place of the second. -/
theorem write_ahead_follower : ∃ d r j,
    Runtime.open jsonFormats (trioConfig (Config.new 0) 0) Dir.empty = (d, .ok r) ∧
    (Journal.start r).run jsonFormats
      (fun j input => j.runtime.gapless input && j.saves jsonFormats input)
      [threeEntries, .tick {},
        requestFrom 2 [⟨2, 2, .command KvCommand.registerSession.toJson⟩] 0] = some j ∧
    j.handed.length = 2 ∧ ∀ h ∈ j.handed, h.durable = h.persistent := by
  obtain ⟨d, r, j, hopen, hrun, hlength⟩ := @Journal.exists_of_runFresh jsonFormats
    (trioConfig (Config.new 0) 0)
    (fun j input => j.runtime.gapless input && j.saves jsonFormats input)
    [threeEntries, .tick {}, requestFrom 2 [⟨2, 2, .command KvCommand.registerSession.toJson⟩] 0]
    (fun j => decide (j.handed.length = 2)) (by decide +kernel)
  exact ⟨d, r, j, hopen, hrun, of_decide_eq_true hlength, (write_ahead hopen hrun).1⟩

/-- The log is replaced, from index 1 on, by entries with the indices 1, 9 and 10; then a request
has another term at index 3. -/
def skippingRequests : List RuntimeInput :=
  [threeEntries,
    requestFrom 2 [⟨2, 1, .command KvCommand.readBarrier.toJson⟩,
      ⟨1, 9, .command KvCommand.readBarrier.toJson⟩,
      ⟨1, 10, .command KvCommand.readBarrier.toJson⟩] 0,
    requestFrom 2 [⟨2, 3, .command KvCommand.readBarrier.toJson⟩] 0]

/-- **A request that skips indices breaks the discipline.** The second request leaves the entry of
index 10 in the third place. The third request finds another term there and cuts this entry off, but
its own entry is not beyond the last index, which is now 9. So nothing is appended, and the answer
goes out while the store still holds three entries. -/
theorem unsaved_truncation : ∃ d r j,
    Runtime.open jsonFormats (trioConfig (Config.new 0) 0) Dir.empty = (d, .ok r) ∧
    (Journal.start r).run jsonFormats
      (fun j input => j.runtime.snapshotFree input && j.saves jsonFormats input)
      skippingRequests = some j ∧
    ∃ h ∈ j.handed, h.durable ≠ h.persistent := by
  obtain ⟨d, r, j, hopen, hrun, hhanded⟩ := @Journal.exists_of_runFresh jsonFormats
    (trioConfig (Config.new 0) 0)
    (fun j input => j.runtime.snapshotFree input && j.saves jsonFormats input) skippingRequests
    (fun j => j.handed.any fun h => decide (h.durable ≠ h.persistent)) (by decide +kernel)
  obtain ⟨h, hmem, hne⟩ := List.any_eq_true.1 hhanded
  exact ⟨d, r, j, hopen, hrun, h, hmem, of_decide_eq_true hne⟩

end Cloud9
