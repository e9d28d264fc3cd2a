import Cloud9.Node.Replicas
import Cloud9.Node.WriteAhead

/-!
# Crashes

A process can die at any moment, and starts again on the directory it leaves. In `Fleet` a process
that restarts finds the persistent state its node had in memory. Here it finds what is on disk: it
may have died in the middle of a save, and the file it was writing to may end anywhere in the
record.

`crash_recovers` says that such a process always comes up again, in the state before the call in
which it died or in the state that this call was about to save. In the first case the crash looks
like a restart before the call, in the second like one right after it, with the messages of the call
lost. So a run with crashes is, to the nodes, a run of `Fleet` (`crash_refines`), and what is proved
of those holds for it.

These runs are made of calls that are possible, whose accepted append requests are verified and
whose saves do not fail (`Fleet.regular`), and of crashes at rest or during such a call. What
becomes of the log when a save fails is `Cloud9.Wal.Faults`.
-/

namespace Cloud9

open World

/-! ## What a crash leaves -/

namespace RaftStore

variable {format : Serializer PersistentDelta} {initial : Persistent}

/-- The directory when the process dies in the save that takes `s` to `s'`: the file is there up to
byte `k`. What was there before is synced. -/
def leaves (s s' : RaftStore) (k : ℕ) : Dir :=
  let start := if s'.wal.activeId = s.wal.activeId then s.wal.activeLen else 0
  s'.wal.dir.update s'.wal.activeId (·.truncate (max start k))

/-- **What is left of a store can be opened.** -/
theorem Holds.open_leaves {s s' : RaftStore} {l : Layout} (h : Holds format initial s l)
    (hsaved : s' = s ∨ ∃ p, s.durable.Precedes p ∧ s.save format {} p = (.ok (), s')) (k : ℕ) :
    ∃ s'' l'', RaftStore.open format (s.leaves s' k) initial = (s''.wal.dir, .ok s'') ∧
      Holds format initial s'' l'' ∧ (s''.durable = s.durable ∨ s''.durable = s'.durable) := by
  rcases hsaved with rfl | ⟨p, hprec, hsave⟩
  · -- nothing was written
    have hlen : l.full.length ≤ max s'.wal.activeLen k := by
      rw [← h.laid.activeLen h.healthy]
      exact Nat.le_max_left _ _
    have hreplay := h.replayed
    rw [Layout.stored, ← h.laid.framed.whole_of_le hlen] at hreplay
    obtain ⟨s'', l'', hopen, h'', hdurable⟩ := h.reopen _ hreplay
    refine ⟨s'', l'', ?_, h'', .inl hdurable⟩
    rw [leaves, if_pos rfl]
    exact hopen
  · obtain ⟨l', r, h', hadds, hdurable, hplace⟩ := save_adds h hprec hsave
    have hid : r.lsn.segmentId = s'.wal.activeId := by
      obtain ⟨frames, g, -, rfl, -⟩ := hadds
      exact h'.laid.activeId.symm
    have hoffset : r.lsn.offset ≤ max (if s'.wal.activeId = s.wal.activeId then s.wal.activeLen
        else 0) k := by
      rcases hplace with hsame | hnext
      · rw [← hid, hsame, if_pos rfl]
        exact Nat.le_max_left _ _
      · rw [hnext]
        exact Nat.zero_le _
    obtain ⟨s'', l'', hopen, h'', heq⟩ := h.reopen_cut h' hadds hoffset
    refine ⟨s'', l'', hopen, h'', ?_⟩
    rw [heq]
    exact (ite_eq_or_eq _ _ _).symm

end RaftStore

/-! ## The saves of a call -/

deriving instance DecidableEq for AppendFaults, SaveFaults

/-- A call of a process, in which the file system does not fail. -/
def RuntimeInput.regular : RuntimeInput → Bool
  | .tick env | .receive _ env | .propose _ env => decide (env.saveFaults = {})
  | .giveUp .. => true
  | .restart _ => false

theorem RuntimeInput.regular_live {input : RuntimeInput} (h : input.regular = true) (d : Dir) :
    input ≠ .restart d := by
  rintro rfl
  cases h

namespace Runtime

variable {f : Formats} {r r' : Runtime} {effects : Effects} {env : CallEnv} {report : Report}

/-- The store is as before, or holds what the node holds now. -/
def Keeps (f : Formats) (store : RaftStore) (r : Runtime) : Prop :=
  r.store = store ∨ store.save f.delta {} r.node.persistent = (.ok (), r.store)

theorem handleEffects_keeps (hfaults : env.saveFaults = {})
    {out : Runtime × List Handover × List Applied × Outcome}
    (hout : r.handleEffects f effects env = out) (hsaved : ∀ e, out.2.2.2 ≠ .failed (.store e)) :
    out.1.Keeps f r.store := by
  have hpersist : ∀ {r' : Runtime}, r.persist f effects env.saveFaults = (.ok (), r') →
      r'.Keeps f r.store := by
    intro r' h
    unfold persist at h
    split_ifs at h
    · rw [hfaults] at h
      generalize hsave : r.store.save f.delta {} r.node.persistent = saved at h
      obtain ⟨result, store⟩ := saved
      cases h
      exact .inr hsave
    · cases h
      exact .inl rfl
  unfold handleEffects at hout
  split at hout
  · next e r₁ _ =>
    subst hout
    exact absurd rfl (hsaved e)
  · next r₁ hok =>
    have hkeeps := hpersist hok
    split_ifs at hout
    · subst hout
      exact hkeeps
    · split at hout
      · subst hout
        exact hkeeps
      · subst hout
        obtain ⟨hstore, -, -, k, hnode⟩ := r₁.applyCommitted_frame f env.cancelAt
        show Keeps f r.store (r₁.applyCommitted f env.cancelAt).1
        rw [Keeps, hstore, hnode]
        exact hkeeps

theorem Keeps.rests {store : RaftStore} (h : r.Keeps f store) (hrests : r.Rests r') :
    r'.Keeps f store := by
  rw [Keeps, hrests.store, hrests.node]
  exact h

theorem drive_keeps {event : Event} (hfaults : env.saveFaults = {}) (hsaved : report.saved = true)
    (h : r.drive f event env = some (r', report)) : r'.Keeps f r.store := by
  unfold drive at h
  cases hhealthy : r.ensureHealthy env with
  | error e =>
    simp only [hhealthy, Option.some.injEq, Prod.mk.injEq] at h
    exact .inl (congrArg store h.1.symm)
  | ok u =>
    simp only [hhealthy] at h
    split_ifs at h
    · cases h
      exact .inl rfl
    · generalize hout : ({ r with node := (r.node.stepEvent event).1 } : Runtime).handleEffects f
        (r.node.stepEvent event).2 env = out at h
      have hkeeps := handleEffects_keeps hfaults hout
      obtain ⟨r₁, handed, applied, outcome⟩ := out
      cases outcome with
      | done =>
        cases h
        exact hkeeps fun e heq => by cases heq
      | failed e =>
        cases h
        refine (hkeeps fun e heq => ?_).rests (Rests.refl _).fail
        cases heq
        cases hsaved
      | cancelled =>
        cases h
        exact hkeeps fun e heq => by cases heq
      | spinning => cases h

theorem propose_keeps {command : KvCommand} (hfaults : env.saveFaults = {})
    (hsaved : report.saved = true) (h : r.propose f command env = some (r', report)) :
    r'.Keeps f r.store := by
  unfold propose at h
  cases hhealthy : r.ensureHealthy env with
  | error e =>
    simp only [hhealthy, Option.some.injEq, Prod.mk.injEq] at h
    exact .inl (congrArg store h.1.symm)
  | ok u =>
    simp only [hhealthy] at h
    cases hnext : checkedSucc r.nextProposalId with
    | none =>
      simp only [hnext, Option.some.injEq, Prod.mk.injEq] at h
      exact .inl (congrArg store h.1.symm)
    | some next =>
      simp only [hnext] at h
      cases hbytes : f.command.encode command with
      | none =>
        simp only [hbytes, Option.some.injEq, Prod.mk.injEq] at h
        obtain ⟨rfl, -⟩ := h
        exact .inl rfl
      | some bytes =>
        simp only [hbytes] at h
        split_ifs at h
        · cases h
          exact .inl rfl
        · rcases hpropose : r.node.propose bytes with _ | ⟨node, e | ⟨index, effects⟩⟩
          · simp [hpropose] at h
          · simp only [hpropose, Option.some.injEq, Prod.mk.injEq] at h
            obtain ⟨rfl, -⟩ := h
            exact .inl rfl
          · simp only [hpropose] at h
            generalize hout : ({ r with
              nextProposalId := next
              node := node
              waiters := Function.update r.waiters index (some ⟨r.nextProposalId, bytes⟩) } :
                Runtime).handleEffects f effects env = out at h
            have hkeeps := handleEffects_keeps hfaults hout
            obtain ⟨r₁, handed, applied, outcome⟩ := out
            cases outcome with
            | done =>
              cases h
              exact hkeeps fun e heq => by cases heq
            | failed e =>
              cases h
              refine (hkeeps fun e heq => ?_).rests (removePending_rests _ _ _).fail
              cases heq
              cases hsaved
            | cancelled =>
              cases h
              exact (hkeeps fun e heq => by cases heq).rests (removePending_rests _ _ _)
            | spinning => cases h

end Runtime

theorem Journal.call_keeps {f : Formats} {j : Journal} {input : RuntimeInput} {r' : Runtime}
    {report : Report} (hregular : input.regular = true) (hsaved : report.saved = true)
    (h : j.call f input = some (r', report)) : r'.Keeps f j.runtime.store := by
  cases input with
  | tick env =>
    simp only [call, Runtime.tickOnce] at h
    exact Runtime.drive_keeps (of_decide_eq_true hregular) hsaved h
  | receive message env =>
    simp only [call, Runtime.receive, Runtime.step] at h
    split at h
    · cases h
      exact .inl rfl
    · exact Runtime.drive_keeps (of_decide_eq_true hregular) hsaved h
  | propose command env =>
    simp only [call] at h
    exact Runtime.propose_keeps (of_decide_eq_true hregular) hsaved h
  | giveUp index id =>
    cases h
    exact .inl (Runtime.removePending_rests _ _ _).store
  | restart d => cases hregular

/-- The persistent states of a node follow each other as a store needs it. -/
theorem Setting.Tracks.precedes {P : Setting} {w w' : History} {c c' : Cluster} (h : P.Tracks w c)
    (h' : P.Tracks w' c') (hle : w.Le w') (id : NodeId) :
    (c.nodes id).persistent.Precedes (c'.nodes id).persistent := by
  have hplain := h.plain id
  have hplain' := h'.plain id
  have hterm : (c.nodes id).term ≤ (c'.nodes id).term := by
    rw [show (c.nodes id).term = w.cur id from (h.node id).term,
      show (c'.nodes id).term = w'.cur id from (h'.node id).term]
    exact hle.cur id
  refine ⟨hplain, hplain', hterm, fun i hi hi' heq => ?_⟩
  have hmatching : Log.Matching (c.nodes id).core.log.entries (c'.nodes id).core.log.entries := by
    rw [show (c.nodes id).core.log.entries = w.log id from (h.node id).log,
      show (c'.nodes id).core.log.entries = w'.log id from (h'.node id).log]
    exact matching_of_rooted ((h.sim.inv.log_rooted id).mono _ hle.tlog) (h'.sim.inv.log_rooted id)
  rcases Nat.eq_zero_or_pos i with rfl | hpos
  · rw [List.take_zero, List.take_zero]
  · rw [show (c.nodes id).persistent.log = (c.nodes id).core.log from rfl, hplain.lastIndex] at hi
    rw [show (c'.nodes id).persistent.log = (c'.nodes id).core.log from rfl,
      hplain'.lastIndex] at hi'
    have hlt : i - 1 < (c.nodes id).core.log.entries.length := by omega
    have hlt' : i - 1 < (c'.nodes id).core.log.entries.length := by omega
    have hat := List.getElem?_eq_getElem hlt
    have hat' := List.getElem?_eq_getElem hlt'
    have heq : (c.nodes id).core.log.termAt i = (c'.nodes id).core.log.termAt i := heq
    rw [hplain.termAt, hplain'.termAt, Log.entryTerm, Log.entryTerm, Log.entryAt, Log.entryAt,
      if_neg (by omega), if_neg (by omega), hat, hat'] at heq
    have htake := hmatching (i - 1) _ _ hat hat' heq
    rwa [Nat.sub_add_cancel hpos] at htake

/-! ## Processes that can come up again -/

namespace Fleet

variable {D : Deployment} {f : Formats} {fl fl' : Fleet} {id : NodeId} {input : RuntimeInput}

/-- The directory of every process leads to the persistent state of its node. -/
structure Survives (D : Deployment) (f : Formats) (fl : Fleet) : Prop where
  agrees : ∃ w l, fl.Agrees D f w l
  stored : ∀ id, ∃ l, RaftStore.Holds f.delta (Core.initialPersistent D.peers.toList)
    (fl.nodes id).runtime.store l
  recorded : ∀ id, (fl.nodes id).Recorded

theorem survives_init (D : Deployment) (f : Formats) : (Fleet.init D).Survives D f where
  agrees := ⟨_, _, agrees_init D f⟩
  stored id := by
    obtain ⟨s, l, hopen, hholds, -⟩ :=
      RaftStore.open_empty f.delta (Core.initialPersistent D.peers.toList)
    have heq : s = (D.process id).store := (Except.ok.inj (Prod.mk.inj hopen).2).symm
    exact ⟨l, heq ▸ hholds⟩
  recorded _ := ⟨Log.plain_empty.contiguous, rfl, rfl, fun _ hmem => absurd hmem List.not_mem_nil⟩

theorem Survives.config (h : fl.Survives D f) (id : NodeId) :
    (fl.nodes id).runtime.config = D.config id := by
  obtain ⟨w, l, hagrees⟩ := h.agrees
  obtain ⟨c, -, href⟩ := hagrees.refines
  exact href.config id

theorem Agrees.gapless {w : History} {l : List Entry} (h : fl.Agrees D f w l)
    (hposs : fl.possible f id input = true) : (fl.nodes id).runtime.gapless input = true := by
  obtain ⟨c, ht, href⟩ := h.refines
  unfold Runtime.gapless
  cases hevent : (fl.nodes id).runtime.event? input with
  | none => rfl
  | some event =>
    rw [Option.all_some]
    rcases href.event_cases hposs hevent with rfl | ⟨msg, rfl, hmem, rfl⟩
    · rfl
    · rw [href.node msg.to]
      exact ht.gapless hmem

variable {r' : Runtime} {report : Report}

/-- What a call does to the store. -/
theorem Survives.call_store (h : fl.Survives D f) (hregular : input.regular = true)
    (hok : fl.verified (id, input) = true) (hposs : fl.possible f id input = true)
    (hcall : (fl.nodes id).call f input = some (r', report)) (hsaved : report.saved = true) :
    r'.store = (fl.nodes id).runtime.store ∨
      ∃ p, (fl.nodes id).runtime.store.durable.Precedes p ∧
        (fl.nodes id).runtime.store.save f.delta {} p = (.ok (), r'.store) := by
  rcases Journal.call_keeps hregular hsaved hcall with hsame | hsave
  · exact .inl hsame
  · refine .inr ⟨_, ?_, hsave⟩
    obtain ⟨w, l, hagrees⟩ := h.agrees
    obtain ⟨w', l', hle, -, hagrees'⟩ := hagrees.step hok
      (step_eq_some.2 ⟨hposs, r', report, hcall, rfl⟩)
    obtain ⟨c, ht, href⟩ := hagrees.refines
    obtain ⟨c', ht', href'⟩ := hagrees'.refines
    have hnode' := href'.node id
    rw [Journal.next_of_live (RuntimeInput.regular_live hregular)] at hnode'
    simp only [Fleet.next, Function.update_self, Journal.record] at hnode'
    rw [(h.recorded id).durable, href.node id, hnode']
    exact ht.precedes ht' hle id

/-- **One call.** -/
theorem Survives.call (h : fl.Survives D f) (hregular : input.regular = true)
    (hok : fl.verified (id, input) = true) (hposs : fl.possible f id input = true)
    (hcall : (fl.nodes id).call f input = some (r', report)) (hsaved : report.saved = true) :
    (fl.next id ((fl.nodes id).record r' report) report).Survives D f := by
  have hlive := RuntimeInput.regular_live hregular
  obtain ⟨w, l, hagrees⟩ := h.agrees
  obtain ⟨w', l', -, -, hagrees'⟩ := hagrees.step hok
    (step_eq_some.2 ⟨hposs, r', report, hcall, rfl⟩)
  have hrecorded := (h.recorded id).call (Journal.call_spec hcall) (hagrees.gapless hposs) hsaved
  rw [Journal.next_of_live hlive] at hagrees' hrecorded
  refine ⟨⟨w', l', hagrees'⟩, fun other => ?_, fun other => ?_⟩
  · rcases eq_or_ne other id with rfl | hne
    · simp only [Fleet.next, Function.update_self, Journal.record]
      obtain ⟨layout, hholds⟩ := h.stored other
      rcases h.call_store hregular hok hposs hcall hsaved with hsame | ⟨p, hprec, hsave⟩
      · exact ⟨layout, hsame ▸ hholds⟩
      · obtain ⟨layout', -, hholds', -⟩ := RaftStore.save_holds hholds hprec hsave
        exact ⟨layout', hholds'⟩
    · simpa only [Fleet.next, Function.update_of_ne hne] using h.stored other
  · rcases eq_or_ne other id with rfl | hne
    · simpa only [Fleet.next, Function.update_self] using hrecorded
    · simpa only [Fleet.next, Function.update_of_ne hne] using h.recorded other

/-- **One restart**, on a directory that leads to the persistent state of the node. -/
theorem Survives.restart (h : fl.Survives D f) {d : Dir} {s : RaftStore} {layout : Layout}
    (hvalid : validateConfig (D.config id) = .ok ())
    (hopen : RaftStore.open f.delta d (Core.initialPersistent D.peers.toList) = (s.wal.dir, .ok s))
    (hholds : RaftStore.Holds f.delta (Core.initialPersistent D.peers.toList) s layout)
    (hdurable : s.durable = (fl.nodes id).runtime.node.persistent) :
    ∃ fl', fl.step f (id, .restart d) = some fl' ∧ fl'.Survives D f ∧
      fl' = fl.next id ⟨Runtime.start (D.config id) s, (fl.nodes id).handed, [], []⟩
        { result := .done } := by
  have hprocess : Runtime.open f (fl.nodes id).runtime.config d =
      (s.wal.dir, .ok (Runtime.start (D.config id) s)) := by
    rw [h.config id]
    unfold Runtime.open
    rw [hvalid]
    simp only [show (RaftNode.new (D.config id).consensus (D.config id).peers.toList).persistent =
      Core.initialPersistent D.peers.toList from rfl, hopen]
  have hposs : fl.possible f id (.restart d) = true := by
    simp only [possible, hprocess]
    exact decide_eq_true hdurable
  have hstep : fl.step f (id, .restart d) = some (fl.next id
      ⟨Runtime.start (D.config id) s, (fl.nodes id).handed, [], []⟩ { result := .done }) :=
    step_eq_some.2 ⟨hposs, _, _, by simp only [Journal.call, hprocess], rfl⟩
  obtain ⟨w, l, hagrees⟩ := h.agrees
  obtain ⟨w', l', -, -, hagrees'⟩ := hagrees.step rfl hstep
  refine ⟨_, hstep, ⟨⟨w', l', hagrees'⟩, fun other => ?_, fun other => ?_⟩, rfl⟩
  · rcases eq_or_ne other id with rfl | hne
    · simp only [Fleet.next, Function.update_self]
      exact ⟨layout, hholds⟩
    · simpa only [Fleet.next, Function.update_of_ne hne] using h.stored other
  · rcases eq_or_ne other id with rfl | hne
    · simp only [Fleet.next, Function.update_self]
      have hstart := Journal.recorded_start hprocess
      exact ⟨hstart.contiguous, hstart.snapshot, hstart.durable, (h.recorded other).handed⟩
    · simpa only [Fleet.next, Function.update_of_ne hne] using h.recorded other

/-! ## Runs with crashes -/

end Fleet

theorem Journal.call_congr {f : Formats} {j j' : Journal} (h : j.runtime = j'.runtime)
    (input : RuntimeInput) : j.call f input = j'.call f input := by
  cases input <;> simp only [call, h]

inductive CrashInput where
  | call (id : NodeId) (input : RuntimeInput)
  /-- The process dies at rest or during a call, and starts again. -/
  | crash (id : NodeId) (during : Option RuntimeInput) (k : ℕ)

namespace Fleet

variable {D : Deployment} {f : Formats} {fl fl' : Fleet} {id : NodeId} {input : RuntimeInput}
  {r' : Runtime} {report : Report}

/-- The store when the process dies. -/
def lastStore (f : Formats) (fl : Fleet) (id : NodeId) : Option RuntimeInput → Option RaftStore
  | none => some (fl.nodes id).runtime.store
  | some input => ((fl.nodes id).call f input).map fun (r, _) => r.store

/-- A process starts on a directory. Nothing else changes. -/
def reopen (f : Formats) (fl : Fleet) (id : NodeId) (d : Dir) : Option Fleet :=
  ((fl.nodes id).step f (.restart d)).map fun j =>
    { fl with nodes := Function.update fl.nodes id j }

def crashStep (f : Formats) (fl : Fleet) : CrashInput → Option Fleet
  | .call id input => fl.step f (id, input)
  | .crash id during k => (fl.lastStore f id during).bind fun last =>
    fl.reopen f id ((fl.nodes id).runtime.store.leaves last k)

/-- The call is possible, its accepted append requests are verified and its save does not fail. -/
def regular (f : Formats) (fl : Fleet) (id : NodeId) (input : RuntimeInput) : Bool :=
  input.regular && fl.possible f id input && fl.verified (id, input) && (fl.nodes id).saves f input

def crashOk (f : Formats) (fl : Fleet) : CrashInput → Bool
  | .call id input => fl.regular f id input
  | .crash id during _ => during.all (fl.regular f id)

def crashRun (f : Formats) (fl : Fleet) (inputs : List CrashInput) : Option Fleet :=
  runWhile (crashStep f) (crashOk f) fl inputs

/-- The same processes; some messages and answers of the one may be missing in the other. -/
structure Shadows (fl fl' : Fleet) : Prop where
  runtime : ∀ id, (fl.nodes id).runtime = (fl'.nodes id).runtime
  tickets : ∀ id, (fl.nodes id).tickets = (fl'.nodes id).tickets
  applied : ∀ id, (fl.nodes id).applied = (fl'.nodes id).applied
  sent : fl.sent ⊆ fl'.sent
  acks : fl.acks ⊆ fl'.acks

theorem Shadows.refl (fl : Fleet) : fl.Shadows fl :=
  ⟨fun _ => rfl, fun _ => rfl, fun _ => rfl, List.Subset.refl _, List.Subset.refl _⟩

/-- What a call needs. -/
theorem regular_spec (h : fl.regular f id input = true) : input.regular = true ∧
    fl.possible f id input = true ∧ fl.verified (id, input) = true ∧
    ∀ {r' report}, (fl.nodes id).call f input = some (r', report) → report.saved = true := by
  simp only [regular, Bool.and_eq_true] at h
  refine ⟨h.1.1.1, h.1.1.2, h.1.2, fun hcall => ?_⟩
  have hsaves := h.2
  rwa [Journal.saves, hcall, Option.all_some] at hsaves

namespace Shadows

variable (h : fl.Shadows fl')
include h

theorem call_eq (input : RuntimeInput) : (fl'.nodes id).call f input = (fl.nodes id).call f input :=
  (Journal.call_congr (h.runtime id) input).symm

theorem regular (hregular : fl.regular f id input = true) : fl'.regular f id input = true := by
  obtain ⟨hinput, hposs, hok, -⟩ := regular_spec hregular
  simp only [Fleet.regular, Bool.and_eq_true] at hregular ⊢
  refine ⟨⟨⟨hinput, ?_⟩, ?_⟩, ?_⟩
  · cases input with
    | receive message env => exact decide_eq_true (h.sent (of_decide_eq_true hposs))
    | restart d => cases hinput
    | _ => rfl
  · unfold Fleet.verified at hok ⊢
    rw [← h.runtime id]
    refine (Option.all_eq_true _ _).2 fun event hevent => ?_
    have hevent := (Option.all_eq_true _ _).1 hok event hevent
    split at hevent
    · simp only [Bool.or_eq_true] at hevent ⊢
      exact hevent.imp_right (Follower.verified_mono h.sent)
    · rfl
  · rw [Journal.saves, h.call_eq]
    exact hregular.2

/-- Both make the same call. -/
theorem record (r' : Runtime) (report : Report) :
    (fl.next id ((fl.nodes id).record r' report) report).Shadows
      (fl'.next id ((fl'.nodes id).record r' report) report) := by
  refine ⟨fun other => ?_, fun other => ?_, fun other => ?_, ?_, ?_⟩
  · rcases eq_or_ne other id with rfl | hne
    · simp only [Fleet.next, Function.update_self, Journal.record]
    · simpa only [Fleet.next, Function.update_of_ne hne] using h.runtime other
  · rcases eq_or_ne other id with rfl | hne
    · simp only [Fleet.next, Function.update_self, Journal.record, h.tickets]
    · simpa only [Fleet.next, Function.update_of_ne hne] using h.tickets other
  · rcases eq_or_ne other id with rfl | hne
    · simp only [Fleet.next, Function.update_self, Journal.record, h.applied]
    · simpa only [Fleet.next, Function.update_of_ne hne] using h.applied other
  · exact List.append_subset.2 ⟨fun m hm => List.mem_append_left _ (h.sent hm),
      List.subset_append_right _ _⟩
  · exact List.append_subset.2 ⟨fun a ha => List.mem_append_left _ (h.acks ha),
      List.subset_append_right _ _⟩

/-- The other one has made a call that this one has lost, and both start again. -/
theorem restart {fl'' : Fleet} (hothers : ∀ other, other ≠ id → fl''.nodes other = fl'.nodes other)
    (hsent : fl'.sent ⊆ fl''.sent) (hacks : fl'.acks ⊆ fl''.acks) (r : Runtime) :
    Shadows ⟨Function.update fl.nodes id ⟨r, (fl.nodes id).handed, [], []⟩, fl.sent, fl.acks⟩
      (fl''.next id ⟨r, (fl''.nodes id).handed, [], []⟩ { result := .done }) := by
  refine ⟨fun other => ?_, fun other => ?_, fun other => ?_, fun m hm => ?_, fun a ha => ?_⟩
  · rcases eq_or_ne other id with rfl | hne
    · simp only [Fleet.next, Function.update_self]
    · simpa only [Fleet.next, Function.update_of_ne hne, hothers other hne] using h.runtime other
  · rcases eq_or_ne other id with rfl | hne
    · simp only [Fleet.next, Function.update_self]
    · simpa only [Fleet.next, Function.update_of_ne hne, hothers other hne] using h.tickets other
  · rcases eq_or_ne other id with rfl | hne
    · simp only [Fleet.next, Function.update_self]
    · simpa only [Fleet.next, Function.update_of_ne hne, hothers other hne] using h.applied other
  · exact List.mem_append_left _ (hsent (h.sent hm))
  · exact List.mem_append_left _ (hacks (h.acks ha))

end Shadows

/-- What a process finds that died: its directory can be opened, and leads to its state before or
after the call. -/
theorem Survives.open_leaves (h : fl.Survives D f) {during : Option RuntimeInput}
    (hok : during.all (fl.regular f id) = true) {last : RaftStore}
    (hlast : fl.lastStore f id during = some last) (k : ℕ) : ∃ s layout,
      RaftStore.open f.delta ((fl.nodes id).runtime.store.leaves last k)
        (Core.initialPersistent D.peers.toList) = (s.wal.dir, .ok s) ∧
      RaftStore.Holds f.delta (Core.initialPersistent D.peers.toList) s layout ∧
      (s.durable = (fl.nodes id).runtime.node.persistent ∨
        ∃ input r report, during = some input ∧ fl.regular f id input = true ∧
          (fl.nodes id).call f input = some (r, report) ∧ s.durable = r.node.persistent) := by
  obtain ⟨layout, hholds⟩ := h.stored id
  have hdurable := (h.recorded id).durable
  cases during with
  | none =>
    obtain rfl : (fl.nodes id).runtime.store = last := Option.some.inj hlast
    obtain ⟨s, layout', hopen, hholds', hs⟩ := hholds.open_leaves (.inl rfl) k
    exact ⟨s, layout', hopen, hholds', .inl ((or_self_iff.1 hs).trans hdurable)⟩
  | some input =>
    have hregular : fl.regular f id input = true := hok
    obtain ⟨⟨r, report⟩, hcall, rfl⟩ := Option.map_eq_some_iff.1 hlast
    obtain ⟨hinput, hposs, hverified, hsaved⟩ := regular_spec hregular
    obtain ⟨s, layout', hopen, hholds', hs⟩ := hholds.open_leaves
      (h.call_store hinput hverified hposs hcall (hsaved hcall)) k
    have hafter := ((h.call hinput hverified hposs hcall (hsaved hcall)).recorded id).durable
    simp only [Fleet.next, Function.update_self, Journal.record] at hafter
    refine ⟨s, layout', hopen, hholds', hs.imp (·.trans hdurable) fun hs => ?_⟩
    exact ⟨input, r, report, rfl, hregular, hcall, hs.trans hafter⟩

/-- Where a run of crashing processes is matched by one of `Fleet`. -/
def Matched (D : Deployment) (f : Formats) (fl : Fleet) : Prop :=
  ∃ acts fl', (Fleet.init D).run f Fleet.verified acts = some fl' ∧ fl.Shadows fl' ∧
    fl'.Survives D f

theorem Matched.call (h : fl.Matched D f) (hregular : fl.regular f id input = true)
    (hstep : fl.step f (id, input) = some fl') : fl'.Matched D f := by
  obtain ⟨acts, spec, hrun, hshadows, hsurvives⟩ := h
  obtain ⟨-, r', report, hcall, rfl⟩ := step_eq_some.1 hstep
  obtain ⟨hinput, hposs, hok, hsaved⟩ := regular_spec (hshadows.regular hregular)
  rw [← hshadows.call_eq] at hcall
  have hlive := RuntimeInput.regular_live hinput
  rw [Journal.next_of_live hlive]
  refine ⟨acts ++ [(id, input)], _, runWhile_concat hrun hok (step_eq_some.2 ⟨hposs, r', report,
    hcall, rfl⟩), ?_, ?_⟩
  · rw [Journal.next_of_live hlive]
    exact hshadows.record r' report
  · rw [Journal.next_of_live hlive]
    exact hsurvives.call hinput hok hposs hcall (hsaved hcall)

theorem reopen_eq_some {d : Dir} {s : RaftStore}
    (hconfig : (fl.nodes id).runtime.config = D.config id)
    (hopen :
      RaftStore.open f.delta d (Core.initialPersistent D.peers.toList) = (s.wal.dir, .ok s)) :
    fl.reopen f id d = some fl' ↔ validateConfig (D.config id) = .ok () ∧
      fl' = ⟨Function.update fl.nodes id
        ⟨Runtime.start (D.config id) s, (fl.nodes id).handed, [], []⟩, fl.sent, fl.acks⟩ := by
  have hinitial : (RaftNode.new (D.config id).consensus (D.config id).peers.toList).persistent =
      Core.initialPersistent D.peers.toList := rfl
  simp only [reopen, Journal.step, Journal.call, hconfig, Runtime.open, hinitial, hopen]
  cases validateConfig (D.config id) with
  | error e => simp
  | ok u => simp [Journal.next, eq_comm]

theorem Shadows.lastStore_eq (h : fl.Shadows fl') (during : Option RuntimeInput) :
    fl'.lastStore f id during = fl.lastStore f id during := by
  cases during with
  | none => rw [lastStore, lastStore, h.runtime id]
  | some input => rw [lastStore, lastStore, h.call_eq]

theorem Matched.crash (h : fl.Matched D f) {during : Option RuntimeInput} {k : ℕ}
    (hok : during.all (fl.regular f id) = true)
    (hstep : fl.crashStep f (.crash id during k) = some fl') : fl'.Matched D f := by
  obtain ⟨acts, spec, hrun, hshadows, hsurvives⟩ := h
  obtain ⟨last, hlast, hreopen⟩ := Option.bind_eq_some_iff.1 hstep
  have hok' : during.all (spec.regular f id) = true := by
    refine (Option.all_eq_true _ _).2 fun input hinput => ?_
    exact hshadows.regular ((Option.all_eq_true _ _).1 hok input hinput)
  rw [← hshadows.lastStore_eq] at hlast
  obtain ⟨s, layout, hopen, hholds, hdurable⟩ := hsurvives.open_leaves hok' hlast k
  rw [hshadows.runtime id] at hreopen
  have hconfig : (fl.nodes id).runtime.config = D.config id := by
    rw [hshadows.runtime id]
    exact hsurvives.config id
  obtain ⟨hvalid, rfl⟩ := (reopen_eq_some hconfig hopen).1 hreopen
  rcases hdurable with hold | ⟨input, r, report, rfl, hregular, hcall, hnew⟩
  · -- The call has left no trace.
    obtain ⟨_, hstep', hsurvives', rfl⟩ := hsurvives.restart hvalid hopen hholds hold
    exact ⟨_, _, runWhile_concat hrun rfl hstep', hshadows.restart (fun _ _ => rfl)
      (List.Subset.refl _) (List.Subset.refl _) _, hsurvives'⟩
  · -- The call has been saved, and its messages are lost.
    obtain ⟨hinput, hposs, hverified, hsaved⟩ := regular_spec hregular
    have hlive := RuntimeInput.regular_live hinput
    have hcalled := hsurvives.call hinput hverified hposs hcall (hsaved hcall)
    have hrun' := runWhile_concat hrun hverified (step_eq_some.2 ⟨hposs, r, report, hcall, rfl⟩)
    rw [Journal.next_of_live hlive] at hrun'
    have hnode : s.durable = ((spec.next id ((spec.nodes id).record r report) report).nodes
        id).runtime.node.persistent := by
      simp only [Fleet.next, Function.update_self, Journal.record]
      exact hnew
    obtain ⟨_, hstep', hsurvives', rfl⟩ := hcalled.restart hvalid hopen hholds hnode
    exact ⟨_, _, runWhile_concat hrun' rfl hstep', hshadows.restart
      (fun other hne => Function.update_of_ne hne ..) (List.subset_append_left _ _)
      (List.subset_append_left _ _) _, hsurvives'⟩

theorem matched_run {inputs : List CrashInput}
    (hrun : (Fleet.init D).crashRun f inputs = some fl) : fl.Matched D f := by
  have hinit : (Fleet.init D).Matched D f := ⟨[], _, rfl, .refl _, survives_init D f⟩
  refine runWhile_invariant (fun {fl input fl'} h hok hstep => ?_) hinit hrun
  cases input with
  | call id input => exact h.call hok hstep
  | crash id during k => exact h.crash hok hstep

end Fleet

/-- **Crashes are restarts.** Every run of regular calls in which processes die, at rest or in the
middle of a save, and start again on what they left, is matched by a run of `Fleet`: the processes
are the same, and no more has been sent or answered. -/
theorem crash_refines (D : Deployment) (f : Formats) {inputs : List CrashInput} {fl : Fleet}
    (hrun : (Fleet.init D).crashRun f inputs = some fl) : ∃ acts fl',
      (Fleet.init D).run f Fleet.verified acts = some fl' ∧ fl.Shadows fl' := by
  obtain ⟨acts, fl', hrun', hshadows, -⟩ := Fleet.matched_run hrun
  exact ⟨acts, fl', hrun', hshadows⟩

/-- Node 0 dies while it saves the term of its first campaign, and five bytes of the record are
left. It starts again and dies once more, at rest, and node 1 is elected. -/
def dieTwice : List CrashInput :=
  [.crash 0 (some (.tick {})) 5, .crash 0 none 0, .call 1 (.tick {}),
    .call 2 (.receive ⟨1, 2, 1, .voteRequest ⟨0, 0⟩⟩ {}),
    .call 1 (.receive ⟨2, 1, 1, .voteResponse ⟨true⟩⟩ {})]

theorem crash_refines_trio : ∃ fl, (Fleet.init trioDeployment).crashRun jsonFormats dieTwice =
      some fl ∧
    (fl.nodes 0).runtime.node.core.log.entries = [] ∧ (fl.nodes 0).runtime.node.term = 0 ∧
    (fl.nodes 1).runtime.node.isLeader = true ∧ ∃ acts fl',
      (Fleet.init trioDeployment).run jsonFormats Fleet.verified acts = some fl' ∧
      fl.Shadows fl' := by
  have hrun : ((Fleet.init trioDeployment).crashRun jsonFormats dieTwice).any (fun fl =>
      decide ((fl.nodes 0).runtime.node.core.log.entries = [] ∧ (fl.nodes 0).runtime.node.term = 0 ∧
        (fl.nodes 1).runtime.node.isLeader = true)) = true := by
    decide +kernel
  obtain ⟨fl, hfl, hfacts⟩ := (Option.any_eq_true _ _).1 hrun
  obtain ⟨hempty, hterm, hleader⟩ := of_decide_eq_true hfacts
  exact ⟨fl, hfl, hempty, hterm, hleader, crash_refines trioDeployment jsonFormats hfl⟩

/-- **A process that dies comes up again**, after any run of regular calls and crashes, whatever
bytes of its last record are on disk, and its node has the persistent state from before the call in
which it died, or from after it. -/
theorem crash_recovers (D : Deployment) (f : Formats) {inputs : List CrashInput} {fl : Fleet}
    (hrun : (Fleet.init D).crashRun f inputs = some fl) {id : NodeId}
    (hvalid : validateConfig (D.config id) = .ok ()) {during : Option RuntimeInput} (k : ℕ)
    (hok : fl.crashOk f (.crash id during k) = true) {last : RaftStore}
    (hlast : fl.lastStore f id during = some last) : ∃ fl',
      fl.crashStep f (.crash id during k) = some fl' ∧
      ((fl'.nodes id).runtime.node.persistent = (fl.nodes id).runtime.node.persistent ∨
        ∃ input r report, during = some input ∧ (fl.nodes id).call f input = some (r, report) ∧
          (fl'.nodes id).runtime.node.persistent = r.node.persistent) := by
  obtain ⟨acts, spec, -, hshadows, hsurvives⟩ := Fleet.matched_run hrun
  have hok : during.all (fl.regular f id) = true := hok
  have hok' : during.all (spec.regular f id) = true := by
    refine (Option.all_eq_true _ _).2 fun input hinput => ?_
    exact hshadows.regular ((Option.all_eq_true _ _).1 hok input hinput)
  have hlast' : spec.lastStore f id during = some last := by rw [hshadows.lastStore_eq, hlast]
  obtain ⟨s, layout, hopen, -, hdurable⟩ := hsurvives.open_leaves hok' hlast' k
  have hconfig : (fl.nodes id).runtime.config = D.config id := by
    rw [hshadows.runtime id]
    exact hsurvives.config id
  rw [← hshadows.runtime id] at hopen hdurable
  refine ⟨_, Option.bind_eq_some_iff.2 ⟨last, hlast,
    (Fleet.reopen_eq_some hconfig hopen).2 ⟨hvalid, rfl⟩⟩, ?_⟩
  simp only [Function.update_self]
  rcases hdurable with hold | ⟨input, r, report, hduring, -, hcall, hnew⟩
  · exact .inl hold
  · rw [hshadows.call_eq] at hcall
    exact .inr ⟨input, r, report, hduring, hcall, hnew⟩

/-- Node 0 of the trio is elected. -/
def winElection : List CrashInput :=
  [.call 0 (.tick {}), .call 2 (.receive ⟨0, 2, 1, .voteRequest ⟨0, 0⟩⟩ {}),
    .call 0 (.receive ⟨2, 0, 1, .voteResponse ⟨true⟩⟩ {})]

/-- It dies while it saves its first entry, and five bytes of the record are left. -/
theorem crash_recovers_trio : ∃ fl last fl',
    (Fleet.init trioDeployment).crashRun jsonFormats winElection = some fl ∧
    fl.lastStore jsonFormats 0 (some (.propose .registerSession {})) = some last ∧
    fl.crashStep jsonFormats (.crash 0 (some (.propose .registerSession {})) 156) = some fl' ∧
    ((fl'.nodes 0).runtime.node.persistent = (fl.nodes 0).runtime.node.persistent ∨
      ∃ input r report, some (RuntimeInput.propose .registerSession {}) = some input ∧
        (fl.nodes 0).call jsonFormats input = some (r, report) ∧
        (fl'.nodes 0).runtime.node.persistent = r.node.persistent) := by
  have hrun : ((Fleet.init trioDeployment).crashRun jsonFormats winElection).any (fun fl =>
      fl.crashOk jsonFormats (.crash 0 (some (.propose .registerSession {})) 156) &&
        (fl.lastStore jsonFormats 0 (some (.propose .registerSession {}))).isSome) = true := by
    decide +kernel
  obtain ⟨fl, hfl, hfacts⟩ := (Option.any_eq_true _ _).1 hrun
  obtain ⟨hok, hsome⟩ := Bool.and_eq_true_iff.1 hfacts
  obtain ⟨last, hlast⟩ := Option.isSome_iff_exists.1 hsome
  have hvalid : validateConfig (trioDeployment.config 0) = .ok () := by decide +kernel
  obtain ⟨fl', hstep, hstate⟩ :=
    crash_recovers trioDeployment jsonFormats hfl hvalid 156 hok hlast
  exact ⟨fl, last, fl', hfl, hlast, hstep, hstate⟩

end Cloud9
