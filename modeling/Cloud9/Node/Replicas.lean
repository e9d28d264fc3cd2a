import Cloud9.Node.Acknowledge

/-!
# Replicas of one state machine

The key-value states of a cluster of runtimes, where accepted append requests are verified. There is
one list of entries that only ever grows, and every state of every process, at any moment, is what
the commands of a prefix of this list make (`replicas_agree`). Every entry that any process applies
is in the list at its own index, and a proposal that is told the result of its command is told what
the list says.

`Fleet.Agrees` relates the cluster to the list. When a node applies more than anyone before, the
list becomes its applied prefix; committed prefixes extend each other (`World.Inv.covered_join`), so
the list grows and the others are still on it.
-/

namespace Cloud9

open World

/-! ## Applied entries on a list -/

def CommittedEntry.asEntry (c : CommittedEntry) : Entry := ⟨c.term, c.index, .command c.command⟩

/-- What applying the command at a place of the list comes to. -/
def resultAt (f : Formats) (l : List Entry) (c : CommittedEntry) : ApplyResult :=
  (Runtime.applyCommand f (stateAfter f (l.take (c.index - 1))) c.command).2

/-- The entry is on the list, and who waited for it was told what the list says. -/
structure Applied.On (f : Formats) (l : List Entry) (a : Applied) : Prop where
  pos : 0 < a.entry.index
  entry : l[a.entry.index - 1]? = some a.entry.asEntry
  told : ∀ {p result}, a.answer = some (p, result) →
    result = p.complete a.entry.command (resultAt f l a.entry)

theorem Applied.On.mono {f : Formats} {l l' : List Entry} {a : Applied} (h : a.On f l)
    (hle : l <+: l') : a.On f l' := by
  have hlen := (List.getElem?_eq_some_iff.1 h.entry).1
  refine ⟨h.pos, hle.getElem?_eq_some h.entry, fun hanswer => ?_⟩
  rw [resultAt, hle.take_eq (by omega)]
  exact h.told hanswer

theorem Applied.On.take {f : Formats} {l : List Entry} {a : Applied} (h : a.On f l) {k : ℕ}
    (hk : a.entry.index ≤ k) : a.On f (l.take k) := by
  have hpos := h.pos
  refine ⟨hpos, ?_, fun hanswer => ?_⟩
  · rw [List.getElem?_take_of_lt (by omega)]
    exact h.entry
  · rw [resultAt, List.take_take, Nat.min_eq_left (by omega)]
    exact h.told hanswer

namespace Runtime

variable {f : Formats} {r r₀ : Runtime} {applied : List Applied}

/-- The part of its log that a process has applied. -/
def appliedLog (r : Runtime) : List Entry := r.node.core.log.entries.take r.node.core.lastApplied

theorem Applies.state_eq (h : r.Applies f applied) (hplain : r.node.core.log.Plain) :
    r.state = stateAfter f r.appliedLog := by
  rw [h.state, stateAfter, appliedLog, ← hplain.commandsTo, ← h.commands, List.map_map]
  rfl

/-- What a process has applied stands in its log, at or below `last_applied`. -/
def Shows (f : Formats) (applied : List Applied) (r : Runtime) : Prop :=
  ∀ a ∈ applied, a.On f r.node.core.log.entries ∧ a.entry.index ≤ r.node.core.lastApplied

theorem Shows.applyEntry (hshows : r.Shows f applied) {before : List Applied}
    (h : r.Applies f before) (hplain : r.node.core.log.Plain) {entry : CommittedEntry}
    (hhead : r.node.committed.head? = some entry) :
    (r.applyEntry f entry).1.Shows f (applied ++ [(r.applyEntry f entry).2]) := by
  obtain ⟨hpos, hentry, hstate⟩ := h.next_entry hplain hhead
  intro a ha
  rcases List.mem_append.1 ha with hold | hnew
  · obtain ⟨hon, hle⟩ := hshows a hold
    exact ⟨hon, Nat.le_of_lt (Nat.lt_of_le_of_lt hle (h.head hhead).1)⟩
  · rw [List.mem_singleton.1 hnew]
    refine ⟨⟨hpos, hentry, fun {p result} hanswer => ?_⟩, Nat.le_refl _⟩
    obtain ⟨pending, -, htold⟩ := Option.map_eq_some_iff.1 hanswer
    obtain ⟨rfl, rfl⟩ := Prod.mk.inj htold
    rw [hstate]
    rfl

/-- **What `handle_effects` applies.** -/
theorem Shows.handleEffects (h : r.Applies f applied) (hplain : r.node.core.log.Plain)
    {effects : Effects} {env : CallEnv} {out : Runtime × List Handover × List Applied × Outcome}
    (hout : r.handleEffects f effects env = out) : out.1.Shows f out.2.2.1 := by
  have hall := @handleEffects_rule f r effects env (fun past r => r.node.core.log.Plain ∧
    r.Applies f (applied ++ past) ∧ r.Shows f past) ?_ ?_ [] ?_ out hout
  · exact hall.2.2
  · rintro past r store ⟨hplain, h, hshows⟩
    exact ⟨hplain, h.store store, hshows⟩
  · rintro past r entry ⟨hplain, h, hshows⟩ hhead
    rw [← List.append_assoc]
    exact ⟨hplain, h.applyEntry hhead, hshows.applyEntry h hplain hhead⟩
  · rw [List.append_nil]
    exact ⟨hplain, h, fun _ hmem => absurd hmem List.not_mem_nil⟩

end Runtime

/-! ## The list of decided entries -/

namespace Fleet

/-- Every process has applied a prefix of `l`, which is committed. -/
structure Agrees (D : Deployment) (f : Formats) (w : History) (l : List Entry) (fl : Fleet) :
    Prop where
  refines : ∃ c, (D.setting True).Tracks w c ∧ fl.Refines D c
  applies : ∀ id, (fl.nodes id).runtime.Applies f (fl.nodes id).applied
  decided : ∃ T, Covered (D.setting True).system w T l l.length
  applied : ∀ id, (fl.nodes id).runtime.appliedLog <+: l
  shows : ∀ id, ∀ a ∈ (fl.nodes id).applied, a.On f l
  acked : ∀ a ∈ fl.acks, ∃ x : Applied, x.ack = some a ∧ x.On f l

variable {D : Deployment} {f : Formats} {w w' : History} {l : List Entry} {c c' : Cluster}
  {fl fl' : Fleet} {id : NodeId} {input : RuntimeInput}

theorem agrees_init (D : Deployment) (f : Formats) :
    (Fleet.init D).Agrees D f World.init [] where
  refines := ⟨_, Setting.tracks_init D.consensus D.peers.toList True False (fun h => by cases h),
    refines_init D⟩
  applies _ :=
    ⟨⟨Log.plain_empty.contiguous, Nat.le_refl _, Nat.zero_le _⟩, rfl, Nat.le_refl _, rfl, rfl⟩
  decided := ⟨0, .inl rfl⟩
  applied _ := List.nil_prefix
  shows _ _ hmem := absurd hmem List.not_mem_nil
  acked _ hmem := absurd hmem List.not_mem_nil

namespace Agrees

variable (h : fl.Agrees D f w l)
include h

theorem plain (id : NodeId) : (fl.nodes id).runtime.node.core.log.Plain := by
  obtain ⟨c, ht, href⟩ := h.refines
  rw [href.node id]
  exact ht.plain id

theorem appliedLog_length (id : NodeId) : (fl.nodes id).runtime.appliedLog.length =
    (fl.nodes id).runtime.node.core.lastApplied := by
  have hbound := (h.applies id).bound
  have hcommit := (h.applies id).intact.commit
  rw [(h.plain id).lastIndex] at hcommit
  rw [Runtime.appliedLog, List.length_take]
  omega

/-- The state of a process is that of a prefix of the list. -/
theorem state_eq (id : NodeId) : (fl.nodes id).runtime.state = stateAfter f
    (l.take (fl.nodes id).runtime.node.core.lastApplied) ∧
      (fl.nodes id).runtime.node.core.lastApplied ≤ l.length := by
  have hlen := h.appliedLog_length id
  have hprefix := h.applied id
  refine ⟨?_, hlen ▸ hprefix.length_le⟩
  rw [(h.applies id).state_eq (h.plain id), ← hlen, ← List.prefix_iff_eq_take.1 hprefix]

/-- One node moves on, and so does the list if the node is ahead of it. -/
theorem next (hle : w.Le w') (ht : (D.setting True).Tracks w' c') {j : Journal} {report : Report}
    (href : (fl.next id j report).Refines D c') (happlies : j.runtime.Applies f j.applied)
    (hshows : ∀ a ∈ j.applied, a.On f l ∨
      a.On f j.runtime.node.core.log.entries ∧ a.entry.index ≤ j.runtime.node.core.lastApplied)
    (hreport : report.applied ⊆ j.applied) :
    ∃ l', l <+: l' ∧ (l' = l ∨ l' = ((fl.next id j report).nodes id).runtime.appliedLog) ∧
      (fl.next id j report).Agrees D f w' l' := by
  have hnode := href.node id
  simp only [Fleet.next, Function.update_self] at hnode
  have hrel := ht.node id
  have hcommit := hrel.commit trivial
  rw [← hrel.log, ← hnode] at hcommit
  obtain ⟨c, ht₀, -⟩ := h.refines
  obtain ⟨T, hdecided⟩ := h.decided
  obtain ⟨l', hgrown, hl, happlied, hdecided'⟩ := ht.sim.inv.covered_join
    (hdecided.mono ht₀.sim.inv hle (Nat.le_refl T) List.prefix_rfl) (hcommit.anti happlies.bound)
  have happlied : j.runtime.appliedLog <+: l' := happlied
  have hon : ∀ a ∈ j.applied, a.On f l' := by
    intro a ha
    rcases hshows a ha with hold | ⟨hnew, hindex⟩
    · exact hold.mono hl
    · exact (hnew.take hindex).mono happlied
  have hgrown : l' = l ∨ l' = ((fl.next id j report).nodes id).runtime.appliedLog := by
    simp only [Fleet.next, Function.update_self]
    exact hgrown
  refine ⟨l', hl, hgrown, ⟨c', ht, href⟩, fun other => ?_, hdecided', fun other => ?_,
    fun other => ?_, fun a ha => ?_⟩
  · rcases eq_or_ne other id with rfl | hne
    · simpa only [Fleet.next, Function.update_self] using happlies
    · simpa only [Fleet.next, Function.update_of_ne hne] using h.applies other
  · rcases eq_or_ne other id with rfl | hne
    · simpa only [Fleet.next, Function.update_self] using happlied
    · simpa only [Fleet.next, Function.update_of_ne hne] using (h.applied other).trans hl
  · rcases eq_or_ne other id with rfl | hne
    · simpa only [Fleet.next, Function.update_self] using hon
    · simp only [Fleet.next, Function.update_of_ne hne]
      exact fun a ha => (h.shows other a ha).mono hl
  · rcases List.mem_append.1 ha with hold | hnew
    · obtain ⟨x, hack, hx⟩ := h.acked a hold
      exact ⟨x, hack, hx.mono hl⟩
    · obtain ⟨x, hx, hack⟩ := List.mem_filterMap.1 hnew
      exact ⟨x, hack, hon x (hreport hx)⟩

/-- What a call begins with keeps what has been applied. -/
theorem begins (ht : (D.setting True).Tracks w c) (href : fl.Refines D c)
    (hposs : fl.possible f id input = true) (ht' : (D.setting True).Tracks w' c') {r₀ : Runtime}
    {effects : Effects} {ticket : Option Ticket} (hnode : c'.nodes id = r₀.node)
    (hbegins : Runtime.Begins f (fl.nodes id).runtime input r₀ effects ticket) :
    r₀.Applies f (fl.nodes id).applied ∧ r₀.node.core.log.Plain := by
  have hplain := ht'.plain id
  rw [hnode] at hplain
  cases hbegins with
  | @event event hevent =>
    have hextends : (fl.nodes id).runtime.node.core.Extends
        ((fl.nodes id).runtime.node.stepEvent event).1.core := by
      rw [href.node id] at hplain ⊢
      exact ht.stepEvent_extends trivial (href.event_cases hposs hevent) hplain
    exact ⟨(h.applies id).extend hextends rfl, hplain⟩
  | propose _ _ _ hpropose =>
    have hextends := RaftNode.propose_extends (h.applies id).intact (h.applies id).snapshot hpropose
    exact ⟨(h.applies id).extend hextends rfl, hplain⟩

/-! ## One input -/

theorem idle {r' : Runtime} {report : Report} (hrests : (fl.nodes id).runtime.Rests r')
    (hhanded : report.handed = []) (happlied : report.applied = [])
    (hticket : report.ticket = none) :
    ∃ l', l <+: l' ∧ (l' = l ∨ l' = ((fl.next id ((fl.nodes id).record r' report) report).nodes
        id).runtime.appliedLog) ∧
      (fl.next id ((fl.nodes id).record r' report) report).Agrees D f w l' := by
  obtain ⟨c, ht, href⟩ := h.refines
  have hj : (fl.nodes id).record r' report =
      ⟨r', (fl.nodes id).handed, (fl.nodes id).tickets, (fl.nodes id).applied⟩ := by
    simp [Journal.record, hhanded, happlied, hticket]
  rw [hj]
  refine h.next (Le.refl w) ht ?_ ?_ (fun a ha => .inl (h.shows id a ha)) ?_
  · refine href.next (hrests.config.trans (href.config id)) (hrests.node.trans (href.node id))
      (fun _ _ => rfl) (List.Subset.refl _) ?_
    rw [hhanded]
    exact fun _ hmem => absurd hmem List.not_mem_nil
  · obtain ⟨hintact, hsnap, hbound, hcommands, hstate⟩ := h.applies id
    rw [← hrests.node] at hintact hsnap hbound hcommands
    exact ⟨hintact, hsnap, hbound, hcommands, hrests.state.trans hstate⟩
  · rw [happlied]
    exact List.nil_subset _

/-- A call that gets to `handle_effects`, with the history in which it begins. -/
theorem handled (hposs : fl.possible f id input = true) (hok : fl.verified (id, input) = true)
    {r₀ r₁ r' : Runtime} {effects : Effects} {env : CallEnv} {outcome : Outcome} {report : Report}
    (hbegins : Runtime.Begins f (fl.nodes id).runtime input r₀ effects report.ticket)
    (hhandles : r₀.handleEffects f effects env = (r₁, report.handed, report.applied, outcome))
    (hrests : r₁.Rests r') :
    ∃ w' c₁ l', w.Le w' ∧ (D.setting True).Tracks w' c₁ ∧ c₁.nodes id = r₀.node ∧
      effects.messages ⊆ c₁.sent ∧ l <+: l' ∧
      (l' = l ∨ l' = ((fl.next id ((fl.nodes id).record r' report) report).nodes
        id).runtime.appliedLog) ∧
      (fl.next id ((fl.nodes id).record r' report) report).Agrees D f w' l' := by
  obtain ⟨c, ht, href⟩ := h.refines
  obtain ⟨w', c₁, hle, ht₁, hnodes, hsent⟩ := href.begins ht hposs (fun _ => hok) hbegins
  have hself : c₁.nodes id = r₀.node := by rw [hnodes, Function.update_self]
  obtain ⟨c', ht', href'⟩ := href.handles ht₁ hnodes hsent
    (hbegins.config.trans (href.config id)) hhandles hrests
    (j := (fl.nodes id).record r' report) rfl
  obtain ⟨happlies, hplain⟩ := h.begins ht href hposs ht₁ hself hbegins
  have hshows := Runtime.Shows.handleEffects happlies hplain hhandles
  obtain ⟨hintact, hsnap, hbound, hcommands, hstate⟩ := (happlies.handleEffects hhandles).1
  rw [← hrests.node] at hintact hsnap hbound hcommands
  rw [Runtime.Shows, ← hrests.node] at hshows
  obtain ⟨l', hl, hgrown, hagrees⟩ := h.next hle ht' href'
    ⟨hintact, hsnap, hbound, hcommands, hrests.state.trans hstate⟩
    (fun a ha => (List.mem_append.1 ha).imp (h.shows id a) (hshows a))
    (List.subset_append_right _ _)
  refine ⟨w', c₁, l', hle, ht₁, hself, ?_, hl, hgrown, hagrees⟩
  rw [hsent]
  exact List.subset_append_right _ _

theorem restarted {d d' : Dir} (hposs : fl.possible f id (.restart d) = true) {r' : Runtime}
    (hopen : Runtime.open f (fl.nodes id).runtime.config d = (d', .ok r')) {report : Report}
    (hhanded : report.handed = []) (happlied : report.applied = []) :
    ∃ w' l', w.Le w' ∧ l <+: l' ∧
      (l' = l ∨ l' = ((fl.next id ⟨r', (fl.nodes id).handed, [], []⟩ report).nodes
        id).runtime.appliedLog) ∧
      (fl.next id ⟨r', (fl.nodes id).handed, [], []⟩ report).Agrees D f w' l' := by
  obtain ⟨c, ht, href⟩ := h.refines
  obtain ⟨w', c', hle, ht', href'⟩ := href.restart ht (fun _ => rfl) hposs hopen
    (j := ⟨r', (fl.nodes id).handed, [], []⟩) rfl hhanded
  obtain ⟨l', hl, hgrown, hagrees⟩ := h.next hle ht' href' (Journal.applies_start hopen)
    (fun _ hmem => absurd hmem List.not_mem_nil) (by rw [happlied]; exact List.nil_subset _)
  exact ⟨w', l', hle, hl, hgrown, hagrees⟩

/-- **One input.** -/
theorem step (hok : fl.verified (id, input) = true) (hstep : fl.step f (id, input) = some fl') :
    ∃ w' l', w.Le w' ∧ l <+: l' ∧ fl'.Agrees D f w' l' := by
  obtain ⟨hposs, r', report, hcall, rfl⟩ := step_eq_some.1 hstep
  cases Journal.call_spec hcall with
  | idle hrests hhanded happlied hticket _ hlive =>
    rw [Journal.next_of_live hlive]
    obtain ⟨l', hl, -, hagrees⟩ := h.idle hrests hhanded happlied hticket
    exact ⟨w, l', Le.refl w, hl, hagrees⟩
  | handled hbegins hhandles hrests _ hlive =>
    rw [Journal.next_of_live hlive]
    obtain ⟨w', c₁, l', hle, -, -, -, hl, -, hagrees⟩ := h.handled hposs hok hbegins hhandles hrests
    exact ⟨w', l', hle, hl, hagrees⟩
  | @restart d d' _ _ hinput hopen _ =>
    subst hinput
    simp only [Journal.call, hopen, Option.some.injEq, Prod.mk.injEq, true_and] at hcall
    subst hcall
    have hsilent : ({ result := .done } : Report).handed = [] := rfl
    obtain ⟨w', l', hle, hl, -, hagrees⟩ := h.restarted hposs hopen hsilent rfl
    exact ⟨w', l', hle, hl, hagrees⟩

/-- An acknowledged entry is on the list, and its result is what the list says. -/
theorem acked_entry {a : Ack} (ha : a ∈ fl.acks) : 0 < a.entry.index ∧
    l[a.entry.index - 1]? = some a.entry.asEntry ∧ resultAt f l a.entry = .ok a.result := by
  obtain ⟨x, hack, hx⟩ := h.acked a ha
  obtain ⟨hentry, p, hanswer⟩ := Applied.ack_eq_some hack
  have htold := hx.told hanswer
  rw [PendingProposal.complete] at htold
  split_ifs at htold
  rw [hentry]
  exact ⟨hx.pos, hx.entry, htold.symm⟩

end Agrees

/-- **Every run.** -/
theorem Agrees.run {acts : List (NodeId × RuntimeInput)} (h : fl.Agrees D f w l)
    (hrun : fl.run f Fleet.verified acts = some fl') :
    ∃ w' l', w.Le w' ∧ l <+: l' ∧ fl'.Agrees D f w' l' := by
  have hstep : ∀ {p : History × List Entry} {fl : Fleet} {act} {fl' : Fleet},
      fl.Agrees D f p.1 p.2 → fl.verified act = true →
      fl.step f act = some fl' →
      ∃ q : History × List Entry, (p.1.Le q.1 ∧ p.2 <+: q.2) ∧ fl'.Agrees D f q.1 q.2 := by
    intro p fl act fl' h hok hstep
    obtain ⟨w', l', hle, hl, hagrees⟩ := h.step hok hstep
    exact ⟨(w', l'), ⟨hle, hl⟩, hagrees⟩
  obtain ⟨p, hle, hp⟩ := runWhile_simulate (R := fun p fl => fl.Agrees D f p.1 p.2)
    (fun p => ⟨Le.refl p.1, List.prefix_rfl⟩) (fun h h' => ⟨h.1.trans h'.1, h.2.trans h'.2⟩) hstep
    (w := (w, l)) h hrun
  exact ⟨p.1, p.2, hle.1, hle.2, hp⟩

end Fleet

/-- **Replicas of one state machine.** In a run in which accepted append requests are verified and
processes restart with what they had in memory, and in any continuation of it, there is one list of
entries such that

* every process, at both moments, is in the state that the list makes up to its `last_applied`;
* every result that a proposal was given is that of its entry's command on the state before it.

So two processes, or the same process before and after a restart, are in the same state whenever
they have applied the same number of entries. -/
theorem replicas_agree (D : Deployment) (f : Formats) {acts acts' : List (NodeId × RuntimeInput)}
    {fl fl' : Fleet} (h : (Fleet.init D).run f Fleet.verified acts = some fl)
    (h' : fl.run f Fleet.verified acts' = some fl') :
    ∃ l : List Entry,
      (∀ r : Runtime, (∃ id, r = (fl.nodes id).runtime ∨ r = (fl'.nodes id).runtime) →
        r.node.core.lastApplied ≤ l.length ∧
          r.state = stateAfter f (l.take r.node.core.lastApplied)) ∧
      ∀ a ∈ fl'.acks, 0 < a.entry.index ∧ l[a.entry.index - 1]? = some a.entry.asEntry ∧
        resultAt f l a.entry = .ok a.result := by
  obtain ⟨w, l, -, -, hagrees⟩ := (Fleet.agrees_init D f).run h
  obtain ⟨w', l', -, hl, hagrees'⟩ := hagrees.run h'
  refine ⟨l', ?_, fun a ha => hagrees'.acked_entry ha⟩
  rintro r ⟨id, rfl | rfl⟩
  · obtain ⟨hstate, hlen⟩ := hagrees.state_eq id
    exact ⟨hlen.trans hl.length_le, by rw [hl.take_eq hlen]; exact hstate⟩
  · exact (hagrees'.state_eq id).symm

/-- Node 2 learns what is committed. -/
def catchUp : List (NodeId × RuntimeInput) :=
  [(0, .tick {}), (2, .receive ⟨0, 2, 1, .appendRequest ⟨2, 1, [], 2⟩⟩ {})]

/-- Nodes 0 and 2 have both applied two registrations, and are in the same state. -/
theorem replicas_agree_trio : ∃ fl fl',
    (Fleet.init trioDeployment).run jsonFormats Fleet.verified (registerZero ++ replicateBoth) =
      some fl ∧
    fl.run jsonFormats Fleet.verified catchUp = some fl' ∧
    (fl.nodes 0).runtime.node.core.lastApplied = 2 ∧
    (fl'.nodes 2).runtime.node.core.lastApplied = 2 ∧
    (fl.nodes 0).runtime.state = (fl'.nodes 2).runtime.state := by
  have hrun : ((Fleet.init trioDeployment).run jsonFormats Fleet.verified
      (registerZero ++ replicateBoth)).any (fun fl =>
        (fl.run jsonFormats Fleet.verified catchUp).any fun fl' =>
          decide ((fl.nodes 0).runtime.node.core.lastApplied = 2 ∧
            (fl'.nodes 2).runtime.node.core.lastApplied = 2)) = true := by
    decide +kernel
  obtain ⟨fl, hfl, hrest⟩ := (Option.any_eq_true _ _).1 hrun
  obtain ⟨fl', hfl', hfacts⟩ := (Option.any_eq_true _ _).1 hrest
  obtain ⟨hzero, htwo⟩ := of_decide_eq_true hfacts
  obtain ⟨l, hstates, -⟩ := replicas_agree trioDeployment jsonFormats hfl hfl'
  refine ⟨fl, fl', hfl, hfl', hzero, htwo, ?_⟩
  rw [(hstates _ ⟨0, .inl rfl⟩).2, (hstates _ ⟨2, .inr rfl⟩).2, hzero, htwo]

/-- The first put of the first client. -/
def onePut : KvCommand := .put 1 1 "n" "k" [7] "" false

end Cloud9
