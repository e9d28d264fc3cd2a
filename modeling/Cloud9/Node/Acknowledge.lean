import Cloud9.Node.Acked

/-!
# A proposal is acknowledged for its own entry

Which entry a proposal is told the result of, in a cluster of runtimes. A runtime compares bytes
only. So it answers a proposal for its own entry as long as no other leader's entry with the same
bytes takes the place of it; `Fleet.keepsTerms` says this of one input.

* `acknowledged_own`: then every acknowledged entry has the index and the term of its proposal, and
  if accepted append requests are verified as well, no two registrations return the same client id.
* `acknowledged_twice`: without the condition, two registrations of different nodes are acknowledged
  for one entry, with the same client id.
-/

namespace Cloud9

open World

/-! ## The cluster of runtimes -/

/-- Membership is fixed. -/
def Deployment.setting (D : Deployment) (strong : Prop) : Setting :=
  fixedSetting D.consensus D.peers.toList strong

namespace Fleet

/-- `Runtime.keepsTerms` of the node that acts. -/
def keepsTerms (fl : Fleet) (act : NodeId × RuntimeInput) : Bool :=
  (fl.nodes act.1).runtime.keepsTerms (fl.nodes act.1).tickets act.2

/-- Proposals are answered for their own entries; where accepted append requests are verified, the
history has the acknowledged entries. -/
structure Honest (D : Deployment) (f : Formats) (strong : Prop) (w : History) (fl : Fleet) :
    Prop where
  refines : ∃ c, (D.setting strong).Tracks w c ∧ fl.Refines D c
  owned : ∀ id, (fl.nodes id).runtime.Owned (fl.nodes id).tickets (fl.nodes id).applied
  settled : strong → ∀ id, (fl.nodes id).runtime.Settled f w id fl.acks (fl.nodes id).tickets
    (fl.nodes id).applied
  acked : strong → Acked (D.setting strong).system f w fl.acks

variable {D : Deployment} {f : Formats} {strong : Prop} {w w' : History} {c c' : Cluster}
  {fl fl' : Fleet} {id : NodeId} {input : RuntimeInput}

theorem honest_init (D : Deployment) (f : Formats) (strong : Prop) :
    (Fleet.init D).Honest D f strong World.init where
  refines := ⟨_, Setting.tracks_init D.consensus D.peers.toList strong False (fun h => by cases h),
    refines_init D⟩
  owned _ := Runtime.Owned.start _ _
  settled _ _ := by
    refine ⟨⟨⟨Log.plain_empty.contiguous, Nat.le_refl _, Nat.zero_le _⟩, rfl, Nat.le_refl _,
      rfl, rfl⟩, fun _ hmem => absurd hmem List.not_mem_nil, fun h => by cases h⟩
  acked _ := ⟨fun _ hmem => absurd hmem List.not_mem_nil, List.nodup_nil⟩

/-- One node moves on. What it acknowledges is of terms it led, so the proposals of the others still
wait. -/
theorem Honest.next (h : fl.Honest D f strong w) (hle : w.Le w')
    (ht : (D.setting strong).Tracks w' c') {j : Journal} {report : Report}
    (href : (fl.next id j report).Refines D c') (howned : j.runtime.Owned j.tickets j.applied)
    (happlied : report.applied ⊆ j.applied)
    (hsettled : strong → j.runtime.Settled f w' id (fl.acks ++ report.applied.filterMap Applied.ack)
      j.tickets j.applied)
    (hacked : strong → Acked (D.setting strong).system f w'
      (fl.acks ++ report.applied.filterMap Applied.ack)) :
    (fl.next id j report).Honest D f strong w' := by
  refine ⟨⟨c', ht, href⟩, fun other => ?_, fun hs other => ?_, hacked⟩
  · rcases eq_or_ne other id with rfl | hne
    · simpa only [Fleet.next, Function.update_self] using howned
    · simpa only [Fleet.next, Function.update_of_ne hne] using h.owned other
  · rcases eq_or_ne other id with rfl | hne
    · simpa only [Fleet.next, Function.update_self] using hsettled hs
    · simp only [Fleet.next, Function.update_of_ne hne]
      have hold := h.settled hs other
      refine ⟨hold.applies, fun t ht => hle.leader (hold.leads t ht),
        fun hp a ha hindex t ht hid hterm => ?_⟩
      rcases List.mem_append.1 ha with hmem | hnew
      · exact hold.pending hp a hmem hindex t ht hid hterm
      · obtain ⟨x, hx, hack⟩ := List.mem_filterMap.1 hnew
        obtain ⟨hentry, p, hanswer⟩ := Applied.ack_eq_some hack
        obtain ⟨t', ht', -, -, hterm', -⟩ := howned.answered x (happlied hx) p a.result hanswer
        have hmine := (hsettled hs).leads t' ht'
        rw [hterm', ← hentry, hterm, hle.leader (hold.leads t ht)] at hmine
        exact hne (Option.some.inj hmine)

theorem Honest.begins (h : fl.Honest D f strong w) (ht : (D.setting strong).Tracks w c)
    (href : fl.Refines D c) (hposs : fl.possible f id input = true)
    (hkeep : fl.keepsTerms (id, input) = true) (hle : w.Le w')
    (ht' : (D.setting strong).Tracks w' c') {r₀ : Runtime} {effects : Effects}
    {ticket : Option Ticket} (hnode : c'.nodes id = r₀.node)
    (hbegins : Runtime.Begins f (fl.nodes id).runtime input r₀ effects ticket) :
    r₀.Owned ((fl.nodes id).tickets ++ ticket.toList) (fl.nodes id).applied ∧
      (strong → r₀.Settled f w' id fl.acks ((fl.nodes id).tickets ++ ticket.toList)
        (fl.nodes id).applied) := by
  have hsame := href.node id
  have hplain := ht'.plain id
  rw [hnode] at hplain
  have hcont : (fl.nodes id).runtime.node.core.log.Contiguous := by
    rw [hsame]
    exact (ht.plain id).contiguous
  cases hbegins with
  | event hevent =>
    rw [Option.toList_none, List.append_nil]
    have hcases := href.event_cases hposs hevent
    refine ⟨(h.owned id).event hevent (fun msg hmsg => ?_) hcont hplain.contiguous hkeep,
      fun hs => (h.settled hs id).extend hle ?_ rfl rfl⟩
    · rcases hcases with rfl | ⟨msg', rfl, hmem, -⟩
      · cases hmsg
      · cases hmsg
        exact ht.sound.noSnapshot msg hmem
    · show (fl.nodes id).runtime.node.core.Extends _
      rw [hsame] at hplain ⊢
      exact ht.stepEvent_extends hs hcases hplain
  | propose _ _ hnext hpropose =>
    exact ⟨(h.owned id).propose hcont hnext hpropose, fun hs =>
      (h.settled hs id).propose ht hsame (h.owned id) (h.acked hs) hle hpropose⟩

/-- **One input.** -/
theorem Honest.step (h : fl.Honest D f strong w) (hkeep : fl.keepsTerms (id, input) = true)
    (hverified : strong → fl.verified (id, input) = true)
    (hstep : fl.step f (id, input) = some fl') : ∃ w', w.Le w' ∧ fl'.Honest D f strong w' := by
  obtain ⟨hposs, r', report, hcall, rfl⟩ := step_eq_some.1 hstep
  obtain ⟨c, ht, href⟩ := h.refines
  cases Journal.call_spec hcall with
  | idle hrests hhanded happlied hticket _ hlive =>
    rw [Journal.next_of_live hlive]
    have hj : (fl.nodes id).record r' report =
        ⟨r', (fl.nodes id).handed, (fl.nodes id).tickets, (fl.nodes id).applied⟩ := by
      simp [Journal.record, hhanded, happlied, hticket]
    rw [hj]
    have href' : (fl.next id ⟨r', (fl.nodes id).handed, (fl.nodes id).tickets,
        (fl.nodes id).applied⟩ report).Refines D c := by
      refine href.next (hrests.config.trans (href.config id)) (hrests.node.trans (href.node id))
        (fun _ _ => rfl) (List.Subset.refl _) ?_
      rw [hhanded]
      exact fun _ hmem => absurd hmem List.not_mem_nil
    refine ⟨w, Le.refl w, h.next (Le.refl w) ht href' ((h.owned id).rests hrests) ?_ ?_ ?_⟩
    · rw [happlied]
      exact List.nil_subset _
    · rw [happlied, List.filterMap_nil, List.append_nil]
      exact fun hs => (h.settled hs id).rests hrests
    · rw [happlied, List.filterMap_nil, List.append_nil]
      exact h.acked
  | @handled r₀ r₁ _ effects env outcome _ hbegins hhandles hrests _ hlive =>
    rw [Journal.next_of_live hlive]
    obtain ⟨w₁, c₁, hle, ht₁, hnodes, hsent⟩ := href.begins ht hposs hverified hbegins
    have hself : c₁.nodes id = r₀.node := by rw [hnodes, Function.update_self]
    obtain ⟨c', ht', href'⟩ := href.handles ht₁ hnodes hsent
      (hbegins.config.trans (href.config id)) hhandles hrests
      (j := (fl.nodes id).record r' report) rfl
    obtain ⟨howned, hsettled⟩ := h.begins ht href hposs hkeep hle ht₁ hself hbegins
    have hcont : r₀.node.core.log.Contiguous := by
      rw [← hself]
      exact (ht₁.plain id).contiguous
    have hnode : (D.setting strong).NodeRel w₁ id r₀.node.view := by
      rw [← hself]
      exact ht₁.node id
    have hrest := fun hs => (hsettled hs).handleEffects hs ht₁.sim.inv hnode howned
      ((h.acked hs).mono ht.sim.inv hle) hhandles
    exact ⟨w₁, hle, h.next hle ht' href' ((howned.handleEffects hcont hhandles).rests hrests)
      (List.subset_append_right _ _) (fun hs => (hrest hs).1.rests hrests) fun hs => (hrest hs).2⟩
  | @restart d d' _ _ hinput hopen _ =>
    subst hinput
    simp only [Journal.call, hopen, Option.some.injEq, Prod.mk.injEq, true_and] at hcall
    subst hcall
    have hsilent : ({ result := .done } : Report).handed = [] := rfl
    obtain ⟨w', c', hle, ht', href'⟩ := href.restart ht (fun _ => rfl) hposs hopen
      (j := ⟨r', (fl.nodes id).handed, [], []⟩) rfl hsilent
    have hstart := (Runtime.open_start hopen).1
    refine ⟨w', hle, h.next hle ht' href' ?_ (List.nil_subset _) (fun _ => ?_) fun hs => ?_⟩
    · show r'.Owned [] []
      rw [hstart]
      exact Runtime.Owned.start _ _
    · refine ⟨Journal.applies_start hopen, fun _ hmem => absurd hmem List.not_mem_nil,
        fun hp => ?_⟩
      rw [hstart] at hp
      cases hp
    · rw [List.filterMap_nil, List.append_nil]
      exact (h.acked hs).mono ht.sim.inv hle

end Fleet

/-- **A proposal is acknowledged only for its own entry**, in every run, with ticks, messages,
proposals, dropped calls, failing saves and restarts, in which an accepted append request never
carries the bytes of a waiting proposal at its index with another term: the entry has the index, the
term and the bytes of the one proposal with the id of the answered one. If every accepted append
request is verified too, then no two registrations, on any nodes, return the same client id. -/
theorem acknowledged_own (D : Deployment) (f : Formats) {acts : List (NodeId × RuntimeInput)}
    {fl : Fleet} (h : (Fleet.init D).run f Fleet.keepsTerms acts = some fl) :
    (∀ id, ((fl.nodes id).tickets.map Ticket.id).Nodup ∧
      ∀ a ∈ (fl.nodes id).applied, a.Own (fl.nodes id).tickets) ∧
    ((Fleet.init D).run f Fleet.verified acts = some fl →
      (fl.acks.filterMap Ack.clientId).Nodup) := by
  constructor
  · obtain ⟨w, -, hw⟩ := runWhile_simulate (R := Fleet.Honest D f False) Le.refl Le.trans
      (fun h hok hstep => h.step hok False.elim hstep) (Fleet.honest_init D f False) h
    exact fun id => ⟨(hw.owned id).nodup, (hw.owned id).answered⟩
  · intro hverified
    obtain ⟨w, -, hw⟩ := runWhile_simulate (R := Fleet.Honest D f True) Le.refl Le.trans
      (fun h hok hstep => h.step (Bool.and_eq_true_iff.1 hok).1
        (fun _ => (Bool.and_eq_true_iff.1 hok).2) hstep)
      (Fleet.honest_init D f True) (runWhile_and.2 ⟨h, hverified⟩)
    obtain ⟨c, ht, -⟩ := hw.refines
    exact clientIds_nodup ht.sim.inv (hw.acked trivial).placed (hw.acked trivial).nodup

def trioDeployment : Deployment where
  peers := (trioConfig quickConfig 0).peers
  addr := (trioConfig quickConfig 0).peerAddr
  consensus := fun _ => quickConfig

/-- Node 0 becomes the leader of term 1 and takes a registration. -/
def registerZero : List (NodeId × RuntimeInput) :=
  [(0, .tick {}), (2, .receive ⟨0, 2, 1, .voteRequest ⟨0, 0⟩⟩ {}),
    (0, .receive ⟨2, 0, 1, .voteResponse ⟨true⟩⟩ {}), (0, .propose .registerSession {})]

/-- Node 0 takes a second registration, and node 2 acknowledges both. -/
def replicateBoth : List (NodeId × RuntimeInput) :=
  [(0, .propose .registerSession {}),
    (2, .receive ⟨0, 2, 1, .appendRequest
      ⟨0, 0, [⟨1, 1, .command KvCommand.registerSession.toJson⟩], 0⟩⟩ {}),
    (2, .receive ⟨0, 2, 1, .appendRequest
      ⟨1, 1, [⟨1, 2, .command KvCommand.registerSession.toJson⟩], 0⟩⟩ {}),
    (0, .receive ⟨2, 0, 1, .appendResponse ⟨true, 2⟩⟩ {})]

/-- Two registrations on node 0 return the client ids 1 and 2. -/
theorem acknowledged_own_trio : ∃ fl,
    (Fleet.init trioDeployment).run jsonFormats Fleet.keepsTerms (registerZero ++ replicateBoth) =
      some fl ∧
    (Fleet.init trioDeployment).run jsonFormats Fleet.verified (registerZero ++ replicateBoth) =
      some fl ∧
    (fl.nodes 0).applied.length = 2 ∧ fl.acks.filterMap Ack.clientId = [1, 2] ∧
    (∀ a ∈ (fl.nodes 0).applied, a.Own (fl.nodes 0).tickets) ∧
    (fl.acks.filterMap Ack.clientId).Nodup := by
  have hrun : ((Fleet.init trioDeployment).run jsonFormats
      (fun fl act => fl.keepsTerms act && fl.verified act) (registerZero ++ replicateBoth)).any
      (fun fl => decide ((fl.nodes 0).applied.length = 2 ∧
        fl.acks.filterMap Ack.clientId = [1, 2])) = true := by
    decide +kernel
  obtain ⟨fl, hboth, hfacts⟩ := (Option.any_eq_true _ _).1 hrun
  obtain ⟨happlied, hids⟩ := of_decide_eq_true hfacts
  obtain ⟨hkeeps, hverified⟩ := runWhile_and.1 hboth
  have hown := acknowledged_own trioDeployment jsonFormats hkeeps
  exact ⟨fl, hkeeps, hverified, happlied, hids, (hown.1 0).2, hown.2 hverified⟩

/-- Node 1 becomes the leader of term 2 and takes a registration. Its entry replaces the one of node
0 and is committed. -/
def replaceZero : List (NodeId × RuntimeInput) :=
  [(1, .tick {}), (1, .tick {}), (2, .receive ⟨1, 2, 2, .voteRequest ⟨0, 0⟩⟩ {}),
    (1, .receive ⟨2, 1, 2, .voteResponse ⟨true⟩⟩ {}), (1, .propose .registerSession {}),
    (0, .receive ⟨1, 0, 2, .appendRequest ⟨0, 0, [], 0⟩⟩ {}),
    (0, .receive ⟨1, 0, 2, .appendRequest
      ⟨0, 0, [⟨2, 1, .command KvCommand.registerSession.toJson⟩], 0⟩⟩ {}),
    (1, .receive ⟨0, 1, 2, .appendResponse ⟨true, 1⟩⟩ {}), (1, .tick {}),
    (0, .receive ⟨1, 0, 2, .appendRequest ⟨1, 2, [], 1⟩⟩ {})]

/-- **A proposal is acknowledged for another leader's entry.** The proposal of node 0 was appended
in term 1. The entry it is told the result of is of term 2 and belongs to the proposal of node 1,
and both registrations return the client id 1. -/
theorem acknowledged_twice : ∃ fl,
    (∀ id ∈ trioDeployment.peers, ∃ d, Runtime.open jsonFormats (trioDeployment.config id)
      Dir.empty = (d, .ok (trioDeployment.process id))) ∧
    (Fleet.init trioDeployment).run jsonFormats Fleet.verified (registerZero ++ replaceZero) =
      some fl ∧
    (∃ a ∈ (fl.nodes 0).applied, ∃ p result, a.answer = some (p, .ok result) ∧
      ∃ t ∈ (fl.nodes 0).tickets, t.id = p.id ∧ t.index = a.entry.index ∧ t.term = 1 ∧
        a.entry.term = 2) ∧
    fl.acks.filterMap Ack.clientId = [1, 1] := by
  have hrun : ((Fleet.init trioDeployment).run jsonFormats Fleet.verified
      (registerZero ++ replaceZero)).any (fun fl =>
        ((fl.nodes 0).applied.any fun a => a.answer.any fun (p, answer) => answer.isOk &&
          decide (∃ t ∈ (fl.nodes 0).tickets, t.id = p.id ∧ t.index = a.entry.index ∧ t.term = 1 ∧
            a.entry.term = 2)) &&
        decide (fl.acks.filterMap Ack.clientId = [1, 1])) = true := by
    decide +kernel
  obtain ⟨fl, hfl, hfacts⟩ := (Option.any_eq_true _ _).1 hrun
  obtain ⟨happlied, hids⟩ := Bool.and_eq_true_iff.1 hfacts
  obtain ⟨a, ha, hany⟩ := List.any_eq_true.1 happlied
  obtain ⟨⟨p, answer⟩, hanswer, hticket⟩ := (Option.any_eq_true _ _).1 hany
  obtain ⟨hok, hticket⟩ := Bool.and_eq_true_iff.1 hticket
  refine ⟨fl, fun id hid => trioDeployment.open_process jsonFormats ?_, hfl, ⟨a, ha, p, ?_⟩,
    of_decide_eq_true hids⟩
  · have hvalid : ∀ id ∈ [0, 1, 2], validateConfig (trioDeployment.config id) = .ok () := by
      decide +kernel
    exact hvalid id hid
  · cases answer with
    | error e => cases hok
    | ok result => exact ⟨result, hanswer, of_decide_eq_true hticket⟩

end Cloud9
