import Cloud9.Node.Replicas
import Cloud9.Raft.LeaderMessages
import Cloud9.Raft.Tenure

/-!
# Where commands come from

Every command in a log was proposed. A node takes commands into its log from proposals of its own
and from append requests, and a request is a window of the log of the leader that sends it. A leader
that sends one is, after the call, still in the term of the request, so the window is part of the
log it now has (`Fleet.Agrees.request_entries`). `Fleet.Knows` says that all commands in logs and in
requests under way belong to a given set; a proposal adds its own entry to the set.
-/

namespace Cloud9

open World

/-! ## Requests of a leader -/

namespace Leader

/-- A leader that adopts a newer term is silent. -/
theorem step_sends (l : Leader) (core : Core) (event : Event) :
    (l.step core event).2.2.effects.messages = [] ∨ (l.step core event).2.1.term = core.term := by
  have hcommit : ∀ l : Leader, (afterCommit (l.maybeCommit core)).2.1.term = core.term :=
    fun l => (l.maybeCommit_identity core).2
  have hstep := l.step_stepped core event
  generalize l.step core event = r at hstep
  cases hstep with
  | adopt => exact .inl rfl
  | disk | acked | installed => exact .inr (hcommit _)
  | quiet | heartbeat | retried => exact .inr rfl

end Leader

namespace RaftNode

/-- An append request is of the term that the node is in after the call. -/
theorem stepEvent_request {n : RaftNode} {event : Event} {m : Message} {req : AppendRequest}
    (hm : m ∈ (n.stepEvent event).2.messages) (hreq : m.payload = .appendRequest req) :
    (m.from = n.core.id ∨ m.from = (n.stepEvent event).1.core.id) ∧
      m.term = (n.stepEvent event).1.core.term := by
  have hleaders : m.payload.isLeaders = true := by rw [hreq]; rfl
  rcases List.mem_append.1 hm with hrole | htransition
  · obtain ⟨hlead, hfrom, hterm⟩ := n.roleStep_speaks event m hrole hleaders
    refine ⟨.inl hfrom, ?_⟩
    obtain ⟨core, role⟩ := n
    cases role with
    | leader l =>
      rcases l.step_sends core event with hnone | hsame
      · have hrole : m ∈ (l.step core event).2.2.effects.messages := hrole
        rw [hnone] at hrole
        cases hrole
      · rw [hterm, ← hsame]
        simp only [stepEvent, roleStep]
        obtain ⟨htr | ⟨leader, htr⟩, -⟩ := l.step_kept core event
        · simp only [htr, applyTransition]
        · simp only [htr, applyTransition]
          rfl
    | _ => cases hlead
  · obtain ⟨-, hfrom, hterm⟩ := applyTransition_speaks _ _ m htransition hleaders
    exact ⟨.inr hfrom, hterm⟩

theorem propose_request {n n' : RaftNode} {cmd : Command} {index : ℕ} {effects : Effects}
    (h : n.propose cmd = some (n', .ok (index, effects))) {m : Message} {req : AppendRequest}
    (hm : m ∈ effects.messages) (hreq : m.payload = .appendRequest req) :
    (m.from = n.core.id ∨ m.from = n'.core.id) ∧ m.term = n'.core.term := by
  have hleaders : m.payload.isLeaders = true := by rw [hreq]; rfl
  have hspeaks := propose_speaks h m hm
  have hterm : n'.core.term = n.core.term := by
    cases propose_cases h with
    | accepted l core core' hcore =>
      rw [publish_term, hcore]
      rfl
  rcases hspeaks with hold | hnew
  · obtain ⟨-, hfrom, hsame⟩ := hold hleaders
    exact ⟨.inl hfrom, hsame.trans hterm.symm⟩
  · obtain ⟨-, hfrom, hsame⟩ := hnew hleaders
    exact ⟨.inr hfrom, hsame⟩

end RaftNode

/-! ## Commands in logs and requests -/

namespace Fleet

/-- The commands in logs and in append requests are among these entries. -/
structure Knows (A : List Entry) (fl : Fleet) : Prop where
  logs : ∀ id, ∀ e ∈ (fl.nodes id).runtime.node.core.log.entries, e.payload.isConfig = false → e ∈ A
  requests : ∀ m ∈ fl.sent, ∀ req, m.payload = .appendRequest req → ∀ e ∈ req.entries,
    e.payload.isConfig = false → e ∈ A

theorem knows_init (D : Deployment) : (Fleet.init D).Knows [] :=
  ⟨fun _ _ hmem => absurd hmem List.not_mem_nil, fun _ hmem => absurd hmem List.not_mem_nil⟩

variable {D : Deployment} {f : Formats} {w w' : History} {l : List Entry} {c c' : Cluster}
  {fl fl' : Fleet} {id : NodeId} {input : RuntimeInput}

/-- What a call sends is part of the log it leaves. -/
theorem Agrees.request_entries (h : fl.Agrees D f w l) {c₁ : Cluster}
    (ht₁ : (D.setting True).Tracks w' c₁) {r₀ : Runtime} {effects : Effects}
    {ticket : Option Ticket} (hnode : c₁.nodes id = r₀.node) (hsent : effects.messages ⊆ c₁.sent)
    (hbegins : Runtime.Begins f (fl.nodes id).runtime input r₀ effects ticket) {m : Message}
    {req : AppendRequest} (hm : m ∈ effects.messages) (hreq : m.payload = .appendRequest req)
    {e : Entry} (he : e ∈ req.entries) : e ∈ r₀.node.core.log.entries := by
  obtain ⟨c, ht, href⟩ := h.refines
  have hid : (fl.nodes id).runtime.node.core.id = id := by
    rw [href.node id]
    exact ht.sound.ids id
  have hid₁ : r₀.node.core.id = id := by
    rw [← hnode]
    exact ht₁.sound.ids id
  have hsender : m.from = id ∧ m.term = r₀.node.core.term := by
    cases hbegins with
    | event hevent =>
      obtain ⟨hfrom, hterm⟩ := RaftNode.stepEvent_request hm hreq
      exact ⟨hfrom.elim (·.trans hid) (·.trans hid₁), hterm⟩
    | propose _ _ _ hpropose =>
      obtain ⟨hfrom, hterm⟩ := RaftNode.propose_request hpropose hm hreq
      exact ⟨hfrom.elim (·.trans hid) (·.trans hid₁), hterm⟩
  have hrel := ht₁.sim.msgs m (hsent hm)
  simp only [Setting.MsgRel, hreq, hsender.1] at hrel
  have hcur : r₀.node.core.term = w'.cur id := by
    rw [← hnode]
    exact (ht₁.node id).term
  have hheld := ht₁.sim.inv.held hrel.1 (hsender.2.trans hcur).symm
  have hlog : r₀.node.core.log.entries = w'.log id := by
    rw [← hnode]
    exact (ht₁.node id).log
  rw [hlog, hheld]
  exact hrel.2.1.mem he

end Fleet

/-! ## Tickets -/

/-- The entry that was appended for a proposal. -/
def Ticket.asEntry (t : Ticket) : Entry := ⟨t.term, t.index, .command t.command⟩

theorem RaftNode.propose_entry {n n' : RaftNode} {cmd : Command} {index : ℕ} {effects : Effects}
    (h : n.propose cmd = some (n', .ok (index, effects))) (hplain : n.core.log.Plain) :
    n'.core.log.entries[index - 1]? = some ⟨n.term, index, .command cmd⟩ := by
  cases propose_cases h with
  | accepted l core core' hcore =>
    have hgrown : core'.Grown core'.term core'.log := ⟨rfl, .refl _ _⟩
    obtain ⟨new, hnew, -⟩ :=
      publish_grown hgrown (l.recordOwnMatch core' (core.log.lastIndex + 1))
    have hlast : core.log.lastIndex = core.log.entries.length := hplain.lastIndex
    have hentries : core'.log.entries =
        core.log.entries ++ [⟨core.term, core.log.lastIndex + 1, .command cmd⟩] := by
      rw [hcore]
      rfl
    rw [hnew, Nat.add_sub_cancel, hlast]
    show (core'.log.entries ++ new)[core.log.entries.length]? = _
    rw [hentries, List.append_assoc, List.getElem?_append_right (Nat.le_refl _), Nat.sub_self,
      hlast]
    rfl

/-- A proposal was accepted in this step of the history: its entry is new to the log of its term. -/
structure Ticket.Fresh (w w' : History) (t : Ticket) : Prop where
  pos : 0 < t.index
  new : (w.tlog t.term).length < t.index
  entry : (w'.tlog t.term)[t.index - 1]? = some t.asEntry

/-- Whoever waited for the applied entry has a ticket for its index, and if the bytes are its own,
for the entry. -/
def Applied.For (tickets : List Ticket) (a : Applied) : Prop :=
  ∀ p result, a.answer = some (p, result) → ∃ t ∈ tickets, t.id = p.id ∧
    t.index = a.entry.index ∧ t.command = p.command ∧
    (p.command = a.entry.command → t.term = a.entry.term)

namespace Runtime

variable {f : Formats} {r r₀ : Runtime} {tickets : List Ticket} {applied : List Applied}

theorem Owned.applyEntry_for (h : r.Owned tickets applied) (hcont : r.node.core.log.Contiguous)
    {entry : CommittedEntry} (hhead : r.node.committed.head? = some entry) :
    (r.applyEntry f entry).2.For tickets := by
  intro p result hanswer
  obtain ⟨pending, hpending, htold⟩ := Option.map_eq_some_iff.1 hanswer
  obtain ⟨rfl, -⟩ := Prod.mk.inj htold
  obtain ⟨t, ht, hid, hindex, hcommand, hterm⟩ := h.waiting hpending
  refine ⟨t, ht, hid, hindex, hcommand, fun hbytes => ?_⟩
  have hbytes : pending.command = entry.command := hbytes
  exact (hterm _ (get_of_head hcont hhead) (by rw [hbytes])).symm

theorem Owned.handleEffects_for (h : r.Owned tickets applied)
    (hcont : r.node.core.log.Contiguous) {effects : Effects} {env : CallEnv}
    {out : Runtime × List Handover × List Applied × Outcome}
    (hout : r.handleEffects f effects env = out) : ∀ a ∈ out.2.2.1, a.For tickets := by
  have hall := @handleEffects_rule f r effects env (fun past r =>
    r.node.core.log.Contiguous ∧ r.Owned tickets (applied ++ past) ∧ ∀ a ∈ past, a.For tickets)
    ?_ ?_ [] ?_ out hout
  · exact hall.2.2
  · rintro past r store ⟨hcont, howned, hfor⟩
    exact ⟨hcont, howned.store store, hfor⟩
  · rintro past r entry ⟨hcont, howned, hfor⟩ hhead
    rw [← List.append_assoc]
    refine ⟨hcont, howned.applyEntry hcont hhead, fun a ha => ?_⟩
    rcases List.mem_append.1 ha with hold | hnew
    · exact hfor a hold
    · rw [List.mem_singleton.1 hnew]
      exact howned.applyEntry_for hcont hhead
  · rw [List.append_nil]
    exact ⟨hcont, h, fun _ hmem => absurd hmem List.not_mem_nil⟩

end Runtime

/-! ## One input -/

namespace Fleet

variable {D : Deployment} {f : Formats} {w w' : History} {l l' A : List Entry} {c c' : Cluster}
  {fl fl' : Fleet} {id : NodeId} {input : RuntimeInput}

theorem possible_message (hposs : fl.possible f id input = true) {msg : Message}
    (hevent : (fl.nodes id).runtime.event? input = some (.message msg)) : msg ∈ fl.sent := by
  cases input with
  | receive message env =>
    simp only [Runtime.event?] at hevent
    split_ifs at hevent
    cases hevent
    exact of_decide_eq_true hposs
  | tick env =>
    simp only [Runtime.event?] at hevent
    split_ifs at hevent
    cases hevent
  | _ => cases hevent

theorem Knows.next (h : fl.Knows A) {A' : List Entry} (hA : A ⊆ A') {j : Journal} {report : Report}
    (hlog : ∀ e ∈ j.runtime.node.core.log.entries, e.payload.isConfig = false → e ∈ A')
    (hhanded : ∀ x ∈ report.handed, ∀ req, x.message.payload = .appendRequest req →
      ∀ e ∈ req.entries, e.payload.isConfig = false → e ∈ A') : (fl.next id j report).Knows A' := by
  refine ⟨fun other => ?_, fun m hm req hreq e he hcmd => ?_⟩
  · rcases eq_or_ne other id with rfl | hne
    · simpa only [Fleet.next, Function.update_self] using hlog
    · simp only [Fleet.next, Function.update_of_ne hne]
      exact fun e he hcmd => hA (h.logs other e he hcmd)
  · rcases List.mem_append.1 hm with hold | hnew
    · exact hA (h.requests m hold req hreq e he hcmd)
    · obtain ⟨x, hx, rfl⟩ := List.mem_map.1 hnew
      exact hhanded x hx req hreq e he hcmd

/-- The commands in the log after the first half of a call. -/
theorem Knows.begins (h : fl.Knows A) (ht : (D.setting True).Tracks w c) (href : fl.Refines D c)
    (hposs : fl.possible f id input = true) {r₀ : Runtime} {effects : Effects}
    {ticket : Option Ticket}
    (hbegins : Runtime.Begins f (fl.nodes id).runtime input r₀ effects ticket) {e : Entry}
    (he : e ∈ r₀.node.core.log.entries) (hcmd : e.payload.isConfig = false) :
    e ∈ A ++ ticket.toList.map Ticket.asEntry := by
  cases hbegins with
  | @event event hevent =>
    have hsnap : ∀ msg, event = .message msg → msg.payload.isSnapshot = false := by
      rintro msg rfl
      exact ht.sound.noSnapshot msg (href.sent (possible_message hposs hevent))
    refine List.mem_append_left _ ?_
    rcases RaftNode.stepEvent_command hsnap he hcmd with
      hold | ⟨msg, req, rfl, hreq, -, hmem⟩
    · exact h.logs id e hold hcmd
    · exact h.requests msg (possible_message hposs hevent) req hreq e hmem hcmd
  | propose _ _ _ hpropose =>
    rcases RaftNode.propose_command hpropose he hcmd with hold | rfl
    · exact List.mem_append_left _ (h.logs id e hold hcmd)
    · exact List.mem_append_right _ List.mem_cons_self

/-- A new entry goes to the end of the log of its leader. -/
theorem fresh_ticket (ht : (D.setting True).Tracks w c) (href : fl.Refines D c)
    (ht' : (D.setting True).Tracks w' c') {r₀ : Runtime} {effects : Effects} {t : Ticket}
    (hnode : c'.nodes id = r₀.node)
    (hbegins : Runtime.Begins f (fl.nodes id).runtime input r₀ effects (some t)) :
    t.Fresh w w' := by
  cases hbegins with
  | @propose command env bytes node index _ next hinput hbytes hnext hpropose =>
    obtain ⟨hlead, hindex⟩ := RaftNode.isLeader_of_propose hpropose
    have hsame := href.node id
    have hplain : (fl.nodes id).runtime.node.core.log.Plain := by
      rw [hsame]
      exact ht.plain id
    have hentry := RaftNode.propose_entry hpropose hplain
    have hlog : node.core.log.entries = w'.log id := by
      rw [← show c'.nodes id = node from hnode]
      exact (ht'.node id).log
    rw [hlog] at hentry
    refine ⟨by rw [hindex]; exact Nat.succ_pos _, ?_,
      ((ht'.sim.inv.log_rooted id).getElem?_tlog hentry (Nat.le_refl _)).trans hentry⟩
    show (w.tlog (fl.nodes id).runtime.node.term).length < index
    rw [hsame] at hlead
    have hleader := ht.leader hlead
    have hterm : (c.nodes id).term = w.cur id := (ht.node id).term
    have hheld := ht.sim.inv.held hleader hterm.symm
    have hold : (c.nodes id).core.log.entries = w.log id := (ht.node id).log
    rw [hindex, hsame, ← hheld, (ht.plain id).lastIndex, hold]
    exact Nat.lt_succ_self _

/-- The runtimes agree on the list `l`, answer proposals for their own entries, and hold no commands
but those of `A`. -/
structure Ledger (D : Deployment) (f : Formats) (w : History) (l A : List Entry) (fl : Fleet) :
    Prop where
  agrees : fl.Agrees D f w l
  owned : ∀ id, (fl.nodes id).runtime.Owned (fl.nodes id).tickets (fl.nodes id).applied
  knows : fl.Knows A
  listed : ∀ e ∈ l, e.payload.isConfig = false → e ∈ A

theorem ledger_init (D : Deployment) (f : Formats) : (Fleet.init D).Ledger D f World.init [] [] :=
  ⟨agrees_init D f, fun _ => Runtime.Owned.start _ _, knows_init D,
    fun _ hmem => absurd hmem List.not_mem_nil⟩

/-- The list grows by what a node has applied, which stands in its log. -/
theorem Ledger.listed_next (h : fl.Ledger D f w l A) {A' : List Entry} (hA : A ⊆ A')
    (hknows : fl'.Knows A') (hgrown : l' = l ∨ l' = (fl'.nodes id).runtime.appliedLog) :
    ∀ e ∈ l', e.payload.isConfig = false → e ∈ A' := by
  rcases hgrown with rfl | rfl
  · exact fun e he hcmd => hA (h.listed e he hcmd)
  · exact fun e he hcmd => hknows.logs id e (List.mem_of_mem_take he) hcmd

/-- What one input does, as far as the ledger records it. -/
structure Moves (D : Deployment) (f : Formats) (w w' : History) (l l' A : List Entry)
    (fl fl' : Fleet) (id : NodeId) (input : RuntimeInput) (report : Report) : Prop where
  world : w.Le w'
  decided : l <+: l'
  ledger : fl'.Ledger D f w' l' (A ++ report.ticket.toList.map Ticket.asEntry)
  fresh : ∀ t, report.ticket = some t → t.Fresh w w'
  told : ∀ a ∈ report.applied, a.On f l' ∧ a.For (fl'.nodes id).tickets
  others : ∀ other, other ≠ id → fl'.nodes other = fl.nodes other
  live : (∀ d, input ≠ .restart d) →
    (fl'.nodes id).tickets = (fl.nodes id).tickets ++ report.ticket.toList

theorem next_other {j : Journal} {report : Report} {other : NodeId} (hne : other ≠ id) :
    (fl.next id j report).nodes other = fl.nodes other := Function.update_of_ne hne ..

theorem owned_next
    (h : ∀ id, (fl.nodes id).runtime.Owned (fl.nodes id).tickets (fl.nodes id).applied)
    {j : Journal} {report : Report} (hj : j.runtime.Owned j.tickets j.applied) (other : NodeId) :
    ((fl.next id j report).nodes other).runtime.Owned ((fl.next id j report).nodes other).tickets
      ((fl.next id j report).nodes other).applied := by
  rcases eq_or_ne other id with rfl | hne
  · simpa only [Fleet.next, Function.update_self] using hj
  · rw [next_other hne]
    exact h other

theorem owned_begins (h : (fl.nodes id).runtime.Owned (fl.nodes id).tickets (fl.nodes id).applied)
    (ht : (D.setting True).Tracks w c) (href : fl.Refines D c)
    (hposs : fl.possible f id input = true) (hkeep : fl.keepsTerms (id, input) = true)
    {r₀ : Runtime} {effects : Effects} {ticket : Option Ticket} (hplain : r₀.node.core.log.Plain)
    (hbegins : Runtime.Begins f (fl.nodes id).runtime input r₀ effects ticket) :
    r₀.Owned ((fl.nodes id).tickets ++ ticket.toList) (fl.nodes id).applied := by
  have hcont : (fl.nodes id).runtime.node.core.log.Contiguous := by
    rw [href.node id]
    exact (ht.plain id).contiguous
  cases hbegins with
  | @event event hevent =>
    have hsnap : ∀ msg, event = .message msg → msg.payload.isSnapshot = false := by
      rintro msg rfl
      exact ht.sound.noSnapshot msg (href.sent (possible_message hposs hevent))
    rw [Option.toList_none, List.append_nil]
    exact h.event hevent hsnap hcont hplain.contiguous hkeep
  | propose _ _ hnext hpropose => exact h.propose hcont hnext hpropose

/-- **One input**, where accepted append requests are verified and keep the terms of waiting
proposals. -/
theorem Ledger.perform (h : fl.Ledger D f w l A) (hkeep : fl.keepsTerms (id, input) = true)
    (hok : fl.verified (id, input) = true) {r' : Runtime} {report : Report}
    (hposs : fl.possible f id input = true)
    (hcall : (fl.nodes id).call f input = some (r', report)) :
    ∃ w' l', Moves D f w w' l l' A fl (fl.next id ((fl.nodes id).next input r' report) report) id
      input report := by
  obtain ⟨c, ht, href⟩ := h.agrees.refines
  cases Journal.call_spec hcall with
  | idle hrests hhanded happlied hticket _ hlive =>
    rw [Journal.next_of_live hlive]
    obtain ⟨l', hl, hgrown, hagrees⟩ := h.agrees.idle hrests hhanded happlied hticket
    have howned : ((fl.nodes id).record r' report).runtime.Owned
        ((fl.nodes id).record r' report).tickets ((fl.nodes id).record r' report).applied := by
      simp only [Journal.record, happlied, hticket, Option.toList_none, List.append_nil]
      exact (h.owned id).rests hrests
    have hsub : A ⊆ A ++ report.ticket.toList.map Ticket.asEntry := List.subset_append_left _ _
    have hknows : (fl.next id ((fl.nodes id).record r' report) report).Knows
        (A ++ report.ticket.toList.map Ticket.asEntry) := by
      refine h.knows.next hsub (fun e he hcmd => ?_) fun x hx => ?_
      · have he : e ∈ r'.node.core.log.entries := he
        rw [hrests.node] at he
        exact hsub (h.knows.logs id e he hcmd)
      · rw [hhanded] at hx
        cases hx
    refine ⟨w, l', Le.refl w, hl, ⟨hagrees, owned_next h.owned howned, hknows,
      h.listed_next hsub hknows hgrown⟩, fun t ht => ?_, fun a ha => ?_, fun _ => next_other,
      fun _ => ?_⟩
    · rw [hticket] at ht
      cases ht
    · rw [happlied] at ha
      cases ha
    · simp only [Fleet.next, Function.update_self, Journal.record]
  | @handled r₀ r₁ _ effects env outcome _ hbegins hhandles hrests _ hlive =>
    rw [Journal.next_of_live hlive]
    obtain ⟨w', c₁, l', hle, ht₁, hnode, hsent, hl, hgrown, hagrees⟩ :=
      h.agrees.handled hposs hok hbegins hhandles hrests
    obtain ⟨-, hplain⟩ := h.agrees.begins ht href hposs ht₁ hnode hbegins
    have howned₀ := owned_begins (h.owned id) ht href hposs hkeep hplain hbegins
    have hcont := hplain.contiguous
    have howned : r'.Owned ((fl.nodes id).tickets ++ report.ticket.toList)
        ((fl.nodes id).applied ++ report.applied) :=
      (howned₀.handleEffects hcont hhandles).rests hrests
    have hknown : ∀ e ∈ r₀.node.core.log.entries, e.payload.isConfig = false →
        e ∈ A ++ report.ticket.toList.map Ticket.asEntry :=
      fun e he hcmd => h.knows.begins ht href hposs hbegins he hcmd
    obtain ⟨-, ⟨k, hadvance⟩, hhanded⟩ := Runtime.handleEffects_frame hhandles
    have hsub : A ⊆ A ++ report.ticket.toList.map Ticket.asEntry := List.subset_append_left _ _
    have hknows : (fl.next id ((fl.nodes id).record r' report) report).Knows
        (A ++ report.ticket.toList.map Ticket.asEntry) := by
      refine h.knows.next hsub (fun e he hcmd => hknown e ?_ hcmd)
        fun x hx req hreq e he hcmd => hknown e ?_ hcmd
      · have he : e ∈ r'.node.core.log.entries := he
        rwa [hrests.node, show r₁.node = r₀.node.advance k from hadvance] at he
      · exact h.agrees.request_entries ht₁ hnode hsent hbegins (hhanded x hx) hreq he
    refine ⟨w', l', hle, hl, ⟨hagrees, owned_next h.owned howned, hknows,
      h.listed_next hsub hknows hgrown⟩, fun t hticket => ?_, fun a ha => ⟨?_, ?_⟩,
      fun _ => next_other, fun _ => ?_⟩
    · rw [hticket] at hbegins
      exact fresh_ticket ht href ht₁ hnode hbegins
    · refine hagrees.shows id a ?_
      simp only [Fleet.next, Function.update_self, Journal.record]
      exact List.mem_append_right _ ha
    · simp only [Fleet.next, Function.update_self, Journal.record]
      exact howned₀.handleEffects_for hcont hhandles a ha
    · simp only [Fleet.next, Function.update_self, Journal.record]
  | @restart d d' _ _ hinput hopen _ =>
    subst hinput
    simp only [Journal.call, hopen, Option.some.injEq, Prod.mk.injEq, true_and] at hcall
    subst hcall
    have hsilent : ({ result := .done } : Report).handed = [] := rfl
    obtain ⟨w', l', hle, hl, hgrown, hagrees⟩ := h.agrees.restarted hposs hopen hsilent rfl
    have hstart := (Runtime.open_start hopen).1
    have howned : r'.Owned [] [] := by
      rw [hstart]
      exact Runtime.Owned.start _ _
    have hsub : A ⊆ A ++ List.map Ticket.asEntry [] := List.subset_append_left _ _
    have hknows : (fl.next id ⟨r', (fl.nodes id).handed, [], []⟩ { result := .done }).Knows
        (A ++ List.map Ticket.asEntry []) := by
      refine h.knows.next hsub (fun e he hcmd => ?_) fun x hx => by cases hx
      have hsame : r'.store.durable = (fl.nodes id).runtime.node.persistent := by
        simpa only [possible, hopen, decide_eq_true_eq] using hposs
      have hlog : r'.node.core.log = (fl.nodes id).runtime.node.core.log := by
        rw [hstart]
        exact congrArg Persistent.log hsame
      have he : e ∈ r'.node.core.log.entries := he
      rw [hlog] at he
      exact hsub (h.knows.logs id e he hcmd)
    exact ⟨w', l', hle, hl, ⟨hagrees, owned_next h.owned howned, hknows,
      h.listed_next hsub hknows hgrown⟩, fun t ht => (by cases ht), fun a ha => (by cases ha),
      fun _ => next_other, fun hlive => absurd rfl (hlive d)⟩

end Fleet

end Cloud9
