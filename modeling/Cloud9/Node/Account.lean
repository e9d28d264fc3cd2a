import Cloud9.Node.Origin
import Cloud9.Node.Service

/-!
# The account of a run

To show that a history is linearizable, the order has to be produced. It is the list of decided
entries of `Cloud9.Node.Replicas`, and a read takes place after the entries that its node has
applied when it looks the key up. An `Account` keeps, next to a service, what the order is made of,
and `Service.Explained` says that it accounts for what the handlers and the clients know. Then the
list decides the history (`Service.Explained.decides`).
-/

namespace Cloud9

open World

/-! ## The ghost state

The ghost state next to a service: which entry was appended for which call, from which prefix of the
list a read was answered, and how long the list was when a call began. -/

/-- A proposal that was accepted, with the call it was made for. -/
structure Proposal where
  op : ℕ
  request : KvRequest
  entry : Entry

abbrev ServiceEvent := ClientEvent ℕ KvRequest KvAnswer KvError

def Ticket.committed (t : Ticket) : CommittedEntry := ⟨t.index, t.term, t.command⟩

/-- The entry holds the command of the call's request, and is in the log of its term. -/
structure Proposal.Sound (f : Formats) (w : History) (h : List ServiceEvent) (p : Proposal) :
    Prop where
  pos : 0 < p.entry.index
  placed : (w.tlog p.entry.term)[p.entry.index - 1]? = some p.entry
  command : ∃ command bytes, p.request.command = .ok command ∧
    f.command.encode command = some bytes ∧ p.entry.payload = .command bytes
  called : .call p.op p.request ∈ h

/-- The proposals so far. -/
structure Booked (f : Formats) (w : History) (l : List Entry) (floor : ℕ → ℕ) (ps : List Proposal)
    (h : List ServiceEvent) (n : ℕ) : Prop where
  sound : ∀ p ∈ ps, p.Sound f w h
  bound : ∀ p ∈ ps, p.op < n
  ops : (ps.map Proposal.op).Nodup
  entries : (ps.map Proposal.entry).Nodup
  low : ∀ i, floor i ≤ l.length
  /-- What is decided when a call begins does not contain the call's entry. -/
  late : ∀ p ∈ ps, l[p.entry.index - 1]? = some p.entry → floor p.op < p.entry.index

/-- What an answer says about the list: another entry has the place of the proposal's, or the
proposal's is there and the answer is its result. -/
def OpenCall.Heard (f : Formats) (l : List Entry) (call : OpenCall) (result : ApplyResult) : Prop :=
  (result = .error supersededError ∧
    ∃ e, l[call.ticket.index - 1]? = some e ∧ e ≠ call.ticket.asEntry) ∨
  (l[call.ticket.index - 1]? = some call.ticket.asEntry ∧
    result = resultAt f l call.ticket.committed)

/-- The handlers that wait. -/
structure Waiting (f : Formats) (fl : Fleet) (l : List Entry) (ps : List Proposal)
    (calls : List OpenCall) (h : List ServiceEvent) : Prop where
  proposal : ∀ c ∈ calls, ⟨c.op, c.request, c.ticket.asEntry⟩ ∈ ps
  ticket : ∀ c ∈ calls, c.ticket ∈ (fl.nodes c.node).tickets
  heard : ∀ c ∈ calls, ∀ result, c.answer = some result → c.Heard f l result
  nodup : (calls.map OpenCall.op).Nodup
  unanswered : ∀ c ∈ calls, ∀ ev ∈ h, ev.isReply = true → ev.id ≠ c.op

/-- A read was answered from a prefix of the list that is longer than what was decided when it
began. -/
structure ReadOk (l : List Entry) (floor : ℕ → ℕ) (ps : List Proposal)
    (h : List ServiceEvent) (x : ReadPoint ℕ KvRequest) : Prop where
  isRead : x.op.isRead = true
  pos_le : x.pos ≤ l.length
  floor_lt : floor x.id < x.pos
  proposal : ∃ p ∈ ps, p.op = x.id ∧ p.request = x.op
  answered : ∃ r, .answer x.id r ∈ h

/-- The place of a proposal is taken by another entry. -/
def Proposal.Lost (l : List Entry) (p : Proposal) : Prop :=
  ∃ e, l[p.entry.index - 1]? = some e ∧ e ≠ p.entry

/-- The answer is that of the update at its place of the list, or of the read at its point. -/
def AnswerOk (f : Formats) (l : List Entry) (ps : List Proposal)
    (rs : List (ReadPoint ℕ KvRequest)) (i : ℕ) (r : KvAnswer) : Prop :=
  (∃ p ∈ ps, p.op = i ∧ p.request.isRead = false ∧ l[p.entry.index - 1]? = some p.entry ∧
    r = ((stateAfter f (l.take (p.entry.index - 1))).serve p.request).2) ∨
  ∃ x ∈ rs, x.id = i ∧ r = ((stateAfter f (l.take x.pos)).serve x.op).2

/-- What the clients have seen. -/
structure Seen (f : Formats) (l : List Entry) (floor : ℕ → ℕ) (ps : List Proposal)
    (rs : List (ReadPoint ℕ KvRequest)) (h : List ServiceEvent) (n : ℕ) : Prop where
  bound : ∀ ev ∈ h, ev.id < n
  reads : ∀ x ∈ rs, ReadOk l floor ps h x
  nodup : (rs.map ReadPoint.id).Nodup
  answers : ∀ {i r}, .answer i r ∈ h → AnswerOk f l ps rs i r
  refusals : ∀ {i e}, .refuse i e ∈ h →
    (∀ p ∈ ps, p.op = i → p.Lost l) ∧ ∀ x ∈ rs, x.id ≠ i
  order : ∀ {h₁ h₂ i j r o}, h = h₁ ++ h₂ → .answer i r ∈ h₁ → .call j o ∈ h₂ →
    (∀ p ∈ ps, p.op = i → p.request.isRead = false → p.entry.index ≤ floor j) ∧
    ∀ x ∈ rs, x.id = i → x.pos ≤ floor j

/-- The ghost state. -/
structure Account where
  world : History
  decided : List Entry
  floor : ℕ → ℕ
  proposals : List Proposal
  reads : List (ReadPoint ℕ KvRequest)

/-- The ghost state explains the service. -/
structure Service.Explained (D : Deployment) (f : Formats) (g : Account) (s : Service) : Prop where
  ledger : s.fleet.Ledger D f g.world g.decided (g.proposals.map Proposal.entry)
  booked : Booked f g.world g.decided g.floor g.proposals s.history s.nextOp
  waiting : Waiting f s.fleet g.decided g.proposals s.calls s.history
  seen : Seen f g.decided g.floor g.proposals g.reads s.history s.nextOp

theorem Service.explained_init (D : Deployment) (f : Formats) :
    (Service.init D).Explained D f ⟨World.init, [], fun _ => 0, [], []⟩ where
  ledger := Fleet.ledger_init D f
  booked := ⟨fun _ hmem => absurd hmem List.not_mem_nil, fun _ hmem => absurd hmem List.not_mem_nil,
    List.nodup_nil, List.nodup_nil, fun _ => Nat.le_refl _,
    fun _ hmem => absurd hmem List.not_mem_nil⟩
  waiting :=
    ⟨fun _ hmem => absurd hmem List.not_mem_nil, fun _ hmem => absurd hmem List.not_mem_nil,
    fun _ hmem => absurd hmem List.not_mem_nil, List.nodup_nil,
    fun _ hmem => absurd hmem List.not_mem_nil⟩
  seen := by
    refine ⟨fun _ hmem => absurd hmem List.not_mem_nil, fun _ hmem => absurd hmem List.not_mem_nil,
      List.nodup_nil, fun hmem => absurd hmem List.not_mem_nil,
      fun hmem => absurd hmem List.not_mem_nil, fun {h₁ h₂ i j r o} hh hans => ?_⟩
    rw [(List.append_eq_nil_iff.1 hh.symm).1] at hans
    cases hans

/-! ## The order -/

theorem applyCommand_of_encode {f : Formats} {command : KvCommand} {bytes : Command}
    (h : f.command.encode command = some bytes) (s : KvState) :
    Runtime.applyCommand f s bytes = s.apply command := by
  rw [Runtime.applyCommand, f.command.decode_of_encode h]

theorem stateAfter_take_succ (f : Formats) {l : List Entry} {k : ℕ} {e : Entry}
    (he : l[k]? = some e) : stateAfter f (l.take (k + 1)) = match e.payload with
      | .command command => (Runtime.applyCommand f (stateAfter f (l.take k)) command).1
      | .config _ => stateAfter f (l.take k) := by
  rw [List.take_add_one, he, Option.toList_some]
  cases hp : e.payload with
  | command command => exact stateAfter_concat f _ hp
  | config cfg => simp [stateAfter, List.filterMap_append, Entry.command?, hp]

/-- Entries stand at their indices. -/
theorem Fleet.Agrees.decided_index {D : Deployment} {f : Formats} {w : History} {l : List Entry}
    {fl : Fleet} (h : fl.Agrees D f w l) {k : ℕ} {e : Entry} (he : l[k]? = some e) :
    e.index = k + 1 := by
  obtain ⟨c, ht, -⟩ := h.refines
  obtain ⟨T, hcovered⟩ := h.decided
  have hrooted := ht.sim.inv.covered_rooted hcovered
  rw [List.take_length] at hrooted
  exact (ht.sim.logs.indexed e.term).index_eq
    ((hrooted.getElem?_tlog he (Nat.le_refl k)).trans he)

namespace Account

/-- The update at a place of the list. -/
def update (g : Account) (k : ℕ) : Option (ℕ × KvRequest) :=
  g.decided[k]?.bind fun e => (g.proposals.find? fun p => p.entry = e).bind fun p =>
    if p.request.isRead then none else some (p.op, p.request)

theorem find_proposal {ps : List Proposal} (hnodup : (ps.map Proposal.entry).Nodup) {p : Proposal}
    (hp : p ∈ ps) : ps.find? (fun q => q.entry = p.entry) = some p := by
  cases hfind : ps.find? (fun q => q.entry = p.entry) with
  | none => exact absurd (List.find?_eq_none.1 hfind p hp) (by simp)
  | some q =>
    have hq : q.entry = p.entry := by simpa using List.find?_some hfind
    rw [List.inj_on_of_nodup_map hnodup (List.mem_of_find?_eq_some hfind) hp hq]

theorem update_eq_some {g : Account} (hnodup : (g.proposals.map Proposal.entry).Nodup) {k : ℕ}
    {u : ℕ × KvRequest} : g.update k = some u ↔ ∃ p ∈ g.proposals, g.decided[k]? = some p.entry ∧
      p.request.isRead = false ∧ u = (p.op, p.request) := by
  simp only [update, Option.bind_eq_some_iff]
  constructor
  · rintro ⟨e, he, p, hp, hu⟩
    obtain rfl : p.entry = e := by simpa using List.find?_some hp
    split_ifs at hu with hread
    exact ⟨p, List.mem_of_find?_eq_some hp, he, by simpa using hread, (Option.some.inj hu).symm⟩
  · rintro ⟨p, hp, he, hread, rfl⟩
    exact ⟨p.entry, he, p, find_proposal hnodup hp, by simp [hread]⟩

end Account

namespace Service.Explained

variable {D : Deployment} {f : Formats} {g : Account} {s : Service} (h : s.Explained D f g)
include h

theorem place {p : Proposal} {k : ℕ} (hk : g.decided[k]? = some p.entry) :
    p.entry.index - 1 = k := by
  have := h.ledger.agrees.decided_index hk
  omega

theorem proposal_eq {p q : Proposal} (hp : p ∈ g.proposals) (hq : q ∈ g.proposals)
    (hop : p.op = q.op) : p = q := List.inj_on_of_nodup_map h.booked.ops hp hq hop

theorem quiet {k : ℕ} (hk : k < g.decided.length) (hnone : g.update k = none) :
    stateAfter f (g.decided.take (k + 1)) = stateAfter f (g.decided.take k) := by
  obtain ⟨e, he⟩ : ∃ e, g.decided[k]? = some e := ⟨_, List.getElem?_eq_getElem hk⟩
  rw [stateAfter_take_succ f he]
  cases hpayload : e.payload with
  | config cfg => rfl
  | command bytes =>
    obtain ⟨p, hp, rfl⟩ := List.mem_map.1 (h.ledger.listed e (List.mem_of_getElem? he)
      (by rw [hpayload]; rfl))
    obtain ⟨command, bytes', hcommand, hencode, hbytes⟩ := (h.booked.sound p hp).command
    obtain rfl : bytes = bytes' := by
      rw [hpayload] at hbytes
      exact EntryPayload.command.inj hbytes
    -- A command that is no update is the barrier of a read.
    have hread : p.request.isRead = true := by
      by_contra hupdate
      have hsome := (Account.update_eq_some h.booked.entries).2
        ⟨p, hp, he, by simpa using hupdate, rfl⟩
      rw [hnone] at hsome
      cases hsome
    obtain rfl := KvRequest.command_of_read hread hcommand
    show (Runtime.applyCommand f _ bytes).1 = _
    rw [applyCommand_of_encode hencode]
    rfl

theorem serve_proposal {p : Proposal} (hp : p ∈ g.proposals) {k : ℕ}
    (hk : g.decided[k]? = some p.entry) : stateAfter f (g.decided.take (k + 1)) =
      ((stateAfter f (g.decided.take k)).serve p.request).1 := by
  obtain ⟨command, bytes, hcommand, hencode, hbytes⟩ := (h.booked.sound p hp).command
  rw [stateAfter_take_succ f hk, hbytes]
  show (Runtime.applyCommand f _ bytes).1 = _
  rw [applyCommand_of_encode hencode, KvState.serve_of_command hcommand]

/-- **The list of decided entries explains the history.** -/
theorem decides : Decides kvObject s.history g.decided.length
    (fun k => stateAfter f (g.decided.take k)) g.update g.reads g.floor where
  init := rfl
  quiet hk hnone := h.quiet hk hnone
  next hk hu := by
    obtain ⟨p, hp, he, -, rfl⟩ := (Account.update_eq_some h.booked.entries).1 hu
    exact h.serve_proposal hp he
  read_le x hx := (h.seen.reads x hx).pos_le
  read_only x hx := by
    obtain ⟨p, hp, -, hrequest⟩ := (h.seen.reads x hx).proposal
    obtain ⟨command, -, hcommand, -⟩ := (h.booked.sound p hp).command
    rw [hrequest] at hcommand
    exact congrArg Prod.fst (KvState.serve_read (h.seen.reads x hx).isRead hcommand _)
  update_inj _ _ hu hv hid := by
    obtain ⟨p, hp, he, -, rfl⟩ := (Account.update_eq_some h.booked.entries).1 hu
    obtain ⟨q, hq, he', -, rfl⟩ := (Account.update_eq_some h.booked.entries).1 hv
    obtain rfl := h.proposal_eq hp hq hid
    exact (h.place he).symm.trans (h.place he')
  read_nodup := h.seen.nodup
  disjoint _ hu x hx hid := by
    obtain ⟨p, hp, -, hread, rfl⟩ := (Account.update_eq_some h.booked.entries).1 hu
    obtain ⟨q, hq, hop, hrequest⟩ := (h.seen.reads x hx).proposal
    obtain rfl := h.proposal_eq hq hp (hop.trans hid)
    rw [hrequest, (h.seen.reads x hx).isRead] at hread
    cases hread
  update_called _ hu := by
    obtain ⟨p, hp, -, -, rfl⟩ := (Account.update_eq_some h.booked.entries).1 hu
    exact (h.booked.sound p hp).called
  read_called x hx := by
    obtain ⟨p, hp, hop, hrequest⟩ := (h.seen.reads x hx).proposal
    rw [← hop, ← hrequest]
    exact (h.booked.sound p hp).called
  answered hans := by
    rcases h.seen.answers hans with ⟨p, hp, rfl, hread, he, rfl⟩ | ⟨x, hx, rfl, rfl⟩
    · exact .inl ⟨p.entry.index - 1, (p.op, p.request), (List.getElem?_eq_some_iff.1 he).1,
        (Account.update_eq_some h.booked.entries).2 ⟨p, hp, he, hread, rfl⟩, rfl, rfl⟩
    · exact .inr ⟨x, hx, rfl, rfl⟩
  refused href := by
    obtain ⟨hlost, hreads⟩ := h.seen.refusals href
    refine ⟨fun _ hu hid => ?_, hreads⟩
    obtain ⟨p, hp, he, -, rfl⟩ := (Account.update_eq_some h.booked.entries).1 hu
    obtain ⟨e, hother, hne⟩ := hlost p hp hid
    rw [h.place he, he] at hother
    exact hne (Option.some.inj hother).symm
  floor_update _ hu := by
    obtain ⟨p, hp, he, -, rfl⟩ := (Account.update_eq_some h.booked.entries).1 hu
    have hindex := h.ledger.agrees.decided_index he
    have hlate := h.booked.late p hp (by rw [h.place he]; exact he)
    show g.floor p.op ≤ _
    omega
  floor_read x hx := (h.seen.reads x hx).floor_lt
  order hh hans hcall := by
    obtain ⟨hupdates, hreads⟩ := h.seen.order hh hans hcall
    refine ⟨fun _ hu hid => ?_, hreads⟩
    obtain ⟨p, hp, he, hread, rfl⟩ := (Account.update_eq_some h.booked.entries).1 hu
    have hindex := h.ledger.agrees.decided_index he
    have hle := hupdates p hp hid hread
    omega

end Service.Explained

end Cloud9
