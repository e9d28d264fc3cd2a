import Cloud9.Node.Account

/-!
# The service is linearizable

The key-value service of a cluster behaves like one key-value state that serves one request at a
time, in the order of real time (`service_linearizable`). Nodes may stop and restart with what they
had in memory, messages may be lost, duplicated and reordered, calls may be dropped, and saves may
fail; a process whose failed save has left less on its disk stays down. Two things are asked of the
append requests that nodes accept: that they are verified, and that they keep the terms of waiting
proposals. Without the second, a read can miss a mutation that was acknowledged before it began
(`missed_mutation`).

The order is the list of decided entries of `Cloud9.Node.Replicas`, and a read takes place after the
entries that its node has applied when it looks the key up. A call that begins later than an answer
was given proposes an entry, and this entry cannot be on the part of the list that was decided by
then: it is new to the log of its leader, whose log would have to contain it (`Booked.late`).
-/

namespace Cloud9

open World

/-! ## The list grows -/

section Grow

variable {f : Formats} {w w' : History} {l l' : List Entry} {floor : ℕ → ℕ} {ps : List Proposal}
  {rs : List (ReadPoint ℕ KvRequest)} {h h' : List ServiceEvent} {n : ℕ}

theorem Proposal.Sound.mono {p : Proposal} (hp : p.Sound f w h) (hw : w.Le w') (hh : h ⊆ h') :
    p.Sound f w' h' :=
  ⟨hp.pos, (hw.tlog _).getElem?_eq_some hp.placed, hp.command, hh hp.called⟩

theorem Proposal.Lost.mono {p : Proposal} (hp : p.Lost l) (hl : l <+: l') : p.Lost l' := by
  obtain ⟨e, he, hne⟩ := hp
  exact ⟨e, hl.getElem?_eq_some he, hne⟩

theorem OpenCall.Heard.mono {call : OpenCall} {result : ApplyResult} (hc : call.Heard f l result)
    (hl : l <+: l') : call.Heard f l' result := by
  rcases hc with ⟨hresult, e, he, hne⟩ | ⟨he, hresult⟩
  · exact .inl ⟨hresult, e, hl.getElem?_eq_some he, hne⟩
  · have hlen := (List.getElem?_eq_some_iff.1 he).1
    refine .inr ⟨hl.getElem?_eq_some he, ?_⟩
    have htake : l'.take (call.ticket.committed.index - 1) = _ := hl.take_eq (Nat.le_of_lt hlen)
    rw [hresult, resultAt, resultAt, htake]

/-- Calls that began when the list was shorter are late for the longer one too. -/
theorem Booked.mono (hb : Booked f w l floor ps h n) (hw : w.Le w') (hl : l <+: l') :
    Booked f w' l' floor ps h n where
  sound p hp := (hb.sound p hp).mono hw (List.Subset.refl h)
  bound := hb.bound
  ops := hb.ops
  entries := hb.entries
  low i := (hb.low i).trans hl.length_le
  late p hp he := by
    by_cases hlt : p.entry.index - 1 < l.length
    · obtain ⟨tail, rfl⟩ := hl
      rw [List.getElem?_append_left hlt] at he
      exact hb.late p hp he
    · have hlow := hb.low p.op
      have hpos := (hb.sound p hp).pos
      omega

theorem Seen.mono (hs : Seen f l floor ps rs h n) (hl : l <+: l') : Seen f l' floor ps rs h n where
  bound := hs.bound
  reads x hx := { hs.reads x hx with pos_le := (hs.reads x hx).pos_le.trans hl.length_le }
  nodup := hs.nodup
  answers hans := by
    rcases hs.answers hans with ⟨p, hp, hop, hread, he, rfl⟩ | ⟨x, hx, hid, rfl⟩
    · have hlen := (List.getElem?_eq_some_iff.1 he).1
      refine .inl ⟨p, hp, hop, hread, hl.getElem?_eq_some he, ?_⟩
      rw [hl.take_eq (Nat.le_of_lt hlen)]
    · refine .inr ⟨x, hx, hid, ?_⟩
      rw [hl.take_eq (hs.reads x hx).pos_le]
  refusals href :=
    ⟨fun p hp hop => ((hs.refusals href).1 p hp hop).mono hl, (hs.refusals href).2⟩
  order := hs.order

theorem Waiting.mono {fl fl' : Fleet} {calls : List OpenCall} (hw : Waiting f fl l ps calls h)
    (hl : l <+: l')
    (hnode : ∀ c ∈ calls, (fl.nodes c.node).tickets ⊆ (fl'.nodes c.node).tickets) :
    Waiting f fl' l' ps calls h where
  proposal := hw.proposal
  ticket c hc := hnode c hc (hw.ticket c hc)
  heard c hc result hanswer := (hw.heard c hc result hanswer).mono hl
  nodup := hw.nodup
  unanswered := hw.unanswered

end Grow

/-! ## Answers arrive -/

theorem toldTo_eq_some {id : UInt64} {applied : List Applied} {result : ApplyResult}
    (h : toldTo id applied = some result) :
    ∃ a ∈ applied, ∃ p, a.answer = some (p, result) ∧ p.id = id := by
  obtain ⟨a, ha, htold⟩ := List.exists_of_findSome?_eq_some h
  obtain ⟨told, hanswer, heq⟩ := Option.bind_eq_some_iff.1 htold
  split_ifs at heq with hid
  cases heq
  exact ⟨a, ha, told.1, hanswer, hid⟩

namespace OpenCall

variable {id : NodeId} {applied : List Applied} {call : OpenCall}

theorem hear_of_ne (h : call.node ≠ id) : call.hear id applied = call := if_neg h

theorem hear_node : call.hear call.node applied =
    { call with answer := call.answer <|> toldTo call.ticket.id applied } := if_pos rfl

/-- All but the answer. -/
theorem hear_eq (call : OpenCall) (id : NodeId) (applied : List Applied) :
    ∃ answer, call.hear id applied = { call with answer } := by
  by_cases hid : call.node = id
  · obtain rfl := hid
    exact ⟨_, hear_node⟩
  · exact ⟨_, hear_of_ne hid⟩

end OpenCall

/-- A handler hears about the entry of its own ticket. -/
theorem Ticket.heard {f : Formats} {l : List Entry} {tickets : List Ticket} {a : Applied}
    {p : PendingProposal} {result : ApplyResult} {call : OpenCall}
    (hnodup : (tickets.map Ticket.id).Nodup) (hticket : call.ticket ∈ tickets) (hon : a.On f l)
    (hfor : a.For tickets) (hanswer : a.answer = some (p, result)) (hid : p.id = call.ticket.id) :
    call.Heard f l result := by
  obtain ⟨t, ht, htid, hindex, hcommand, hterm⟩ := hfor p result hanswer
  obtain rfl : t = call.ticket := List.inj_on_of_nodup_map hnodup ht hticket (htid.trans hid)
  have hentry := hon.entry
  have htold := hon.told hanswer
  rw [← hindex] at hentry
  unfold PendingProposal.complete at htold
  split_ifs at htold with hown
  · refine .inr ⟨?_, ?_⟩
    · rw [hentry, Ticket.asEntry, CommittedEntry.asEntry, hterm hown, hindex, hcommand, hown]
    · rw [htold, resultAt, resultAt, Ticket.committed, hindex, hcommand, hown]
  · refine .inl ⟨htold, _, hentry, fun heq => hown ?_⟩
    rw [CommittedEntry.asEntry, Ticket.asEntry, Entry.mk.injEq, EntryPayload.command.injEq] at heq
    rw [← hcommand]
    exact heq.2.2.symm

section Waiting

variable {f : Formats} {fl : Fleet} {l : List Entry} {ps : List Proposal} {calls : List OpenCall}
  {h : List ServiceEvent}

/-- What a call of a node's runtime tells. -/
theorem Waiting.hear (hw : Waiting f fl l ps calls h) {id : NodeId} {applied : List Applied}
    (hnodup : ((fl.nodes id).tickets.map Ticket.id).Nodup)
    (htold : ∀ a ∈ applied, a.On f l ∧ a.For (fl.nodes id).tickets) :
    Waiting f fl l ps (calls.map (OpenCall.hear id applied)) h := by
  have hmap : ∀ {P : OpenCall → Prop}, (∀ c ∈ calls, P (c.hear id applied)) →
      ∀ c ∈ calls.map (OpenCall.hear id applied), P c := fun hP _ hmem => by
    obtain ⟨c, hc, rfl⟩ := List.mem_map.1 hmem
    exact hP c hc
  refine ⟨hmap fun c hc => ?_, hmap fun c hc => ?_, hmap fun c hc result hanswer => ?_, ?_,
    hmap fun c hc => ?_⟩
  · obtain ⟨answer, heq⟩ := c.hear_eq id applied
    rw [heq]
    exact hw.proposal c hc
  · obtain ⟨answer, heq⟩ := c.hear_eq id applied
    rw [heq]
    exact hw.ticket c hc
  · by_cases hid : c.node = id
    · obtain rfl := hid
      rw [OpenCall.hear_node] at hanswer ⊢
      cases hold : c.answer with
      | some old =>
        rw [hold] at hanswer
        exact hw.heard c hc result (hold.trans hanswer)
      | none =>
        rw [hold] at hanswer
        obtain ⟨a, ha, p, hpa, hpid⟩ := toldTo_eq_some hanswer
        obtain ⟨hon, hfor⟩ := htold a ha
        exact Ticket.heard hnodup (hw.ticket c hc) hon hfor hpa hpid
    · rw [OpenCall.hear_of_ne hid] at hanswer ⊢
      exact hw.heard c hc result hanswer
  · have hops : calls.map (OpenCall.op ∘ OpenCall.hear id applied) = calls.map OpenCall.op :=
      List.map_congr_left fun c _ => by
        obtain ⟨answer, heq⟩ := c.hear_eq id applied
        rw [Function.comp, heq]
    rw [List.map_map, hops]
    exact hw.nodup
  · obtain ⟨answer, heq⟩ := c.hear_eq id applied
    rw [heq]
    exact hw.unanswered c hc

theorem Waiting.filter (hw : Waiting f fl l ps calls h) (keep : OpenCall → Bool) :
    Waiting f fl l ps (calls.filter keep) h where
  proposal c hc := hw.proposal c (List.mem_of_mem_filter hc)
  ticket c hc := hw.ticket c (List.mem_of_mem_filter hc)
  heard c hc := hw.heard c (List.mem_of_mem_filter hc)
  nodup := hw.nodup.sublist (List.filter_sublist.map _)
  unanswered c hc := hw.unanswered c (List.mem_of_mem_filter hc)

/-- A reply to a call that does not wait. -/
theorem Waiting.event (hw : Waiting f fl l ps calls h) {ev : ServiceEvent}
    (hev : ev.isReply = true → ∀ c ∈ calls, ev.id ≠ c.op) :
    Waiting f fl l ps calls (h ++ [ev]) where
  proposal := hw.proposal
  ticket := hw.ticket
  heard := hw.heard
  nodup := hw.nodup
  unanswered c hc ev' hmem hreply := by
    rcases List.mem_append.1 hmem with hold | hnew
    · exact hw.unanswered c hc ev' hold hreply
    · obtain rfl := List.mem_singleton.1 hnew
      exact hev hreply c hc

theorem Waiting.propose (hw : Waiting f fl l ps calls h) {p : Proposal}
    {new : List OpenCall} (hnew : ∀ c ∈ new, c.op = p.op ∧ c.request = p.request ∧
      c.ticket.asEntry = p.entry ∧ c.ticket ∈ (fl.nodes c.node).tickets ∧ c.answer = none)
    (hnodup : (new.map OpenCall.op).Nodup) (hop : ∀ q ∈ ps, q.op ≠ p.op)
    (hreply : ∀ ev ∈ h, ev.isReply = true → ev.id ≠ p.op) :
    Waiting f fl l (ps ++ [p]) (calls ++ new) h where
  proposal c hc := by
    rcases List.mem_append.1 hc with hold | hc
    · exact List.mem_append_left _ (hw.proposal c hold)
    · obtain ⟨hop, hrequest, hentry, -⟩ := hnew c hc
      rw [hop, hrequest, hentry]
      exact List.mem_append_right _ List.mem_cons_self
  ticket c hc := by
    rcases List.mem_append.1 hc with hold | hc
    · exact hw.ticket c hold
    · exact (hnew c hc).2.2.2.1
  heard c hc result hanswer := by
    rcases List.mem_append.1 hc with hold | hc
    · exact hw.heard c hold result hanswer
    · rw [(hnew c hc).2.2.2.2] at hanswer
      cases hanswer
  nodup := by
    rw [List.map_append, List.nodup_append]
    refine ⟨hw.nodup, hnodup, fun i hi j hj => ?_⟩
    obtain ⟨c, hc, rfl⟩ := List.mem_map.1 hi
    obtain ⟨c', hc', rfl⟩ := List.mem_map.1 hj
    rw [(hnew c' hc').1]
    exact hop _ (hw.proposal c hc)
  unanswered c hc ev hev hr := by
    rcases List.mem_append.1 hc with hold | hc
    · exact hw.unanswered c hold ev hev hr
    · rw [(hnew c hc).1]
      exact hreply ev hev hr

end Waiting

/-! ## Clients -/

section Clients

variable {f : Formats} {w : History} {l : List Entry} {floor : ℕ → ℕ} {ps : List Proposal}
  {rs : List (ReadPoint ℕ KvRequest)} {h : List ServiceEvent} {n : ℕ}

/-- An acknowledged update is on the list. -/
theorem Seen.update_le (hs : Seen f l floor ps rs h n) (hb : Booked f w l floor ps h n)
    {p : Proposal} (hp : p ∈ ps) {r : KvAnswer} (hans : .answer p.op r ∈ h)
    (hread : p.request.isRead = false) : p.entry.index ≤ l.length := by
  rcases hs.answers hans with ⟨q, hq, hop, -, he, -⟩ | ⟨x, hx, hid, -⟩
  · obtain rfl := List.inj_on_of_nodup_map hb.ops hq hp hop
    have hlt := (List.getElem?_eq_some_iff.1 he).1
    omega
  · -- A read and an update are not the same call.
    obtain ⟨q, hq, hop, hrequest⟩ := (hs.reads x hx).proposal
    obtain rfl := List.inj_on_of_nodup_map hb.ops hq hp (hop.trans hid)
    rw [hrequest, (hs.reads x hx).isRead] at hread
    cases hread

theorem Booked.call (hb : Booked f w l floor ps h n) (request : KvRequest) :
    Booked f w l (Function.update floor n l.length) ps (h ++ [.call n request]) (n + 1) where
  sound p hp := (hb.sound p hp).mono (World.Le.refl w) (List.subset_append_left _ _)
  bound p hp := (hb.bound p hp).trans (Nat.lt_succ_self n)
  ops := hb.ops
  entries := hb.entries
  low i := by
    rcases eq_or_ne i n with rfl | hne
    · rw [Function.update_self]
    · rw [Function.update_of_ne hne]
      exact hb.low i
  late p hp he := by
    rw [Function.update_of_ne (hb.bound p hp).ne]
    exact hb.late p hp he

theorem ReadOk.event {x : ReadPoint ℕ KvRequest} (hx : ReadOk l floor ps h x) (ev : ServiceEvent) :
    ReadOk l floor ps (h ++ [ev]) x :=
  { hx with answered := hx.answered.imp fun _ hans => List.mem_append_left _ hans }

/-- A call begins after everything that has been acknowledged. -/
theorem Seen.call (hs : Seen f l floor ps rs h n) (hb : Booked f w l floor ps h n)
    (request : KvRequest) :
    Seen f l (Function.update floor n l.length) ps rs (h ++ [.call n request]) (n + 1) := by
  have hread : ∀ x ∈ rs, x.id < n := fun x hx => by
    obtain ⟨p, hp, hop, -⟩ := (hs.reads x hx).proposal
    exact hop ▸ hb.bound p hp
  refine ⟨fun ev hev => ?_, fun x hx => ?_, hs.nodup, fun hans => ?_, fun href => ?_,
    fun {h₁ h₂ i j r o} hh hans hcall => ?_⟩
  · rcases List.mem_append.1 hev with hold | hnew
    · exact (hs.bound ev hold).trans (Nat.lt_succ_self n)
    · obtain rfl := List.mem_singleton.1 hnew
      exact Nat.lt_succ_self n
  · refine { (hs.reads x hx).event _ with floor_lt := ?_ }
    rw [Function.update_of_ne (hread x hx).ne]
    exact (hs.reads x hx).floor_lt
  · exact hs.answers (by simpa using hans)
  · exact hs.refusals (by simpa using href)
  · rcases append_singleton_eq_append hh with rfl | ⟨h₂', rfl, rfl⟩
    · cases hcall
    · have hans' : .answer i r ∈ h₁ ++ h₂' := List.mem_append_left _ hans
      rcases List.mem_append.1 hcall with hold | hnew
      · have hj : j < n := hs.bound _ (List.mem_append_right _ hold)
        rw [Function.update_of_ne hj.ne]
        exact hs.order rfl hans hold
      · obtain ⟨rfl, rfl⟩ : j = n ∧ o = request := by simpa using hnew
        rw [Function.update_self]
        exact ⟨fun p hp hop hupdate => hs.update_le hb hp (hop ▸ hans') hupdate,
          fun x hx _ => (hs.reads x hx).pos_le⟩

theorem Booked.event (hb : Booked f w l floor ps h n) (ev : ServiceEvent) :
    Booked f w l floor ps (h ++ [ev]) n :=
  { hb with sound := fun p hp =>
      (hb.sound p hp).mono (World.Le.refl w) (List.subset_append_left _ _) }

/-- The end of a call: what an answer or a refusal says has to be accounted for. -/
theorem Seen.event (hs : Seen f l floor ps rs h n) {ev : ServiceEvent} (hid : ev.id < n)
    (hcall : ∀ i o, ev ≠ .call i o) (hans : ∀ i r, ev = .answer i r → AnswerOk f l ps rs i r)
    (href : ∀ i e, ev = .refuse i e → (∀ p ∈ ps, p.op = i → p.Lost l) ∧ ∀ x ∈ rs, x.id ≠ i) :
    Seen f l floor ps rs (h ++ [ev]) n := by
  refine ⟨fun ev' hev => ?_, fun x hx => (hs.reads x hx).event ev, hs.nodup, fun {i r} hmem => ?_,
    fun {i e} hmem => ?_, fun {h₁ h₂ i j r o} hh hans hmem => ?_⟩
  · rcases List.mem_append.1 hev with hold | hnew
    · exact hs.bound ev' hold
    · obtain rfl := List.mem_singleton.1 hnew
      exact hid
  · rcases List.mem_append.1 hmem with hold | hnew
    · exact hs.answers hold
    · exact hans i r (List.mem_singleton.1 hnew).symm
  · rcases List.mem_append.1 hmem with hold | hnew
    · exact hs.refusals hold
    · exact href i e (List.mem_singleton.1 hnew).symm
  · rcases append_singleton_eq_append hh with rfl | ⟨h₂', rfl, rfl⟩
    · cases hmem
    · rcases List.mem_append.1 hmem with hold | hnew
      · exact hs.order rfl hans hold
      · exact absurd (List.mem_singleton.1 hnew).symm (hcall j o)

/-- The point of a read that is about to be answered. -/
theorem Seen.read (hs : Seen f l floor ps rs h n) {x : ReadPoint ℕ KvRequest} {r : KvAnswer}
    (hid : x.id < n) (hx : ReadOk l floor ps (h ++ [.answer x.id r]) x)
    (hfresh : ∀ ev ∈ h, ev.isReply = true → ev.id ≠ x.id)
    (hr : r = ((stateAfter f (l.take x.pos)).serve x.op).2) :
    Seen f l floor ps (rs ++ [x]) (h ++ [.answer x.id r]) n := by
  have hnew : ∀ y ∈ rs, y.id ≠ x.id := fun y hy => by
    obtain ⟨r', hans⟩ := (hs.reads y hy).answered
    exact hfresh _ hans rfl
  refine ⟨fun ev' hev => ?_, fun y hy => ?_, ?_, fun {i r} hmem => ?_, fun {i e} hmem => ?_,
    fun {h₁ h₂ i j r o} hh hans hmem => ?_⟩
  · rcases List.mem_append.1 hev with hold | hnew
    · exact hs.bound ev' hold
    · obtain rfl := List.mem_singleton.1 hnew
      exact hid
  · rcases List.mem_append.1 hy with hold | hnew
    · exact (hs.reads y hold).event _
    · obtain rfl := List.mem_singleton.1 hnew
      exact hx
  · rw [List.map_append, List.nodup_append]
    refine ⟨hs.nodup, List.nodup_singleton _, fun i hi j hj => ?_⟩
    obtain ⟨y, hy, rfl⟩ := List.mem_map.1 hi
    obtain rfl := List.mem_singleton.1 hj
    exact hnew y hy
  · rcases List.mem_append.1 hmem with hold | hlast
    · rcases hs.answers hold with hupdate | ⟨y, hy, hyr⟩
      · exact .inl hupdate
      · exact .inr ⟨y, List.mem_append_left _ hy, hyr⟩
    · obtain ⟨rfl, rfl⟩ : i = x.id ∧ r = _ := by simpa using hlast
      exact .inr ⟨x, List.mem_append_right _ List.mem_cons_self, rfl, hr⟩
  · have hold : .refuse i e ∈ h := by simpa using hmem
    refine ⟨(hs.refusals hold).1, fun y hy => ?_⟩
    rcases List.mem_append.1 hy with hy | hlast
    · exact (hs.refusals hold).2 y hy
    · obtain rfl := List.mem_singleton.1 hlast
      exact (hfresh _ hold rfl).symm
  · rcases append_singleton_eq_append hh with rfl | ⟨h₂', rfl, rfl⟩
    · cases hmem
    · have hold : .call j o ∈ h₂' := by simpa using hmem
      refine ⟨(hs.order rfl hans hold).1, fun y hy hyi => ?_⟩
      rcases List.mem_append.1 hy with hy | hlast
      · exact (hs.order rfl hans hold).2 y hy hyi
      · obtain rfl := List.mem_singleton.1 hlast
        exact absurd hyi.symm (hfresh _ (List.mem_append_left _ hans) rfl)

end Clients

/-! ## Proposals -/

section Proposals

variable {f : Formats} {w : History} {l : List Entry} {floor : ℕ → ℕ} {ps : List Proposal}
  {rs : List (ReadPoint ℕ KvRequest)} {h : List ServiceEvent} {n : ℕ} {p : Proposal}

theorem Booked.propose (hb : Booked f w l floor ps h n) (hp : p.Sound f w h) (hbound : p.op < n)
    (hop : ∀ q ∈ ps, q.op ≠ p.op) (hentry : ∀ q ∈ ps, q.entry ≠ p.entry)
    (hlate : l[p.entry.index - 1]? = some p.entry → floor p.op < p.entry.index) :
    Booked f w l floor (ps ++ [p]) h n where
  sound q hq := by
    rcases List.mem_append.1 hq with hq | hq
    · exact hb.sound q hq
    · exact List.mem_singleton.1 hq ▸ hp
  bound q hq := by
    rcases List.mem_append.1 hq with hq | hq
    · exact hb.bound q hq
    · exact List.mem_singleton.1 hq ▸ hbound
  ops := by
    rw [List.map_append, List.nodup_append]
    refine ⟨hb.ops, List.nodup_singleton _, fun i hi j hj => ?_⟩
    obtain ⟨q, hq, rfl⟩ := List.mem_map.1 hi
    obtain rfl := List.mem_singleton.1 hj
    exact hop q hq
  entries := by
    rw [List.map_append, List.nodup_append]
    refine ⟨hb.entries, List.nodup_singleton _, fun i hi j hj => ?_⟩
    obtain ⟨q, hq, rfl⟩ := List.mem_map.1 hi
    obtain rfl := List.mem_singleton.1 hj
    exact hentry q hq
  low := hb.low
  late q hq := by
    rcases List.mem_append.1 hq with hq | hq
    · exact hb.late q hq
    · exact List.mem_singleton.1 hq ▸ hlate

/-- A call that has not been answered. -/
theorem Seen.propose (hs : Seen f l floor ps rs h n)
    (hreply : ∀ ev ∈ h, ev.isReply = true → ev.id ≠ p.op) : Seen f l floor (ps ++ [p]) rs h n where
  bound := hs.bound
  reads x hx := { hs.reads x hx with proposal := (hs.reads x hx).proposal.imp fun _ hq =>
    ⟨List.mem_append_left _ hq.1, hq.2⟩ }
  nodup := hs.nodup
  answers hans := by
    rcases hs.answers hans with ⟨q, hq, hupdate⟩ | hread
    · exact .inl ⟨q, List.mem_append_left _ hq, hupdate⟩
    · exact .inr hread
  refusals href := by
    refine ⟨fun q hq hop => ?_, (hs.refusals href).2⟩
    rcases List.mem_append.1 hq with hq | hq
    · exact (hs.refusals href).1 q hq hop
    · obtain rfl := List.mem_singleton.1 hq
      exact absurd hop.symm (hreply _ href rfl)
  order := fun {h₁ h₂ i j r o} hh hans hcall => by
    refine ⟨fun q hq hop => ?_, (hs.order hh hans hcall).2⟩
    rcases List.mem_append.1 hq with hq | hq
    · exact (hs.order hh hans hcall).1 q hq hop
    · obtain rfl := List.mem_singleton.1 hq
      exact absurd hop.symm (hreply (.answer i r) (hh ▸ List.mem_append_left _ hans) rfl)

end Proposals

/-- The lock shows the state of a prefix of the list, which has the entries applied so far. -/
theorem Fleet.Agrees.shown_eq {D : Deployment} {f : Formats} {w : History} {l : List Entry}
    {fl : Fleet} (h : fl.Agrees D f w l) (id : NodeId) (k : ℕ) :
    ∃ i ≤ l.length, (fl.nodes id).shown f k = stateAfter f (l.take i) ∧
      ∀ a ∈ (fl.nodes id).applied.take k, a.entry.index ≤ i := by
  have happlies := h.applies id
  obtain ⟨i, hi, htake⟩ := List.exists_take_filterMap
    (fl.nodes id).runtime.node.core.log.commandAt
    (List.range' 1 (fl.nodes id).runtime.node.core.lastApplied) k
  rw [List.length_range'] at hi
  have hcommands : ((fl.nodes id).applied.take k).map Applied.command =
      (fl.nodes id).runtime.node.core.log.commandsTo i := by
    rw [List.map_take, happlies.commands, Log.commandsTo, ← htake,
      List.take_range'_of_length_ge hi, Log.commandsTo]
  have hprefix : (fl.nodes id).runtime.node.core.log.entries.take i = l.take i := by
    have htake := (h.applied id).take_eq (i := i) ?_
    · rw [htake, Runtime.appliedLog, List.take_take, Nat.min_eq_left hi]
    · rw [h.appliedLog_length id]
      exact hi
  refine ⟨i, hi.trans (h.state_eq id).2, ?_, fun a ha => ?_⟩
  · rw [Journal.shown, stateAfter, ← hprefix, ← (h.plain id).commandsTo, ← hcommands, List.map_map]
    rfl
  · have hmem := List.mem_map_of_mem (f := Applied.command) ha
    rw [hcommands, Log.commandsTo] at hmem
    obtain ⟨idx, hidx, hat⟩ := List.mem_filterMap.1 hmem
    obtain ⟨e, -, he⟩ := Option.bind_eq_some_iff.1 hat
    have hle := (List.mem_range'_1.1 hidx).2
    split at he
    · have hindex : idx = a.entry.index := (Prod.mk.inj (Option.some.inj he)).1
      omega
    · cases he

/-- A fresh entry is on no list that was decided before: the log of its term would have it. -/
theorem Fleet.Agrees.fresh_not_decided {D : Deployment} {f : Formats} {w w' : History}
    {l : List Entry} {fl : Fleet} (h : fl.Agrees D f w l) {t : Ticket} (ht : t.Fresh w w') :
    l[t.index - 1]? ≠ some t.asEntry := by
  intro he
  obtain ⟨c, htracks, -⟩ := h.refines
  obtain ⟨T, hcovered⟩ := h.decided
  have hrooted := htracks.sim.inv.covered_rooted hcovered
  rw [List.take_length] at hrooted
  have hplaced : (w.tlog t.term)[t.index - 1]? = some t.asEntry :=
    (hrooted.getElem?_tlog he (Nat.le_refl _)).trans he
  have hlt := (List.getElem?_eq_some_iff.1 hplaced).1
  have hnew := ht.new
  omega

/-- Processes keep the tickets of their handlers. -/
theorem Fleet.Moves.tickets {D : Deployment} {f : Formats} {w w' : History} {l l' A : List Entry}
    {fl fl' : Fleet} {id : NodeId} {input : RuntimeInput} {report : Report}
    (hm : Fleet.Moves D f w w' l l' A fl fl' id input report) {other : NodeId}
    (hlive : other = id → ∀ d, input ≠ .restart d) :
    (fl.nodes other).tickets ⊆ (fl'.nodes other).tickets := by
  rcases eq_or_ne other id with rfl | hne
  · rw [hm.live (hlive rfl)]
    exact List.subset_append_left _ _
  · rw [hm.others other hne]
    exact List.Subset.refl _

namespace Service.Explained

variable {D : Deployment} {f : Formats} {g : Account} {s : Service} {fl' : Fleet} {id : NodeId}
  {input : RuntimeInput} {report : Report}

/-! ## Steps -/

theorem call (h : s.Explained D f g) (request : KvRequest) : Service.Explained D f
    { g with floor := Function.update g.floor s.nextOp g.decided.length }
    { s with nextOp := s.nextOp + 1, history := s.history ++ [.call s.nextOp request] } where
  ledger := h.ledger
  booked := h.booked.call request
  waiting := h.waiting.event fun hreply => by cases hreply
  seen := h.seen.call h.booked request

theorem filter (h : s.Explained D f g) (keep : OpenCall → Bool) :
    Service.Explained D f g { s with calls := s.calls.filter keep } :=
  { h with waiting := h.waiting.filter keep }

/-- One input of a runtime, in terms of the account. -/
theorem perform (h : s.Explained D f g)
    (hkeep : s.fleet.keepsTerms (id, input) = true) (hok : s.fleet.verified (id, input) = true)
    (hperform : s.fleet.perform f id input = some (fl', report)) : ∃ w' l',
      Fleet.Moves D f g.world w' g.decided l' (g.proposals.map Proposal.entry) s.fleet fl' id input
        report := by
  obtain ⟨hposs, r, hcall, rfl⟩ := Fleet.perform_eq_some.1 hperform
  exact h.ledger.perform hkeep hok hposs hcall

/-- A call of a runtime that appends nothing for a client. -/
theorem moves (h : s.Explained D f g) {w' : History} {l' : List Entry}
    (hm : Fleet.Moves D f g.world w' g.decided l' (g.proposals.map Proposal.entry) s.fleet fl' id
      input report) (hticket : report.ticket = none)
    (hlive : ∀ c ∈ s.calls, c.node = id → ∀ d, input ≠ .restart d) :
    Service.Explained D f { g with world := w', decided := l' } { s with fleet := fl' } where
  ledger := by
    have hledger := hm.ledger
    rwa [hticket, Option.toList_none, List.map_nil, List.append_nil] at hledger
  booked := h.booked.mono hm.world hm.decided
  waiting := h.waiting.mono hm.decided fun c hc => hm.tickets (hlive c hc)
  seen := h.seen.mono hm.decided

theorem hear (h : s.Explained D f g)
    (htold : ∀ a ∈ report.applied, a.On f g.decided ∧ a.For (s.fleet.nodes id).tickets) :
    Service.Explained D f g
      { s with calls := s.calls.map (OpenCall.hear id report.applied) } :=
  { h with waiting := h.waiting.hear (h.ledger.owned id).nodup htold }

/-- A call of a runtime that appends an entry for the call with number `op`. -/
theorem propose (h : s.Explained D f g) {w' : History} {l' : List Entry}
    (hm : Fleet.Moves D f g.world w' g.decided l' (g.proposals.map Proposal.entry) s.fleet fl' id
      input report) {t : Ticket} (hticket : report.ticket = some t)
    (hlive : ∀ d, input ≠ .restart d) {op : ℕ} {request : KvRequest} {new : List OpenCall}
    (hnew : new = [] ∨ new = [⟨op, id, request, t, none⟩]) (hop : op < s.nextOp)
    (hcall : .call op request ∈ s.history) (hfresh : ∀ q ∈ g.proposals, q.op ≠ op)
    (hreply : ∀ ev ∈ s.history, ev.isReply = true → ev.id ≠ op)
    (hcommand : ∃ command, request.command = .ok command ∧
      f.command.encode command = some t.command) :
    Service.Explained D f
      { g with world := w', decided := l', proposals := g.proposals ++ [⟨op, request, t.asEntry⟩] }
      { s with fleet := fl', calls := s.calls ++ new } := by
  have hfresh' := hm.fresh t hticket
  have hnotin := h.ledger.agrees.fresh_not_decided hfresh'
  have hbooked := h.booked.mono hm.world hm.decided
  refine ⟨?_, ?_, ?_, (h.seen.mono hm.decided).propose hreply⟩
  · have hledger := hm.ledger
    rw [hticket, Option.toList_some, List.map_singleton] at hledger
    show Fleet.Ledger D f w' l' ((g.proposals ++ [_]).map Proposal.entry) fl'
    rwa [List.map_append]
  · refine hbooked.propose ⟨hfresh'.pos, hfresh'.entry, ?_, hcall⟩ hop hfresh (fun q hq heq => ?_)
      fun hdecided => ?_
    · obtain ⟨command, hrequest, hencode⟩ := hcommand
      exact ⟨command, _, hrequest, hencode, rfl⟩
    · -- Entries of earlier proposals are in the log of their term already.
      have hplaced := (h.booked.sound q hq).placed
      rw [heq] at hplaced
      have hlt := (List.getElem?_eq_some_iff.1 hplaced).1
      have hnew := hfresh'.new
      have hpos := hfresh'.pos
      simp only [Ticket.asEntry] at hlt
      omega
    · by_contra hearly
      have hpos := hfresh'.pos
      have hlow := h.booked.low op
      have hlt : t.index - 1 < g.decided.length := by
        simp only [Ticket.asEntry] at hearly
        omega
      obtain ⟨tail, rfl⟩ := hm.decided
      exact hnotin ((List.getElem?_append_left hlt).symm.trans hdecided)
  · have htickets : t ∈ (fl'.nodes id).tickets := by
      rw [hm.live hlive, hticket]
      exact List.mem_append_right _ List.mem_cons_self
    refine (h.waiting.mono hm.decided fun c _ => hm.tickets fun _ => hlive).propose
      (fun c hc => ?_) ?_ hfresh hreply
    · rcases hnew with rfl | rfl
      · cases hc
      · obtain rfl := List.mem_singleton.1 hc
        exact ⟨rfl, rfl, rfl, htickets, rfl⟩
    · rcases hnew with rfl | rfl
      · exact List.nodup_nil
      · exact List.nodup_singleton _

theorem lose (h : s.Explained D f g) {op : ℕ} (hop : op < s.nextOp) (e : KvError) :
    Service.Explained D f g { s with history := s.history ++ [.lose op e] } where
  ledger := h.ledger
  booked := h.booked.event _
  waiting := h.waiting.event fun hreply => by cases hreply
  seen := h.seen.event hop (fun _ _ heq => by cases heq) (fun _ _ heq => by cases heq)
    fun _ _ heq => by cases heq

theorem refuse (h : s.Explained D f g) {op : ℕ} (hop : op < s.nextOp) (e : KvError)
    (hcalls : ∀ c ∈ s.calls, op ≠ c.op) (hlost : ∀ p ∈ g.proposals, p.op = op → p.Lost g.decided)
    (hreads : ∀ x ∈ g.reads, x.id ≠ op) :
    Service.Explained D f g { s with history := s.history ++ [.refuse op e] } where
  ledger := h.ledger
  booked := h.booked.event _
  waiting := h.waiting.event fun _ => hcalls
  seen := h.seen.event hop (fun _ _ heq => by cases heq) (fun _ _ heq => by cases heq)
    fun _ _ heq => by
      cases heq
      exact ⟨hlost, hreads⟩

theorem call_bound (h : s.Explained D f g) {c : OpenCall} (hc : c ∈ s.calls) : c.op < s.nextOp :=
  h.booked.bound _ (h.waiting.proposal c hc)

/-- A call that waits has no answer yet. -/
theorem read_ne (h : s.Explained D f g) {c : OpenCall} (hc : c ∈ s.calls) :
    ∀ x ∈ g.reads, x.id ≠ c.op := fun x hx => by
  obtain ⟨r, hans⟩ := (h.seen.reads x hx).answered
  exact h.waiting.unanswered c hc _ hans rfl

/-- What is known when a proposal was applied. -/
theorem result_eq (h : s.Explained D f g) {c : OpenCall} (hc : c ∈ s.calls) {command : KvCommand}
    (hcommand : c.request.command = .ok command) : resultAt f g.decided c.ticket.committed =
      ((stateAfter f (g.decided.take (c.ticket.index - 1))).apply command).2 := by
  obtain ⟨command', bytes, hrequest, hencode, hbytes⟩ :=
    (h.booked.sound _ (h.waiting.proposal c hc)).command
  obtain rfl : command' = command := Except.ok.inj (hrequest.symm.trans hcommand)
  obtain rfl : c.ticket.command = bytes := EntryPayload.command.inj hbytes
  exact congrArg Prod.snd (applyCommand_of_encode hencode _)

/-- The rest of a handler. -/
theorem respond (h : s.Explained D f g) {c : OpenCall} (hc : c ∈ s.calls) {result : ApplyResult}
    (hanswer : c.answer = some result) {k : ℕ}
    (hwoken : c.wokenBy ((s.fleet.nodes c.node).applied.take k) = true) :
    ∃ rs, Service.Explained D f { g with reads := rs }
      { s with
        calls := s.calls.filter fun other => other.op ≠ c.op
        history := s.history ++ [c.respond ((s.fleet.nodes c.node).shown f k) result] } := by
  have hp := h.waiting.proposal c hc
  obtain ⟨command, bytes, hcommand, hencode, -⟩ := (h.booked.sound _ hp).command
  have hcalls : ∀ other ∈ s.calls.filter (fun other => other.op ≠ c.op), c.op ≠ other.op :=
    fun other hmem heq => by simpa [heq] using (List.mem_filter.1 hmem).2
  have hfiltered := h.filter fun other => other.op ≠ c.op
  rcases h.waiting.heard c hc result hanswer with ⟨rfl, hlost⟩ | ⟨he, rfl⟩
  · have hrespond : c.respond ((s.fleet.nodes c.node).shown f k) (.error supersededError) =
        .refuse c.op (.connect supersededError) := if_pos rfl
    rw [hrespond]
    refine ⟨g.reads, hfiltered.refuse (h.call_bound hc) _ hcalls (fun p hpmem hop => ?_)
      (h.read_ne hc)⟩
    obtain rfl := h.proposal_eq hpmem hp hop
    exact hlost
  · have hresult := h.result_eq hc hcommand
    have hrespond : c.respond ((s.fleet.nodes c.node).shown f k)
        (resultAt f g.decided c.ticket.committed) =
        .answer c.op (c.request.finish ((s.fleet.nodes c.node).shown f k)
          (resultAt f g.decided c.ticket.committed)) :=
      if_neg (hresult ▸ KvState.apply_ne_superseded _ command)
    rw [hrespond]
    cases hread : c.request.isRead with
    | false =>
      refine ⟨g.reads, h.ledger, h.booked.event _, hfiltered.waiting.event fun _ => hcalls,
        h.seen.event (h.call_bound hc) (fun _ _ heq => by cases heq) (fun i r heq => ?_)
          fun _ _ heq => by cases heq⟩
      cases heq
      refine .inl ⟨_, hp, rfl, hread, he, ?_⟩
      rw [KvState.serve_update hread hcommand _ ((s.fleet.nodes c.node).shown f k), hresult]
      rfl
    | true =>
      -- The barrier says nothing; the answer is what the lock shows.
      obtain rfl := KvRequest.command_of_read hread hcommand
      obtain ⟨i, hi, hshown, hentry⟩ := h.ledger.agrees.shown_eq c.node k
      have hlate := h.booked.late _ hp he
      have hle : c.ticket.index ≤ i := by
        obtain ⟨a, ha, hindex⟩ := List.any_eq_true.1 hwoken
        exact of_decide_eq_true hindex ▸ hentry a ha
      refine ⟨g.reads ++ [⟨c.op, c.request, i⟩], h.ledger, h.booked.event _,
        hfiltered.waiting.event fun _ => hcalls, h.seen.read (h.call_bound hc) ⟨hread, hi,
          Nat.lt_of_lt_of_le hlate hle, ⟨_, hp, rfl, rfl⟩, _,
          List.mem_append_right _ List.mem_cons_self⟩ (h.waiting.unanswered c hc) ?_⟩
      rw [KvState.serve_read hread hcommand, hresult, hshown]
      rfl

/-- A handler that has ended takes its proposal back. -/
theorem close {s' : Service} {c : OpenCall} {events : List ServiceEvent}
    (h : Service.Explained D f g { s with
      calls := s.calls.filter fun other => other.op ≠ c.op
      history := s.history ++ events })
    (hclose : s.close f c events = some s') : ∃ g', s'.Explained D f g' := by
  simp only [Service.close, Option.map_eq_some_iff, Prod.exists] at hclose
  obtain ⟨fl', report, hperform, rfl⟩ := hclose
  have hticket : report.ticket = none := by
    obtain ⟨-, r, hcall, -⟩ := Fleet.perform_eq_some.1 hperform
    cases hcall
    rfl
  obtain ⟨w', l', hm⟩ := h.perform rfl rfl hperform
  exact ⟨_, h.moves hm hticket fun _ _ _ _ heq => by cases heq⟩

end Service.Explained

/-! ## Runs -/

/-- A proposal's entry holds the bytes of its command. -/
theorem Journal.call_propose {f : Formats} {j : Journal} {command : KvCommand} {env : CallEnv}
    {r' : Runtime} {report : Report} {t : Ticket}
    (h : j.call f (.propose command env) = some (r', report)) (hticket : report.ticket = some t) :
    f.command.encode command = some t.command := by
  cases Journal.call_spec h with
  | idle _ _ _ hnone =>
    rw [hnone] at hticket
    cases hticket
  | handled hbegins =>
    rw [hticket] at hbegins
    cases hbegins with
    | propose hinput hbytes =>
      cases hinput
      exact hbytes
  | restart hinput => cases hinput

/-- Only proposals append entries for clients. -/
theorem Journal.call_ticket {f : Formats} {j : Journal} {input : RuntimeInput} {r' : Runtime}
    {report : Report} (h : j.call f input = some (r', report))
    (hinput : ∀ command env, input ≠ .propose command env) : report.ticket = none := by
  cases Journal.call_spec h with
  | idle _ _ _ hnone => exact hnone
  | handled hbegins =>
    generalize report.ticket = ticket at hbegins
    cases hbegins with
    | event => rfl
    | propose heq => exact absurd heq (hinput _ _)
  | restart heq hopen =>
    subst heq
    simp only [call] at h
    split at h <;> cases h
    rfl

namespace Service

variable {D : Deployment} {f : Formats} {g : Account} {s s' : Service}

/-- Append requests that are accepted are verified. -/
def verified (s : Service) : ServiceInput → Bool
  | .receive id message env => s.fleet.verified (id, .receive message env)
  | _ => true

/-- Append requests that are accepted keep the terms of waiting proposals. -/
def keepsTerms (s : Service) : ServiceInput → Bool
  | .receive id message env => s.fleet.keepsTerms (id, .receive message env)
  | _ => true

def orderly (s : Service) (input : ServiceInput) : Bool := s.keepsTerms input && s.verified input

theorem call?_eq_some {op : ℕ} {c : OpenCall} (h : s.call? op = some c) : c ∈ s.calls ∧ c.op = op :=
  ⟨List.mem_of_find?_eq_some h, by simpa using List.find?_some h⟩

theorem opened_eq (op : ℕ) (id : NodeId) (request : KvRequest) (report : Report) :
    opened op id request report = [] ∨
      ∃ t, report.ticket = some t ∧ opened op id request report = [⟨op, id, request, t, none⟩] := by
  unfold opened
  split
  · next t _ hticket => exact .inr ⟨t, hticket, rfl⟩
  · exact .inl rfl

theorem Explained.drive (h : s.Explained D f g) {id : NodeId} {input : RuntimeInput}
    (hkeep : s.fleet.keepsTerms (id, input) = true) (hok : s.fleet.verified (id, input) = true)
    (hpropose : ∀ command env, input ≠ .propose command env) (hlive : ∀ d, input ≠ .restart d)
    (hdrive : s.drive f id input = some s') : ∃ g', s'.Explained D f g' := by
  simp only [Service.drive, Option.map_eq_some_iff, Prod.exists] at hdrive
  obtain ⟨fl', report, hperform, rfl⟩ := hdrive
  have hticket : report.ticket = none := by
    obtain ⟨-, r, hcall, -⟩ := Fleet.perform_eq_some.1 hperform
    exact Journal.call_ticket hcall hpropose
  obtain ⟨w', l', hm⟩ := h.perform hkeep hok hperform
  exact ⟨_, (h.moves hm hticket fun _ _ _ => hlive).hear hm.told⟩

theorem Explained.restart (h : s.Explained D f g) {id : NodeId} {d : Dir}
    (hrestart : s.restart f id d = some s') : ∃ g', s'.Explained D f g' := by
  simp only [Service.restart, Option.map_eq_some_iff, Prod.exists] at hrestart
  obtain ⟨fl', report, hperform, rfl⟩ := hrestart
  have hticket : report.ticket = none := by
    obtain ⟨-, r, hcall, -⟩ := Fleet.perform_eq_some.1 hperform
    exact Journal.call_ticket hcall fun _ _ heq => by cases heq
  obtain ⟨w', l', hm⟩ := h.perform rfl rfl hperform
  -- The handlers of the node are gone before it starts again.
  refine ⟨_, (h.filter fun c => c.node ≠ id).moves hm hticket fun c hc hid => ?_⟩
  exact absurd hid (by simpa using (List.mem_filter.1 hc).2)

theorem Explained.invoke (h : s.Explained D f g) {id : NodeId} {request : KvRequest} {env : CallEnv}
    (hinvoke : s.invoke f id request env = some s') : ∃ g', s'.Explained D f g' := by
  have hcall := h.call request
  have hlt : s.nextOp < s.nextOp + 1 := Nat.lt_succ_self _
  have hcalls : ∀ c ∈ s.calls, s.nextOp ≠ c.op := fun c hc => (h.call_bound hc).ne'
  have hfresh : ∀ p ∈ g.proposals, p.op ≠ s.nextOp := fun p hp => (h.booked.bound p hp).ne
  have hreads : ∀ x ∈ g.reads, x.id ≠ s.nextOp := fun x hx => by
    obtain ⟨r, hans⟩ := (h.seen.reads x hx).answered
    exact (h.seen.bound _ hans).ne
  unfold Service.invoke at hinvoke
  cases hcommand : request.command with
  | error e =>
    simp only [hcommand, Option.some.injEq] at hinvoke
    subst hinvoke
    exact ⟨_, hcall.refuse hlt _ hcalls (fun p hp hop => absurd hop (hfresh p hp)) hreads⟩
  | ok command =>
    simp only [hcommand, Option.map_eq_some_iff, Prod.exists] at hinvoke
    obtain ⟨fl', report, hperform, rfl⟩ := hinvoke
    obtain ⟨w', l', hm⟩ := hcall.perform rfl rfl hperform
    have hlive : ∀ d, RuntimeInput.propose command env ≠ .restart d := fun _ heq => by cases heq
    cases hticket : report.ticket with
    | none =>
      have hopened : opened s.nextOp id request report = [] := by
        rcases opened_eq s.nextOp id request report with hnil | ⟨t, hsome, -⟩
        · exact hnil
        · rw [hticket] at hsome
          cases hsome
      have hmoved := (hcall.moves hm hticket fun _ _ _ => hlive).hear hm.told
      rw [hopened, List.append_nil]
      unfold failure
      rw [hticket]
      cases report.result with
      | refused e =>
        refine ⟨_, hmoved.refuse hlt _ (fun c hc => ?_) (fun p hp hop => absurd hop (hfresh p hp))
          hreads⟩
        obtain ⟨c', hc', rfl⟩ := List.mem_map.1 hc
        obtain ⟨answer, heq⟩ := c'.hear_eq id report.applied
        rw [heq]
        exact hcalls c' hc'
      | _ => exact ⟨_, by simpa only [List.append_nil] using hmoved⟩
    | some t =>
      have hopened : opened s.nextOp id request report = [] ∨
          opened s.nextOp id request report = [⟨s.nextOp, id, request, t, none⟩] := by
        rcases opened_eq s.nextOp id request report with hnil | ⟨t', hsome, heq⟩
        · exact .inl hnil
        · rw [hticket] at hsome
          cases hsome
          exact .inr heq
      have hencode : f.command.encode command = some t.command := by
        obtain ⟨-, r, hcall, -⟩ := Fleet.perform_eq_some.1 hperform
        exact Journal.call_propose hcall hticket
      have hreply : ∀ ev ∈ s.history ++ [.call s.nextOp request], ev.isReply = true →
          ev.id ≠ s.nextOp := by
        intro ev hev hr
        rcases List.mem_append.1 hev with hold | hnew
        · exact (h.seen.bound ev hold).ne
        · obtain rfl := List.mem_singleton.1 hnew
          cases hr
      have hproposed := (hcall.propose hm hticket hlive hopened hlt
        (List.mem_append_right _ List.mem_cons_self) hfresh hreply
        ⟨command, hcommand, hencode⟩).hear hm.told
      unfold failure
      rw [hticket]
      cases report.result with
      | refused e => exact ⟨_, hproposed.lose hlt _⟩
      | _ => exact ⟨_, by simpa only [List.append_nil] using hproposed⟩

/-- **One step.** -/
theorem Explained.step (h : s.Explained D f g) {input : ServiceInput}
    (hok : s.orderly input = true) (hstep : s.step f input = some s') :
    ∃ g', s'.Explained D f g' := by
  cases input with
  | invoke id request env => exact h.invoke hstep
  | tick id env =>
    refine h.drive ?_ ?_ (fun _ _ heq => by cases heq) (fun _ heq => by cases heq) hstep
    · simp only [Fleet.keepsTerms, Runtime.keepsTerms, Runtime.event?]
      split_ifs <;> rfl
    · simp only [Fleet.verified, Runtime.event?]
      split_ifs <;> rfl
  | receive id message env =>
    obtain ⟨hkeep, hverified⟩ := Bool.and_eq_true_iff.1 hok
    exact h.drive hkeep hverified (fun _ _ heq => by cases heq) (fun _ heq => by cases heq) hstep
  | restart id d => exact h.restart hstep
  | resume op k =>
    obtain ⟨c, hcall, hrest⟩ := Option.bind_eq_some_iff.1 hstep
    obtain ⟨answer, hanswer, hrest⟩ := Option.bind_eq_some_iff.1 hrest
    dsimp only at hrest
    split_ifs at hrest with hwoken
    obtain ⟨rs, hended⟩ := h.respond (call?_eq_some hcall).1 hanswer hwoken
    exact hended.close hrest
  | expire op =>
    obtain ⟨c, hcall, hrest⟩ := Option.bind_eq_some_iff.1 hstep
    obtain ⟨hc, rfl⟩ := call?_eq_some hcall
    split_ifs at hrest
    exact ((h.filter _).lose (h.call_bound hc) _).close hrest
  | abandon op =>
    obtain ⟨c, hcall, hclose⟩ := Option.bind_eq_some_iff.1 hstep
    refine Explained.close (g := g) ?_ hclose
    rw [List.append_nil]
    exact h.filter _

theorem explained_run {inputs : List ServiceInput}
    (hrun : Service.run f orderly (Service.init D) inputs = some s) : ∃ g, s.Explained D f g := by
  have hinit : ∃ g, (Service.init D).Explained D f g := ⟨_, explained_init D f⟩
  refine runWhile_invariant (I := fun s => ∃ g, s.Explained D f g)
    (fun hs hok hstep => ?_) hinit hrun
  obtain ⟨g, h⟩ := hs
  exact h.step hok hstep

end Service

/-- **The service is linearizable** in every run in which accepted append requests are verified and
keep the terms of waiting proposals. -/
theorem service_linearizable (D : Deployment) (f : Formats) {inputs : List ServiceInput}
    {s : Service} (hrun : Service.run f Service.orderly (Service.init D) inputs = some s) :
    kvObject.Linearizable s.history := by
  obtain ⟨g, h⟩ := Service.explained_run hrun
  exact ⟨_, h.decides.linearizes⟩

/-! ## Runs of three nodes -/

/-- Node 0 is elected and registers a session with node 2. -/
def sessionZero : List ServiceInput :=
  [.tick 0 {}, .receive 2 ⟨0, 2, 1, .voteRequest ⟨0, 0⟩⟩ {},
    .receive 0 ⟨2, 0, 1, .voteResponse ⟨true⟩⟩ {}, .invoke 0 .registerSession {},
    .receive 2 ⟨0, 2, 1, .appendRequest
      ⟨0, 0, [⟨1, 1, .command KvCommand.registerSession.toJson⟩], 0⟩⟩ {},
    .receive 0 ⟨2, 0, 1, .appendResponse ⟨true, 1⟩⟩ {}, .resume 0 1]

/-- Node 2 is elected by node 1. It serves a read, which finds nothing. -/
def readTwo : List ServiceInput :=
  [.tick 2 {}, .receive 1 ⟨2, 1, 2, .voteRequest ⟨1, 1⟩⟩ {},
    .receive 2 ⟨1, 2, 2, .voteResponse ⟨true⟩⟩ {}, .invoke 2 (.get "n" "k") {},
    .receive 1 ⟨2, 1, 2, .appendRequest
      ⟨1, 1, [⟨2, 2, .command KvCommand.readBarrier.toJson⟩], 0⟩⟩ {},
    .receive 2 ⟨1, 2, 2, .appendResponse ⟨false, 0⟩⟩ {},
    .receive 1 ⟨2, 1, 2, .appendRequest
      ⟨0, 0, [⟨1, 1, .command KvCommand.registerSession.toJson⟩,
        ⟨2, 2, .command KvCommand.readBarrier.toJson⟩], 0⟩⟩ {},
    .receive 2 ⟨1, 2, 2, .appendResponse ⟨true, 2⟩⟩ {}, .resume 1 2, .tick 2 {}]

/-- Then it acknowledges a mutation. -/
def putTwo : List ServiceInput :=
  [.invoke 2 (.put 1 1 "n" "k" [7] "" false) {},
    .receive 1 ⟨2, 1, 2, .appendRequest ⟨2, 2, [⟨2, 3, .command onePut.toJson⟩], 2⟩⟩ {},
    .receive 2 ⟨1, 2, 2, .appendResponse ⟨true, 3⟩⟩ {}, .resume 2 3]

/-- The first three calls, with their answers. -/
def firstCalls : List (Performed ℕ KvRequest KvAnswer) :=
  [⟨0, .registerSession, .ok (.registerSession ⟨1⟩)⟩, ⟨1, .get "n" "k", .error keyNotFound⟩,
    ⟨2, .put 1 1 "n" "k" [7] "" false, .ok (.put ⟨"n", "k", "\"c9-1\"", 1, 1⟩)⟩]

/-- A read on node 2 finds it. -/
def readAgain : List ServiceInput :=
  [.invoke 2 (.get "n" "k") {},
    .receive 1 ⟨2, 1, 2, .appendRequest
      ⟨3, 2, [⟨2, 4, .command KvCommand.readBarrier.toJson⟩], 3⟩⟩ {},
    .receive 2 ⟨1, 2, 2, .appendResponse ⟨true, 4⟩⟩ {}, .resume 3 4]

/-- The calls are answered one after the other. -/
theorem service_linearizable_trio : ∃ s,
    Service.run jsonFormats Service.orderly (Service.init trioDeployment)
      (sessionZero ++ readTwo ++ putTwo ++ readAgain) = some s ∧
    s.history = sequential (firstCalls ++
      [⟨3, .get "n" "k", .ok (.get ⟨"n", "k", "\"c9-1\"", 1, 1, [7]⟩)⟩]) ∧
    kvObject.Linearizable s.history := by
  have hrun : (Service.run jsonFormats Service.orderly (Service.init trioDeployment)
      (sessionZero ++ readTwo ++ putTwo ++ readAgain)).any (fun s => decide (s.history =
        sequential (firstCalls ++
          [⟨3, .get "n" "k", .ok (.get ⟨"n", "k", "\"c9-1\"", 1, 1, [7]⟩)⟩]))) = true := by
    decide +kernel
  obtain ⟨s, hs, hfacts⟩ := (Option.any_eq_true _ _).1 hrun
  exact ⟨s, hs, of_decide_eq_true hfacts, service_linearizable trioDeployment jsonFormats hs⟩

/-- Node 0, which has not heard of node 2, takes a read. The barrier of node 2 then takes the place
of its own, and the bytes are the same. -/
def readZero : List ServiceInput :=
  [.invoke 0 (.get "n" "k") {}, .receive 0 ⟨2, 0, 2, .appendRequest ⟨1, 1, [], 0⟩⟩ {},
    .receive 0 ⟨2, 0, 2, .appendRequest
      ⟨1, 1, [⟨2, 2, .command KvCommand.readBarrier.toJson⟩], 0⟩⟩ {},
    .receive 0 ⟨2, 0, 2, .appendRequest ⟨2, 2, [], 2⟩⟩ {}, .resume 3 2]

/-- **A read misses an acknowledged mutation.** The read on node 0 begins after the mutation was
acknowledged on node 2, and does not find the key. -/
theorem missed_mutation : ∃ s,
    Service.run jsonFormats Service.verified (Service.init trioDeployment)
      (sessionZero ++ readTwo ++ putTwo ++ readZero) = some s ∧
    s.history = sequential (firstCalls ++ [⟨3, .get "n" "k", .error keyNotFound⟩]) ∧
    ¬ kvObject.Linearizable s.history := by
  have hrun : (Service.run jsonFormats Service.verified (Service.init trioDeployment)
      (sessionZero ++ readTwo ++ putTwo ++ readZero)).any (fun s => decide (s.history =
        sequential (firstCalls ++ [⟨3, .get "n" "k", .error keyNotFound⟩]))) = true := by
    decide +kernel
  obtain ⟨s, hs, hfacts⟩ := (Option.any_eq_true _ _).1 hrun
  have hhistory := of_decide_eq_true hfacts
  refine ⟨s, hs, hhistory, fun hlin => ?_⟩
  rw [hhistory] at hlin
  exact absurd (hlin.legal_of_sequential (by decide)) (by decide +kernel)

end Cloud9
