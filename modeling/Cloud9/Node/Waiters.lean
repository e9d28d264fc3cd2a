import Cloud9.Node.Applied

/-!
# Waiting proposals

A proposal waits under the index of the entry that was appended for it, with the bytes of its
command. The log can change at this index before it is applied, so the runtime compares the bytes.
`Owned` says what this gives: if the entry at the index has the bytes of the waiting proposal, it
has its term too.

Every step keeps this, except that another leader's entry with the same bytes can take the place of
the proposal's own. `Runtime.keepsTerms` excludes it.
-/

namespace Cloud9

/-! ## Where entries come from -/

theorem Log.mem_of_mem_truncateAfter {l : Log} {k : ℕ} {e : Entry}
    (h : e ∈ (l.truncateAfter k).entries) : e ∈ l.entries := by
  unfold truncateAfter at h
  split at h
  · cases h
  · exact List.mem_of_mem_take h

theorem Log.Contiguous.get_of_mem {l : Log} (h : l.Contiguous) {e : Entry} (he : e ∈ l.entries) :
    l.get e.index = some e := by
  obtain ⟨i, hi⟩ := List.mem_iff_getElem?.1 he
  have hindex := h i e hi
  rw [Log.get_eq, if_neg (by omega), show e.index - l.snapshotIndex - 1 = i by omega]
  exact hi

theorem Log.mem_of_get {l : Log} {i : ℕ} {e : Entry} (h : l.get i = some e) : e ∈ l.entries := by
  rw [Log.get_eq] at h
  split_ifs at h
  exact List.mem_of_getElem? h

theorem Follower.mem_appendEntries {es : List Entry} {l : Log} {e : Entry}
    (h : e ∈ (appendEntries l es).1.entries) : e ∈ l.entries ∨ e ∈ es := by
  suffices hloop : ∀ (acc : Log × Bool), e ∈ (es.foldl appendEntry acc).1.entries →
      e ∈ acc.1.entries ∨ e ∈ es from hloop (l, false) h
  clear h
  induction es with
  | nil => exact fun acc h => .inl h
  | cons e' es ih =>
    intro acc h
    rw [List.foldl_cons] at h
    rcases ih _ h with hacc | hes
    · have hcut : e ∈ (if acc.1.termAt e'.index ≠ 0 ∧ acc.1.termAt e'.index ≠ e'.term
          then acc.1.truncateAfter (e'.index - 1) else acc.1).entries → e ∈ acc.1.entries := by
        split_ifs
        · exact Log.mem_of_mem_truncateAfter
        · exact fun hmem => hmem
      unfold appendEntry at hacc
      dsimp only at hacc
      generalize (if acc.1.termAt e'.index ≠ 0 ∧ acc.1.termAt e'.index ≠ e'.term
        then acc.1.truncateAfter (e'.index - 1) else acc.1) = cut at hacc hcut
      split_ifs at hacc
      · rcases List.mem_append.1 hacc with hold | hnew
        · exact .inl (hcut hold)
        · exact .inr (List.mem_cons.2 (.inl (List.mem_singleton.1 hnew)))
      · exact .inl (hcut hacc)
    · exact .inr (List.mem_cons_of_mem _ hes)

theorem Leader.mem_maybeCommit (l : Leader) {core : Core} {e : Entry}
    (h : e ∈ (l.maybeCommit core).2.1.log.entries) :
    e ∈ core.log.entries ∨ e.payload.isConfig = true := by
  let known := fun core' : Core => ∀ e ∈ core'.log.entries,
    e ∈ core.log.entries ∨ e.payload.isConfig = true
  have hknown : known (l.maybeCommit core).2.1 :=
    maybeCommit_rule (I := known) (Q := fun core' _ => known core') (fun _ _ h _ _ _ => h)
      (fun _ _ h _ _ => h) (fun core' k idx target h _ _ _ _ e he => by
        rcases List.mem_append.1 he with hold | hnew
        · exact h e hold
        · rw [List.mem_singleton.1 hnew]
          exact .inr rfl) l (fun e he => .inl he)
  exact hknown e h

namespace RaftNode

/-- A command of the log was there before, or an accepted append request carried it. -/
theorem stepEvent_command {n : RaftNode} {event : Event}
    (hsnap : ∀ msg, event = .message msg → msg.payload.isSnapshot = false) {e : Entry}
    (he : e ∈ (n.stepEvent event).1.core.log.entries) (hcmd : e.payload.isConfig = false) :
    e ∈ n.core.log.entries ∨ ∃ msg req, event = .message msg ∧ msg.payload = .appendRequest req ∧
      n.acceptsAppend msg = true ∧ e ∈ req.entries := by
  cases n.stepEvent_core event with
  | steady hs =>
    rw [hs.log] at he
    exact .inl he
  | commit _ l hs =>
    rw [hs.log] at he
    rcases l.mem_maybeCommit he with hold | hcfg
    · exact .inl hold
    · rw [hcmd] at hcfg
      cases hcfg
  | accept msg req hev hreq hacc hs =>
    rw [hs.log, Follower.acceptAppend_log] at he
    exact (Follower.mem_appendEntries he).imp_right fun hes => ⟨msg, req, hev, hreq, hacc, hes⟩
  | snapshot msg hev hmsg =>
    rw [hsnap msg hev] at hmsg
    cases hmsg

theorem propose_command {n n' : RaftNode} {cmd : Command} {index : ℕ} {effects : Effects}
    (h : n.propose cmd = some (n', .ok (index, effects))) {e : Entry}
    (he : e ∈ n'.core.log.entries) (hcmd : e.payload.isConfig = false) :
    e ∈ n.core.log.entries ∨ e = ⟨n.term, index, .command cmd⟩ := by
  rcases propose_core h with ⟨_, herror, -⟩ | ⟨_, hok, l, hs⟩
  · cases herror
  · cases hok
    rw [hs.log] at he
    rcases l.mem_maybeCommit he with hold | hcfg
    · rcases List.mem_append.1 hold with hold | hnew
      · exact .inl hold
      · exact .inr (List.mem_singleton.1 hnew)
    · rw [hcmd] at hcfg
      cases hcfg

/-- Only a leader accepts a proposal, and appends it to its log. -/
theorem isLeader_of_propose {n n' : RaftNode} {cmd : Command} {index : ℕ} {effects : Effects}
    (h : n.propose cmd = some (n', .ok (index, effects))) :
    n.isLeader = true ∧ index = n.core.log.lastIndex + 1 := by
  refine ⟨?_, ?_⟩
  · unfold propose at h
    split at h
    · next l hrole => rw [isLeader, hrole]; rfl
    · cases h
  · rcases propose_core h with ⟨_, herror, -⟩ | ⟨_, hok, -⟩
    · cases herror
    · cases hok
      rfl

end RaftNode

/-! ## Tickets -/

/-- If the waiting proposal was told a result, the entry is the one of its ticket. -/
def Applied.Own (tickets : List Ticket) (a : Applied) : Prop :=
  ∀ p result, a.answer = some (p, .ok result) → ∃ t ∈ tickets, t.id = p.id ∧
    t.index = a.entry.index ∧ t.term = a.entry.term ∧ t.command = a.entry.command

theorem Applied.Own.mono {tickets tickets' : List Ticket} {a : Applied} (h : a.Own tickets)
    (hsub : tickets ⊆ tickets') : a.Own tickets' := by
  intro p result hanswer
  obtain ⟨t, ht, hrest⟩ := h p result hanswer
  exact ⟨t, hsub ht, hrest⟩

namespace Runtime

/-- Proposals wait at the indices of their tickets. If the log holds their bytes there, it is the
entry that was appended for them. -/
structure Owned (tickets : List Ticket) (applied : List Applied) (r : Runtime) : Prop where
  fresh : ∀ t ∈ tickets, t.id < r.nextProposalId
  nodup : (tickets.map Ticket.id).Nodup
  waiting : ∀ {i p}, r.waiters i = some p → ∃ t ∈ tickets, t.id = p.id ∧ t.index = i ∧
    t.command = p.command ∧
    ∀ e, r.node.core.log.get i = some e → e.payload = .command p.command → e.term = t.term
  answered : ∀ a ∈ applied, a.Own tickets

variable {f : Formats} {r r₀ : Runtime} {tickets : List Ticket} {applied : List Applied}

theorem Owned.start (config : NodeConfig) (store : RaftStore) :
    (Runtime.start config store).Owned [] [] :=
  ⟨fun _ h => absurd h List.not_mem_nil, List.nodup_nil, nofun,
    fun _ h => absurd h List.not_mem_nil⟩

theorem Owned.rests {r' : Runtime} (h : r.Owned tickets applied) (hrests : r.Rests r') :
    r'.Owned tickets applied := by
  refine ⟨fun t ht => ?_, h.nodup, fun hp => ?_, h.answered⟩
  · exact UInt64.lt_of_lt_of_le (h.fresh t ht) hrests.nextProposalId
  · rw [hrests.node]
    exact h.waiting (hrests.waiters hp)

/-- The entry that is applied next, as the log holds it. -/
theorem get_of_head (hcont : r.node.core.log.Contiguous) {entry : CommittedEntry}
    (hhead : r.node.committed.head? = some entry) :
    r.node.core.log.get entry.index = some ⟨entry.term, entry.index, .command entry.command⟩ := by
  obtain ⟨i, -, -, hat, -⟩ := exists_of_head?_filterMap_range' hhead
  obtain ⟨e, hget, he⟩ := Option.bind_eq_some_iff.1 hat
  have hindex := hcont.get_index hget
  obtain ⟨term, index, payload⟩ := e
  cases payload with
  | config c => cases he
  | command cmd =>
    cases he
    obtain rfl : index = i := hindex
    exact hget

theorem Owned.applyEntry (h : r.Owned tickets applied) (hcont : r.node.core.log.Contiguous)
    {entry : CommittedEntry} (hhead : r.node.committed.head? = some entry) :
    (r.applyEntry f entry).1.Owned tickets (applied ++ [(r.applyEntry f entry).2]) := by
  refine ⟨h.fresh, h.nodup, fun {i p} hp => ?_, fun a ha => ?_⟩
  · have hp : r.waiters i = some p := by
      by_cases hi : i = entry.index
      · subst hi
        simp [Runtime.applyEntry] at hp
      · simpa [Runtime.applyEntry, hi] using hp
    exact h.waiting hp
  · rcases List.mem_append.1 ha with hold | hnew
    · exact h.answered a hold
    · rw [List.mem_singleton.1 hnew]
      intro p result hanswer
      obtain ⟨pending, hpending, hcomplete⟩ := Option.map_eq_some_iff.1 hanswer
      simp only [Prod.mk.injEq] at hcomplete
      obtain ⟨rfl, hresult⟩ := hcomplete
      unfold PendingProposal.complete at hresult
      split_ifs at hresult with hbytes
      obtain ⟨t, ht, hid, hindex, hcommand, hterm⟩ := h.waiting hpending
      refine ⟨t, ht, hid, hindex, ?_, hcommand.trans hbytes⟩
      exact (hterm _ (get_of_head hcont hhead) (by rw [hbytes])).symm

theorem Owned.store (h : r.Owned tickets applied) (store : RaftStore) :
    ({ r with store := store } : Runtime).Owned tickets applied :=
  ⟨h.fresh, h.nodup, h.waiting, h.answered⟩

theorem Owned.handleEffects (h : r.Owned tickets applied) (hcont : r.node.core.log.Contiguous)
    {effects : Effects} {env : CallEnv} {out : Runtime × List Handover × List Applied × Outcome}
    (hout : r.handleEffects f effects env = out) : out.1.Owned tickets (applied ++ out.2.2.1) := by
  have hall := handleEffects_rule
    (I := fun applied r => r.Owned tickets applied ∧ r.node.core.log.Contiguous)
    (fun store h => ⟨h.1.store store, h.2⟩) (fun h hhead => ⟨h.1.applyEntry h.2 hhead, h.2⟩)
    ⟨h, hcont⟩ hout
  exact hall.1

/-! ## A step of the node -/

/-- If an accepted append request carries the bytes of a waiting proposal at its index, then with
the term in which they were appended for it. -/
def keepsTerms (tickets : List Ticket) (r : Runtime) (input : RuntimeInput) : Bool :=
  (r.event? input).all fun event =>
    match event with
    | .message msg =>
      match msg.payload with
      | .appendRequest req => !r.node.acceptsAppend msg || req.entries.all fun e =>
          (r.waiters e.index).all fun p => decide (e.payload = .command p.command →
            ∀ t ∈ tickets, t.id = p.id → t.term = e.term)
      | _ => true
    | _ => true

theorem Owned.event (h : r.Owned tickets applied) {input : RuntimeInput} {event : Event}
    (hevent : r.event? input = some event)
    (hsnap : ∀ msg, event = .message msg → msg.payload.isSnapshot = false)
    (hcont : r.node.core.log.Contiguous)
    (hcont' : (r.node.stepEvent event).1.core.log.Contiguous)
    (hkeep : r.keepsTerms tickets input = true) :
    ({ r with node := (r.node.stepEvent event).1 } : Runtime).Owned tickets applied := by
  refine ⟨h.fresh, h.nodup, fun {i p} hp => ?_, h.answered⟩
  have hp : r.waiters i = some p := hp
  obtain ⟨t, ht, hid, hindex, hcommand, hterm⟩ := h.waiting hp
  refine ⟨t, ht, hid, hindex, hcommand, fun e hget hpayload => ?_⟩
  obtain rfl : e.index = i := hcont'.get_index hget
  rcases RaftNode.stepEvent_command hsnap (Log.mem_of_get hget) (by rw [hpayload]; rfl) with
    hold | ⟨msg, req, rfl, hreq, hacc, hmem⟩
  · exact hterm e (hcont.get_of_mem hold) hpayload
  · simp only [keepsTerms, hevent, Option.all_some, hreq, hacc, Bool.not_true, Bool.false_or,
      List.all_eq_true] at hkeep
    have hall := hkeep e hmem
    rw [hp, Option.all_some, decide_eq_true_eq] at hall
    exact (hall hpayload t ht hid).symm

/-- A new proposal waits at the end of the log, under an id of its own. -/
theorem Owned.propose (h : r.Owned tickets applied) (hcont : r.node.core.log.Contiguous)
    {bytes : Command} {node : RaftNode} {index : ℕ} {effects : Effects} {next : UInt64}
    (hnext : checkedSucc r.nextProposalId = some next)
    (hpropose : r.node.propose bytes = some (node, .ok (index, effects))) :
    ({ r with
      nextProposalId := next
      node := node
      waiters := Function.update r.waiters index (some ⟨r.nextProposalId, bytes⟩) } :
        Runtime).Owned (tickets ++ [⟨r.nextProposalId, index, r.node.term, bytes⟩]) applied := by
  have hlt := lt_of_checkedSucc hnext
  have hcont' := RaftNode.propose_contiguous hcont hpropose
  have hindex := (RaftNode.isLeader_of_propose hpropose).2
  refine ⟨fun t ht => ?_, ?_, fun {i p} hp => ?_, fun a ha => (h.answered a ha).mono
    (List.subset_append_left _ _)⟩
  · rcases List.mem_append.1 ht with hold | hnew
    · exact UInt64.lt_trans (h.fresh t hold) hlt
    · rw [List.mem_singleton.1 hnew]
      exact hlt
  · rw [List.map_append, List.nodup_append]
    refine ⟨h.nodup, List.nodup_singleton _, ?_⟩
    rintro id hid id' hid' rfl
    obtain ⟨t, ht, rfl⟩ := List.mem_map.1 hid
    have hsame : t.id = r.nextProposalId := List.mem_singleton.1 hid'
    exact UInt64.lt_irrefl _ (hsame ▸ h.fresh t ht)
  · by_cases hi : i = index
    · subst hi
      obtain rfl : (⟨r.nextProposalId, bytes⟩ : PendingProposal) = p := by simpa using hp
      refine ⟨_, List.mem_append_right _ (List.mem_singleton.2 rfl), rfl, rfl, rfl,
        fun e hget hpayload => ?_⟩
      rcases RaftNode.propose_command hpropose (Log.mem_of_get hget) (by rw [hpayload]; rfl) with
        hold | rfl
      · -- The log ended before this index.
        have hle := hcont.le_lastIndex (hcont.get_of_mem hold)
        have := hcont'.get_index hget
        omega
      · rfl
    · have hp : r.waiters i = some p := by simpa [hi] using hp
      obtain ⟨t, ht, hid, hat, hcommand, hterm⟩ := h.waiting hp
      refine ⟨t, List.mem_append_left _ ht, hid, hat, hcommand, fun e hget hpayload => ?_⟩
      have hidx := hcont'.get_index hget
      rcases RaftNode.propose_command hpropose (Log.mem_of_get hget) (by rw [hpayload]; rfl) with
        hold | rfl
      · exact hterm e (hidx ▸ hcont.get_of_mem hold) hpayload
      · exact absurd hidx.symm hi

end Runtime

end Cloud9
