import Cloud9.Node.Fleet

/-!
# Acknowledged entries

What the history of a run says about the entries whose results were given to proposals, where
accepted append requests are verified. Such an entry is in the log of the leader of its term,
committed, and the log before it makes the result (`Ack.Placed`). A registration takes the next
client id, and committed logs agree, so different acknowledged entries return different client ids
(`clientIds_nodup`).

No entry is acknowledged twice: only the leader of a term has proposals in it, and a proposal waits
at an index of its own (`Runtime.Settled`). The steps of a runtime keep this, given that its
proposals are answered for their own entries.
-/

namespace Cloud9

open World

/-! ## The state a log makes -/

def Entry.command? (e : Entry) : Option Command :=
  match e.payload with
  | .command cmd => some cmd
  | .config _ => none

/-- The key-value state after the commands of a log. -/
def stateAfter (f : Formats) (l : List Entry) : KvState :=
  replayCommands f (l.filterMap Entry.command?)

theorem Log.Plain.commandsTo {l : Log} (h : l.Plain) (k : ℕ) :
    (l.commandsTo k).map Prod.snd = (l.entries.take k).filterMap Entry.command? := by
  induction k with
  | zero => rfl
  | succ k ih =>
    have hat : (l.commandAt (k + 1)).map Prod.snd = l.entries[k]?.bind Entry.command? := by
      rw [Log.commandAt, h.get, Log.entryAt, if_neg (Nat.succ_ne_zero k), Nat.add_sub_cancel,
        Option.map_bind]
      congr 1
      funext e
      unfold Entry.command?
      cases hp : e.payload <;> simp [Function.comp, hp]
    rw [Log.commandsTo_split l (show k ≤ k + 1 by omega), List.map_append, ih,
      Nat.add_sub_cancel_left, List.take_add_one, List.filterMap_append]
    congr 1
    cases hget : l.entries[k]? with
    | none =>
      rw [hget, Option.bind_none, Option.map_eq_none_iff] at hat
      simp [hat]
    | some e =>
      rw [hget, Option.bind_some] at hat
      cases hcmd : e.command? with
      | none =>
        rw [hcmd, Option.map_eq_none_iff] at hat
        simp [hat, hcmd]
      | some cmd =>
        rw [hcmd] at hat
        obtain ⟨pair, hpair, rfl⟩ := Option.map_eq_some_iff.1 hat
        simp [hpair, hcmd]

/-! ## Client ids -/

theorem Runtime.applyCommand_nextClientId (f : Formats) (s : KvState) (command : Command) :
    s.nextClientId ≤ (applyCommand f s command).1.nextClientId ∧
      ∀ response, (applyCommand f s command).2 = .ok (.registerSession response) →
        response.clientId = s.nextClientId ∧
          s.nextClientId < (applyCommand f s command).1.nextClientId := by
  unfold applyCommand
  split
  · exact ⟨UInt64.le_refl _, nofun⟩
  · exact s.apply_nextClientId _

theorem stateAfter_concat (f : Formats) (l : List Entry) {e : Entry} {command : Command}
    (he : e.payload = .command command) :
    stateAfter f (l ++ [e]) = (Runtime.applyCommand f (stateAfter f l) command).1 := by
  have hcmd : e.command? = some command := by rw [Entry.command?, he]
  simp [stateAfter, replayCommands, List.filterMap_append, hcmd]

theorem replay_nextClientId (f : Formats) (commands : List Command) : ∀ s : KvState,
    s.nextClientId ≤ (commands.foldl (fun state command =>
      (Runtime.applyCommand f state command).1) s).nextClientId := by
  induction commands with
  | nil => exact fun s => UInt64.le_refl _
  | cons command commands ih =>
    intro s
    exact UInt64.le_trans (Runtime.applyCommand_nextClientId f s command).1 (ih _)

theorem stateAfter_nextClientId (f : Formats) {l l' : List Entry} (h : l <+: l') :
    (stateAfter f l).nextClientId ≤ (stateAfter f l').nextClientId := by
  obtain ⟨t, rfl⟩ := h
  unfold stateAfter replayCommands
  rw [List.filterMap_append, List.foldl_append]
  exact replay_nextClientId f _ _

/-! ## Acknowledged entries in the history -/

namespace Ack

def asEntry (a : Ack) : Entry := ⟨a.entry.term, a.entry.index, .command a.entry.command⟩

/-- Index and term. -/
def key (a : Ack) : ℕ × ℕ := (a.entry.index, a.entry.term)

/-- The client id of a registration. -/
def clientId (a : Ack) : Option UInt64 :=
  match a.result with
  | .registerSession response => some response.clientId
  | _ => none

/-- The entry is in the log of the leader of its term, committed, and the log before it makes the
result. -/
structure Placed (S : LogSystem NodeId Entry) (f : Formats) (w : History) (a : Ack) : Prop where
  pos : 0 < a.entry.index
  entry : (w.tlog a.entry.term)[a.entry.index - 1]? = some a.asEntry
  covered : ∃ T, Covered S w T (w.tlog a.entry.term) a.entry.index
  result : (Runtime.applyCommand f
    (stateAfter f ((w.tlog a.entry.term).take (a.entry.index - 1))) a.entry.command).2 =
      .ok a.result

variable {S : LogSystem NodeId Entry} {f : Formats} {w w' : History} {a b : Ack}

theorem Placed.length (h : a.Placed S f w) : a.entry.index ≤ (w.tlog a.entry.term).length := by
  have := (List.getElem?_eq_some_iff.1 h.entry).1
  omega

theorem Placed.mono (h : a.Placed S f w) (hinv : w.Inv S) (hle : w.Le w') : a.Placed S f w' := by
  have htlog := hle.tlog a.entry.term
  obtain ⟨T, hcovered⟩ := h.covered
  refine ⟨h.pos, htlog.getElem?_eq_some h.entry,
    ⟨T, hcovered.mono hinv hle (Nat.le_refl T) htlog⟩, ?_⟩
  rw [htlog.take_eq (by have := h.length; omega)]
  exact h.result

theorem Placed.clientId (h : a.Placed S f w) {id : UInt64} (hid : a.clientId = some id) :
    id = (stateAfter f ((w.tlog a.entry.term).take (a.entry.index - 1))).nextClientId ∧
      id < (stateAfter f ((w.tlog a.entry.term).take a.entry.index)).nextClientId := by
  have hresult := h.result
  have hnext := (Runtime.applyCommand_nextClientId f
    (stateAfter f ((w.tlog a.entry.term).take (a.entry.index - 1))) a.entry.command).2
  unfold Ack.clientId at hid
  split at hid
  · next response hresponse =>
    rw [hresponse] at hresult
    obtain ⟨hsame, hlt⟩ := hnext response hresult
    obtain rfl := Option.some.inj hid
    have htake : (w.tlog a.entry.term).take a.entry.index =
        (w.tlog a.entry.term).take (a.entry.index - 1) ++ [a.asEntry] := by
      have hpos := h.pos
      rw [show a.entry.index = a.entry.index - 1 + 1 by omega, List.take_add_one, h.entry]
      rfl
    rw [htake, stateAfter_concat f _ rfl, hsame]
    exact ⟨rfl, hlt⟩
  · cases hid

/-- Committed logs agree up to the earlier one of two acknowledged entries. -/
theorem Placed.take_eq (ha : a.Placed S f w) (hb : b.Placed S f w) (hinv : w.Inv S)
    (hle : a.entry.index ≤ b.entry.index) :
    (w.tlog a.entry.term).take a.entry.index = (w.tlog b.entry.term).take a.entry.index := by
  obtain ⟨T, hca⟩ := ha.covered
  obtain ⟨T', hcb⟩ := hb.covered
  refine List.ext_getElem? fun i => ?_
  rcases Nat.lt_or_ge i a.entry.index with hi | hi
  · rw [List.getElem?_take_of_lt hi, List.getElem?_take_of_lt hi]
    exact hinv.covered_agree hca hcb hi (Nat.lt_of_lt_of_le hi hle)
  · rw [List.getElem?_take_eq_none hi, List.getElem?_take_eq_none hi]

/-- A later registration returns a larger client id. -/
theorem Placed.clientId_lt (ha : a.Placed S f w) (hb : b.Placed S f w) (hinv : w.Inv S)
    (hlt : a.entry.index < b.entry.index) {x y : UInt64} (hx : a.clientId = some x)
    (hy : b.clientId = some y) : x < y := by
  rw [(hb.clientId hy).1]
  refine UInt64.lt_of_lt_of_le (ha.clientId hx).2 (stateAfter_nextClientId f ?_)
  rw [ha.take_eq hb hinv (Nat.le_of_lt hlt)]
  exact List.take_prefix_take_left (by omega)

theorem Placed.key_eq (ha : a.Placed S f w) (hb : b.Placed S f w) (hinv : w.Inv S)
    (hindex : a.entry.index = b.entry.index) : a.key = b.key := by
  obtain ⟨T, hca⟩ := ha.covered
  obtain ⟨T', hcb⟩ := hb.covered
  have hpos := ha.pos
  have hsame := hinv.covered_agree hca hcb (j := a.entry.index - 1) (by omega) (by omega)
  have hentry := hb.entry
  rw [← hindex, ← hsame, ha.entry] at hentry
  have hterm : a.entry.term = b.entry.term := congrArg Entry.term (Option.some.inj hentry)
  rw [key, key, hindex, hterm]

end Ack

/-- **Distinct acknowledged entries return distinct client ids.** -/
theorem clientIds_nodup {S : LogSystem NodeId Entry} {f : Formats} {w : History} (hinv : w.Inv S)
    {acks : List Ack} (hplaced : ∀ a ∈ acks, a.Placed S f w) (hnodup : (acks.map Ack.key).Nodup) :
    (acks.filterMap Ack.clientId).Nodup := by
  refine List.pairwise_filterMap.2 ((List.pairwise_map.1 hnodup).imp_of_mem ?_)
  rintro a b ha hb hkey x hx y hy rfl
  have ha := hplaced a ha
  have hb := hplaced b hb
  rcases Nat.lt_trichotomy a.entry.index b.entry.index with hlt | heq | hgt
  · exact UInt64.lt_irrefl _ (ha.clientId_lt hb hinv hlt hx hy)
  · exact hkey (ha.key_eq hb hinv heq)
  · exact UInt64.lt_irrefl _ (hb.clientId_lt ha hinv hgt hy hx)

/-! ## Applying an entry -/

theorem Applied.ack_eq_some {a : Applied} {ack : Ack} (h : a.ack = some ack) :
    ack.entry = a.entry ∧ ∃ p, a.answer = some (p, .ok ack.result) := by
  unfold Applied.ack at h
  split at h
  · next p result hanswer =>
    cases h
    exact ⟨rfl, p, hanswer⟩
  · cases h

/-- What has been acknowledged. -/
structure Acked (S : LogSystem NodeId Entry) (f : Formats) (w : History) (acks : List Ack) :
    Prop where
  placed : ∀ a ∈ acks, a.Placed S f w
  nodup : (acks.map Ack.key).Nodup

theorem Acked.mono {S : LogSystem NodeId Entry} {f : Formats} {w w' : History} {acks : List Ack}
    (h : Acked S f w acks) (hinv : w.Inv S) (hle : w.Le w') : Acked S f w' acks :=
  ⟨fun a ha => (h.placed a ha).mono hinv hle, h.nodup⟩

namespace Runtime

variable {P : Setting} {f : Formats} {w : History} {id : NodeId} {r : Runtime} {acks : List Ack}
  {tickets : List Ticket} {applied : List Applied}

/-- Where the next entry to apply stands, and what has been applied before it. -/
theorem Applies.next_entry (h : r.Applies f applied) (hplain : r.node.core.log.Plain)
    {entry : CommittedEntry} (hhead : r.node.committed.head? = some entry) :
    0 < entry.index ∧ r.node.core.log.entries[entry.index - 1]? =
      some ⟨entry.term, entry.index, .command entry.command⟩ ∧
      r.state = stateAfter f (r.node.core.log.entries.take (entry.index - 1)) := by
  have hget := get_of_head h.intact.contiguous hhead
  rw [hplain.get, Log.entryAt] at hget
  split_ifs at hget with hzero
  have hpos : 0 < entry.index := Nat.pos_of_ne_zero hzero
  refine ⟨hpos, hget, ?_⟩
  have hall := congrArg (List.map Prod.snd) (h.head hhead).2.2
  have htake : r.node.core.log.entries.take entry.index =
      r.node.core.log.entries.take (entry.index - 1) ++
        [⟨entry.term, entry.index, .command entry.command⟩] := by
    rw [show entry.index = entry.index - 1 + 1 by omega, List.take_add_one, hget,
      Nat.sub_add_cancel hpos]
    rfl
  rw [hplain.commandsTo, htake, List.filterMap_append, List.map_append, ← h.commands] at hall
  rw [h.state, stateAfter, List.append_cancel_right hall, List.map_map]
  rfl

theorem placed_of_head (hs : P.strong) (hinv : w.Inv P.system) (hnode : P.NodeRel w id r.node.view)
    (h : r.Applies f applied) {entry : CommittedEntry}
    (hhead : r.node.committed.head? = some entry) {result : KvApplyResult}
    (hresult : (applyCommand f r.state entry.command).2 = .ok result) :
    (⟨entry, result⟩ : Ack).Placed P.system f w := by
  obtain ⟨hpos, hentry, hstate⟩ := h.next_entry hnode.plain hhead
  have hlog : r.node.core.log.entries = w.log id := hnode.log
  rw [hlog] at hentry hstate
  have hrooted := hinv.log_rooted id
  have hcovered := (hnode.commit hs).anti (h.head hhead).2.1
  refine ⟨hpos, ?_, ⟨w.cur id, ?_⟩, ?_⟩
  · exact (hrooted.getElem?_tlog hentry (Nat.le_refl _)).trans hentry
  · have hprefix := hrooted _ _ hentry
    rw [Nat.sub_add_cancel hpos] at hprefix
    refine (hcovered.of_isPrefix ?_ ?_).mono hinv (Le.refl w) (Nat.le_refl _) hprefix
    · exact List.take_prefix _ _
    · rw [List.length_take]
      exact Nat.le_min.2 ⟨Nat.le_refl _, hcovered.length_le⟩
  · have htake := hrooted.take_tlog hentry (n := entry.index - 1) (by omega)
    rw [← hresult, hstate]
    exact congrArg (fun l => (applyCommand f (stateAfter f l) entry.command).2) htake

/-- The proposals of a node are of terms it led, and those that wait have not been acknowledged. -/
structure Settled (f : Formats) (w : History) (id : NodeId) (acks : List Ack)
    (tickets : List Ticket) (applied : List Applied) (r : Runtime) : Prop where
  applies : r.Applies f applied
  leads : ∀ t ∈ tickets, w.leader t.term = some id
  pending : ∀ {i p}, r.waiters i = some p → ∀ a ∈ acks, a.entry.index = i →
    ∀ t ∈ tickets, t.id = p.id → a.entry.term ≠ t.term

theorem Settled.rests {r' : Runtime} (h : r.Settled f w id acks tickets applied)
    (hrests : r.Rests r') : r'.Settled f w id acks tickets applied := by
  obtain ⟨hintact, hsnap, hbound, hcommands, hstate⟩ := h.applies
  rw [← hrests.node] at hintact hsnap hbound hcommands
  exact ⟨⟨hintact, hsnap, hbound, hcommands, hrests.state.trans hstate⟩, h.leads,
    fun hp => h.pending (hrests.waiters hp)⟩

theorem waiters_applyEntry {entry : CommittedEntry} {i : ℕ} {p : PendingProposal}
    (h : (r.applyEntry f entry).1.waiters i = some p) : i ≠ entry.index ∧ r.waiters i = some p := by
  by_cases hi : i = entry.index
  · subst hi
    simp [Runtime.applyEntry] at h
  · exact ⟨hi, by simpa [Runtime.applyEntry, hi] using h⟩

theorem Settled.applyEntry (hs : P.strong) (hinv : w.Inv P.system)
    (hnode : P.NodeRel w id r.node.view) (howned : r.Owned tickets applied)
    (h : r.Settled f w id acks tickets applied) (hacked : Acked P.system f w acks)
    {entry : CommittedEntry} (hhead : r.node.committed.head? = some entry) :
    (r.applyEntry f entry).1.Settled f w id
        (acks ++ [(r.applyEntry f entry).2].filterMap Applied.ack) tickets
        (applied ++ [(r.applyEntry f entry).2]) ∧
      Acked P.system f w (acks ++ [(r.applyEntry f entry).2].filterMap Applied.ack) := by
  have happlies := h.applies.applyEntry hhead
  cases hack : (r.applyEntry f entry).2.ack with
  | none =>
    rw [List.filterMap_cons_none hack, List.filterMap_nil, List.append_nil]
    exact ⟨⟨happlies, h.leads, fun hp => h.pending (waiters_applyEntry hp).2⟩, hacked⟩
  | some ack =>
    rw [List.filterMap_cons_some hack, List.filterMap_nil]
    obtain ⟨hentry, p, hanswer⟩ := Applied.ack_eq_some hack
    have hentry : ack.entry = entry := hentry
    obtain ⟨pending, hpending, hcomplete⟩ := Option.map_eq_some_iff.1 hanswer
    obtain ⟨rfl, hresult⟩ := Prod.mk.inj hcomplete
    unfold PendingProposal.complete at hresult
    split_ifs at hresult with hbytes
    -- The ticket of the proposal that is answered.
    obtain ⟨t, ht, hid, -, hcommand, hterm⟩ := howned.waiting hpending
    have hterm : t.term = entry.term :=
      (hterm _ (get_of_head h.applies.intact.contiguous hhead) (by rw [hbytes])).symm
    refine ⟨⟨happlies, h.leads, fun {i p'} hp a ha hindex t' ht' hid' hsame => ?_⟩, ?_, ?_⟩
    · obtain ⟨hi, hp⟩ := waiters_applyEntry hp
      rcases List.mem_append.1 ha with hold | hnew
      · exact h.pending hp a hold hindex t' ht' hid' hsame
      · rw [List.mem_singleton.1 hnew, hentry] at hindex
        exact hi hindex.symm
    · intro a ha
      rcases List.mem_append.1 ha with hold | hnew
      · exact hacked.placed a hold
      · rw [List.mem_singleton.1 hnew, show ack = ⟨entry, ack.result⟩ from by rw [← hentry]]
        exact placed_of_head hs hinv hnode h.applies hhead hresult
    · rw [List.map_append, List.nodup_append]
      refine ⟨hacked.nodup, List.nodup_singleton _, ?_⟩
      rintro key hkey key' hkey' rfl
      obtain ⟨a, ha, rfl⟩ := List.mem_map.1 hkey
      have hsame : a.key = ack.key := List.mem_singleton.1 hkey'
      obtain ⟨hindex, hterm'⟩ := Prod.mk.inj hsame
      rw [hentry] at hindex hterm'
      exact h.pending hpending a ha hindex t ht hid (hterm'.trans hterm.symm)

theorem Settled.handleEffects (hs : P.strong) (hinv : w.Inv P.system)
    (hnode : P.NodeRel w id r.node.view) (howned : r.Owned tickets applied)
    (h : r.Settled f w id acks tickets applied) (hacked : Acked P.system f w acks)
    {effects : Effects} {env : CallEnv} {out : Runtime × List Handover × List Applied × Outcome}
    (hout : r.handleEffects f effects env = out) :
    out.1.Settled f w id (acks ++ out.2.2.1.filterMap Applied.ack) tickets (applied ++ out.2.2.1) ∧
      Acked P.system f w (acks ++ out.2.2.1.filterMap Applied.ack) := by
  -- The turns of the loop, as additions to what was applied and acknowledged before.
  have hall := @handleEffects_rule f r effects env (fun past r => P.NodeRel w id r.node.view ∧
      r.Owned tickets (applied ++ past) ∧
      r.Settled f w id (acks ++ past.filterMap Applied.ack) tickets (applied ++ past) ∧
      Acked P.system f w (acks ++ past.filterMap Applied.ack)) ?_ ?_ [] ?_ out hout
  · exact hall.2.2
  · rintro past r store ⟨hnode, howned, h, hacked⟩
    exact ⟨hnode, howned.store store, ⟨h.applies.store store, h.leads, h.pending⟩, hacked⟩
  · rintro past r entry ⟨hnode, howned, h, hacked⟩ hhead
    rw [List.filterMap_append, ← List.append_assoc, ← List.append_assoc]
    exact ⟨hnode, howned.applyEntry h.applies.intact.contiguous hhead,
      h.applyEntry hs hinv hnode howned hacked hhead⟩
  · rw [List.filterMap_nil, List.append_nil, List.append_nil]
    exact ⟨hnode, howned, h, hacked⟩

end Runtime

/-! ## What a call begins with -/

/-- The nodes of the cluster keep what is committed, where accepted requests are verified. -/
theorem Setting.Tracks.stepEvent_extends {P : Setting} {w : History} {c : Cluster}
    (h : P.Tracks w c) (hs : P.strong) {id : NodeId} {event : Event}
    (hevent : event = .tick ∨ ∃ msg, event = .message msg ∧ msg ∈ c.sent ∧ msg.to = id)
    (hplain : ((c.nodes id).stepEvent event).1.core.log.Plain) :
    (c.nodes id).core.Extends ((c.nodes id).stepEvent event).1.core := by
  have hgap : (c.nodes id).gapless event = true := by
    rcases hevent with rfl | ⟨msg, rfl, hmem, rfl⟩
    · rfl
    · exact h.gapless hmem
  have hspares : (c.nodes id).sparesCommitted event = true := by
    rcases hevent with rfl | ⟨msg, rfl, hmem, rfl⟩
    · rfl
    · exact h.sparesCommitted hmem hs
  have hintact := h.intact hs id
  have hsnap := (h.plain id).snapshotIndex
  exact RaftNode.stepEvent_extends hintact hsnap hgap hplain.snapshotIndex fun i hi =>
    (RaftNode.stepEvent_continues hintact hgap hspares).get hintact hsnap hplain.snapshotIndex hi

namespace Runtime

variable {P : Setting} {f : Formats} {w w' : History} {c : Cluster} {id : NodeId} {r : Runtime}
  {acks : List Ack} {tickets : List Ticket} {applied : List Applied}

theorem Settled.extend {r₀ : Runtime} (h : r.Settled f w id acks tickets applied) (hle : w.Le w')
    (hnode : r.node.core.Extends r₀.node.core) (hstate : r₀.state = r.state)
    (hwaiters : r₀.waiters = r.waiters) : r₀.Settled f w' id acks tickets applied :=
  ⟨h.applies.extend hnode hstate, fun t ht => hle.leader (h.leads t ht),
    fun hp => h.pending (hwaiters ▸ hp)⟩

/-- A new proposal waits beyond everything that its term has seen acknowledged. -/
theorem Settled.propose (ht : P.Tracks w c) (hnode : r.node = c.nodes id)
    (howned : r.Owned tickets applied) (h : r.Settled f w id acks tickets applied)
    (hacked : Acked P.system f w acks) (hle : w.Le w') {bytes : Command} {node : RaftNode}
    {index : ℕ} {effects : Effects} {next : UInt64}
    (hpropose : r.node.propose bytes = some (node, .ok (index, effects))) :
    ({ r with
      nextProposalId := next
      node := node
      waiters := Function.update r.waiters index (some ⟨r.nextProposalId, bytes⟩) } :
        Runtime).Settled f w' id acks
      (tickets ++ [⟨r.nextProposalId, index, r.node.term, bytes⟩]) applied := by
  obtain ⟨hlead, hindex⟩ := RaftNode.isLeader_of_propose hpropose
  have hleader : w.leader r.node.term = some id := by
    rw [hnode] at hlead ⊢
    exact ht.leader hlead
  have hlast : (w.tlog r.node.term).length < index := by
    have hterm : r.node.term = w.cur id := by
      rw [hnode]
      exact (ht.node id).term
    have hheld := ht.sim.inv.held hleader hterm.symm
    have hlog : (c.nodes id).core.log.entries = w.log id := (ht.node id).log
    rw [hindex, hnode, (ht.plain id).lastIndex, hlog, hheld, hnode]
    exact Nat.lt_succ_self _
  refine ⟨h.applies.extend (RaftNode.propose_extends h.applies.intact h.applies.snapshot hpropose)
    rfl, fun t ht => ?_, fun {i p} hp a ha hat t ht hid hterm => ?_⟩
  · rcases List.mem_append.1 ht with hold | hnew
    · exact hle.leader (h.leads t hold)
    · rw [List.mem_singleton.1 hnew]
      exact hle.leader hleader
  · by_cases hi : i = index
    · subst hi
      obtain rfl : (⟨r.nextProposalId, bytes⟩ : PendingProposal) = p := by simpa using hp
      rcases List.mem_append.1 ht with hold | hnew
      · have hlt := howned.fresh t hold
        rw [hid] at hlt
        exact UInt64.lt_irrefl _ hlt
      · rw [List.mem_singleton.1 hnew] at hterm
        have hlen := (hacked.placed a ha).length
        rw [hterm, hat] at hlen
        exact Nat.lt_irrefl _ (Nat.lt_of_lt_of_le hlast hlen)
    · have hp : r.waiters i = some p := by simpa [hi] using hp
      rcases List.mem_append.1 ht with hold | hnew
      · exact h.pending hp a ha hat t hold hid hterm
      · obtain ⟨t', ht', hid', -⟩ := howned.waiting hp
        rw [List.mem_singleton.1 hnew] at hid
        have hlt := howned.fresh t' ht'
        rw [hid', ← hid] at hlt
        exact UInt64.lt_irrefl _ hlt

end Runtime

end Cloud9
