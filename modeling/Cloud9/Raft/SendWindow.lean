import Cloud9.Raft.Contiguous
import Cloud9.Raft.Safety
import Cloud9.Raft.Tenure

/-!
# The requests of a leader are windows of its log

`Leader.send_append_to` reads the log at the peer's `next_index`, and `term_at` answers 0 outside
the log instead of failing. So what a leader sends is a part of its log (`TrueWindow`) as long as
every `next_index` is at most one beyond the last index (`Leader.InRange`).

`next_index` is written at the election, by the optimistic update of pipelining, by the handler of
snapshot responses, and after a rejection, from the last index of the follower's log. The follower's
log can be longer than the leader's, and then `next_index` leaves the log (`request_beyond_log`). In
tenures in which no answer names an index beyond the leader's log it never does
(`requests_are_windows`).
-/

namespace Cloud9

/-! ## Windows -/

/-- Contiguous, with positive terms: a term of 0 means that there is no entry. -/
structure Log.WellFormed (log : Log) : Prop where
  contiguous : log.Contiguous
  terms : ∀ e ∈ log.entries, 0 < e.term
  snapshotTerm : 0 < log.snapshotIndex → 0 < log.snapshotTerm

namespace Log.WellFormed

variable {log : Log}

theorem termAt_pos (h : log.WellFormed) {i : ℕ} (hpos : 0 < i) (hlo : log.snapshotIndex ≤ i)
    (hhi : i ≤ log.lastIndex) : 0 < log.termAt i := by
  rcases Nat.eq_or_lt_of_le hlo with rfl | hlt
  · have hterm : log.termAt log.snapshotIndex = log.snapshotTerm := by
      simp [Log.termAt, Nat.pos_iff_ne_zero.1 hpos]
    rw [hterm]
    exact h.snapshotTerm hpos
  · obtain ⟨e, he⟩ := h.contiguous.get_isSome hlt hhi
    rw [log.termAt_eq hlt, he]
    rw [get_eq, if_neg (Nat.not_le.2 hlt)] at he
    exact h.terms e (List.mem_of_getElem? he)

theorem append (h : log.WellFormed) {e : Entry} (hidx : e.index = log.lastIndex + 1)
    (hterm : 0 < e.term) : (log.append e).WellFormed where
  contiguous := h.contiguous.append hidx
  terms e' he' := by
    rcases List.mem_append.1 he' with he' | he'
    · exact h.terms e' he'
    · rw [List.mem_singleton.1 he']
      exact hterm
  snapshotTerm := h.snapshotTerm

end Log.WellFormed

/-- The request starts at an entry of the log, or at the snapshot or the beginning, names the term
there, and carries the entries that follow. -/
structure TrueWindow (log : Log) (req : AppendRequest) : Prop where
  start : log.snapshotIndex ≤ req.prevLogIndex
  prev : req.prevLogIndex ≤ log.lastIndex
  term : req.prevLogTerm = log.termAt req.prevLogIndex
  zero : req.prevLogTerm = 0 → req.prevLogIndex = 0
  entries : ∀ k e, req.entries[k]? = some e → log.get (req.prevLogIndex + 1 + k) = some e

/-- Any entries from `next` on, with the term before them, are a window of the log. -/
theorem Log.WellFormed.window {log : Log} (h : log.WellFormed) {next stop commit : ℕ}
    (hsnap : log.snapshotIndex < next) (hnext : next ≤ log.lastIndex + 1) :
    TrueWindow log ⟨next - 1, log.termAt (next - 1), log.slice next stop, commit⟩ where
  start := Nat.le_sub_one_of_lt hsnap
  prev := Nat.sub_le_of_le_add hnext
  term := rfl
  zero hzero := by
    by_contra hne
    have hpos := h.termAt_pos (Nat.pos_of_ne_zero hne) (Nat.le_sub_one_of_lt hsnap)
      (Nat.sub_le_of_le_add hnext)
    exact Nat.ne_of_gt hpos hzero
  entries k e he := by
    dsimp only at he ⊢
    rw [h.contiguous.slice hsnap, List.getElem?_drop, List.getElem?_take] at he
    split_ifs at he
    have hpos : next - 1 + 1 + k - log.snapshotIndex - 1 =
        next - log.snapshotIndex - 1 + k := by omega
    rw [Log.get_eq, if_neg (by omega), hpos]
    exact he

theorem TrueWindow.append {log : Log} {req : AppendRequest} (h : TrueWindow log req)
    (hcont : log.Contiguous) {e : Entry} (hidx : e.index = log.lastIndex + 1) :
    TrueWindow (log.append e) req where
  start := h.start
  prev := by
    rw [Log.lastIndex_append, hidx]
    exact Nat.le_succ_of_le h.prev
  term := by
    rw [h.term, (hcont.agree_append e h.prev).termAt (Nat.le_refl _)]
  zero := h.zero
  entries k e' he' := Log.get_append (h.entries k e' he') e

/-- All append requests among the messages are windows of the log. -/
def Effects.Windows (e : Effects) (log : Log) : Prop :=
  ∀ m ∈ e.messages, ∀ req, m.payload = .appendRequest req → TrueWindow log req

namespace Effects.Windows

variable {e f : Effects} {log : Log}

theorem none : Effects.none.Windows log := nofun

theorem merge (h : e.Windows log) (h' : f.Windows log) : (e.merge f).Windows log := All.merge h h'

theorem of_noise (h : ∀ m ∈ e.messages, m.payload.isNoise = true) : e.Windows log := by
  intro m hm req hreq
  have hnoise := h m hm
  rw [hreq] at hnoise
  cases hnoise

theorem append (h : e.Windows log) (hcont : log.Contiguous) {entry : Entry}
    (hidx : entry.index = log.lastIndex + 1) : e.Windows (log.append entry) :=
  fun m hm req hreq => (h m hm req hreq).append hcont hidx

end Effects.Windows

/-! ## Indices within the log -/

/-- All values are at most `b`, and so is the default `d`. -/
def IndexMap.Bounded (m : IndexMap) (d b : ℕ) : Prop := ∀ id, (m id).getD d ≤ b

namespace IndexMap.Bounded

variable {m : IndexMap} {d b v : ℕ}

theorem empty (h : d ≤ b) : IndexMap.empty.Bounded d b := fun _ => h

theorem mono {b' : ℕ} (h : m.Bounded d b) (hle : b ≤ b') : m.Bounded d b' :=
  fun id => Nat.le_trans (h id) hle

theorem insert (h : m.Bounded d b) (id : NodeId) (hv : v ≤ b) : (m.insert id v).Bounded d b := by
  intro id'
  unfold IndexMap.insert
  rcases eq_or_ne id' id with rfl | hne
  · rw [Function.update_self]
    exact hv
  · rw [Function.update_of_ne hne]
    exact h id'

theorem orInsert (h : m.Bounded d b) (id : NodeId) (hv : v ≤ b) :
    (m.orInsert id v).Bounded d b := by
  unfold IndexMap.orInsert
  split_ifs
  · exact h.insert id hv
  · exact h

theorem foldl_insert (h : m.Bounded d b) (nodes : List NodeId) (hv : v ≤ b) :
    (nodes.foldl (fun m id => m.insert id v) m).Bounded d b :=
  List.foldlRecOn (motive := fun m : IndexMap => m.Bounded d b) _ _ h
    fun _ hm id _ => hm.insert id hv

theorem foldl_orInsert (h : m.Bounded d b) (nodes : List NodeId) (hv : v ≤ b) :
    (nodes.foldl (fun m id => m.orInsert id v) m).Bounded d b :=
  List.foldlRecOn (motive := fun m : IndexMap => m.Bounded d b) _ _ h
    fun _ hm id _ => hm.orInsert id hv

end IndexMap.Bounded

namespace Leader

/-- Sending resumes within the log or right after it, and no node is known to hold more. -/
structure InRange (l : Leader) (log : Log) : Prop where
  next : l.nextIndex.Bounded 1 (log.lastIndex + 1)
  matched : l.matchIndex.Bounded 0 log.lastIndex

theorem InRange.mono {l : Leader} {log log' : Log} (h : l.InRange log)
    (hle : log.lastIndex ≤ log'.lastIndex) : l.InRange log' :=
  ⟨h.next.mono (Nat.succ_le_succ hle), h.matched.mono hle⟩

/-! ## Sending -/

theorem sendAppendTo_sends {l : Leader} {core : Core} {peer : NodeId} {next : ℕ}
    (hnext : (l.nextIndex peer).getD 1 = next) (hsnap : core.log.snapshotIndex < next) :
    (l.sendAppendTo core peer).2.messages = [core.message peer (.appendRequest ⟨next - 1,
      core.log.termAt (next - 1), core.log.slice next
        (min (next + core.config.maxEntriesPerMsg) (core.log.lastIndex + 1)),
      core.commitIndex⟩)] := by
  rw [l.sendAppendTo_effects peer hnext hsnap]
  rfl

theorem sendAppendTo_snapshot {l : Leader} {core : Core} {peer : NodeId}
    (hsnap : (l.nextIndex peer).getD 1 ≤ core.log.snapshotIndex) :
    (l.sendAppendTo core peer).2.messages = [] := by
  unfold sendAppendTo
  simp only [if_pos hsnap]
  rfl

theorem sendAppendTo_window {l : Leader} {core : Core} (hlog : core.log.WellFormed) {peer : NodeId}
    (hnext : (l.nextIndex peer).getD 1 ≤ core.log.lastIndex + 1) :
    (l.sendAppendTo core peer).2.Windows core.log := by
  intro m hm req hreq
  rcases Nat.lt_or_ge core.log.snapshotIndex ((l.nextIndex peer).getD 1) with hsnap | hsnap
  · rw [sendAppendTo_sends rfl hsnap] at hm
    obtain rfl := List.mem_singleton.1 hm
    cases hreq
    exact hlog.window hsnap hnext
  · rw [sendAppendTo_snapshot hsnap] at hm
    cases hm

/-- Where the sums wrap around, the batch ends elsewhere and nothing else changes. -/
theorem sendAppendTo64_sends {l : Leader} {core : Core} {peer : NodeId}
    (hsnap : core.log.snapshotIndex < (l.nextIndex peer).getD 1) :
    (l.sendAppendTo64 core peer).2.messages = [core.message peer (.appendRequest
      ⟨(l.nextIndex peer).getD 1 - 1, core.log.termAt ((l.nextIndex peer).getD 1 - 1),
        core.log.slice ((l.nextIndex peer).getD 1) (batchEnd core ((l.nextIndex peer).getD 1)),
        core.commitIndex⟩)] := by
  simp only [sendAppendTo64, if_neg (Nat.not_le.2 hsnap), core.log.prevTerm_eq hsnap]
  rfl

theorem sendAppendTo64_snapshot {l : Leader} {core : Core} {peer : NodeId}
    (hsnap : (l.nextIndex peer).getD 1 ≤ core.log.snapshotIndex) :
    (l.sendAppendTo64 core peer).2.messages = [] := by
  unfold sendAppendTo64
  simp only [if_pos hsnap]
  rfl

theorem sendAppendTo_nextIndex_cases (l : Leader) (core : Core) (peer : NodeId) :
    (l.sendAppendTo core peer).1.nextIndex = l.nextIndex ∨
      core.log.snapshotIndex < (l.nextIndex peer).getD 1 ∧
      ∃ e ∈ core.log.slice ((l.nextIndex peer).getD 1) (min ((l.nextIndex peer).getD 1 +
          core.config.maxEntriesPerMsg) (core.log.lastIndex + 1)),
        (l.sendAppendTo core peer).1.nextIndex = l.nextIndex.insert peer (e.index + 1) := by
  unfold sendAppendTo
  dsimp only
  split
  · exact .inl rfl
  · rename_i hsnap
    dsimp only
    cases hlast : (core.log.slice ((l.nextIndex peer).getD 1) (min ((l.nextIndex peer).getD 1 +
        core.config.maxEntriesPerMsg) (core.log.lastIndex + 1))).getLast? with
    | none => simp
    | some e =>
      simp only [Option.map_some, Option.getD_some]
      split
      · exact .inr ⟨Nat.lt_of_not_le hsnap, e, List.mem_of_getLast? hlast, rfl⟩
      · exact .inl rfl

/-- The optimistic update stays within the log. -/
theorem InRange.sendAppendTo {l : Leader} {core : Core} (h : l.InRange core.log)
    (hlog : core.log.WellFormed) (peer : NodeId) :
    (l.sendAppendTo core peer).1.InRange core.log := by
  refine ⟨?_, by rw [l.sendAppendTo_matchIndex]; exact h.matched⟩
  rcases l.sendAppendTo_nextIndex_cases core peer with hnext | ⟨hsnap, e, he, hnext⟩
  · rw [hnext]
    exact h.next
  · rw [hnext]
    rw [hlog.contiguous.slice hsnap] at he
    have hmem := List.mem_of_mem_take (List.mem_of_mem_drop he)
    exact h.next.insert peer (Nat.succ_le_succ (hlog.contiguous.index_le hmem))

theorem InRange.broadcastAppend {l : Leader} {core : Core} (h : l.InRange core.log)
    (hlog : core.log.WellFormed) : (l.broadcastAppend core).1.InRange core.log ∧
      (l.broadcastAppend core).2.Windows core.log := by
  refine broadcastAppend_induct (I := fun l e => l.InRange core.log ∧ e.Windows core.log)
    (fun l e peer hI => ?_) ⟨h, .none⟩
  exact ⟨hI.1.sendAppendTo hlog peer, hI.2.merge (sendAppendTo_window hlog (hI.1.next peer))⟩

/-! ## Progress -/

theorem initial_inRange (core : Core) : (initial core).InRange core.log := by
  have hmatch : IndexMap.Bounded (core.effectiveConfig.allNodes.foldl
      (fun m id => m.insert id 0) IndexMap.empty) 0 core.log.lastIndex :=
    .foldl_insert (.empty (Nat.zero_le _)) _ (Nat.zero_le _)
  refine ⟨.foldl_insert (.empty (Nat.succ_le_succ (Nat.zero_le _))) _ (Nat.le_refl _), ?_⟩
  unfold initial
  dsimp only
  split_ifs
  · exact hmatch
  · exact hmatch.insert _ (Nat.le_refl _)

theorem InRange.reinitProgress {l : Leader} {core : Core} (h : l.InRange core.log) :
    (l.reinitProgress core).InRange core.log := by
  have hmatch := h.matched.foldl_orInsert core.effectiveConfig.allNodes (Nat.zero_le _)
  refine ⟨h.next.foldl_orInsert _ (Nat.le_refl _), ?_⟩
  unfold Leader.reinitProgress
  dsimp only
  split_ifs
  · exact hmatch
  · exact hmatch.insert _ (Nat.le_refl _)

theorem InRange.recordOwnMatch {l : Leader} {core : Core} (h : l.InRange core.log) {index : ℕ}
    (hle : index ≤ core.log.lastIndex) : (l.recordOwnMatch core index).InRange core.log := by
  unfold Leader.recordOwnMatch
  split_ifs
  · exact h
  · exact ⟨h.next, h.matched.insert _ hle⟩

/-- A leader of a positive term with a well-formed log, whose progress is within the log, after the
messages of `e`. -/
structure Steers (l : Leader) (core : Core) (e : Effects) : Prop where
  term : 0 < core.term
  log : core.log.WellFormed
  range : l.InRange core.log
  windows : e.Windows core.log

variable {l l' : Leader} {core : Core} {e : Effects}

theorem Steers.appendEntry (h : Steers l core e) (payload : EntryPayload) :
    Steers l (appendEntry core payload) e where
  term := h.term
  log := h.log.append rfl h.term
  range := h.range.mono (by
    show core.log.lastIndex ≤ (core.log.append _).lastIndex
    rw [Log.lastIndex_append]
    exact Nat.le_succ _)
  windows := h.windows.append h.log.contiguous rfl

theorem Steers.broadcastAppend (h : Steers l core e) :
    Steers (l.broadcastAppend core).1 core (e.merge (l.broadcastAppend core).2) :=
  have hb := h.range.broadcastAppend h.log
  ⟨h.term, h.log, hb.1, h.windows.merge hb.2⟩

theorem Steers.talk (h : Steers l core e) {f : Effects}
    (hf : ∀ m ∈ f.messages, m.payload.isNoise = true) : Steers l core (e.merge f) :=
  ⟨h.term, h.log, h.range, h.windows.merge (.of_noise hf)⟩

theorem Steers.subset (h : Steers l core e) {f : Effects} (hf : f.messages ⊆ e.messages) :
    Steers l core f :=
  ⟨h.term, h.log, h.range, fun m hm => h.windows m (hf hm)⟩

/-- The commit loop and the targets it appends. -/
theorem Steers.maybeCommit (h : Steers l core e) : Steers (l.maybeCommit core).1
    (l.maybeCommit core).2.1 (e.merge (l.maybeCommit core).2.2.1) := by
  refine maybeCommit_induct (I := fun l core f => Steers l core (e.merge f)) ?_ ?_ ?_ l
    (by rwa [Effects.merge_none])
  · exact fun l core f k h _ _ => ⟨h.term, h.log, h.range, h.windows⟩
  · intro l core f cfg h
    rw [← Effects.merge_assoc]
    exact h.talk (l.tryAutoTransfer_noise core cfg).2
  · intro l core f target h
    have happend := h.appendEntry (.config target)
    have hreinit : Steers (l.reinitProgress (Leader.appendEntry core (.config target)))
        (Leader.appendEntry core (.config target)) (e.merge f) :=
      ⟨happend.term, happend.log, happend.range.reinitProgress, happend.windows⟩
    have hsent := hreinit.broadcastAppend
    rw [Effects.merge_assoc] at hsent
    exact ⟨hsent.term, hsent.log, hsent.range, hsent.windows⟩

theorem Steers.progress (h : Steers l core e) (hnext : l'.nextIndex = l.nextIndex)
    (hmatch : l'.matchIndex = l.matchIndex) : Steers l' core e :=
  ⟨h.term, h.log, ⟨hnext ▸ h.range.next, hmatch ▸ h.range.matched⟩, h.windows⟩

/-! ## Calls -/

/-- An answer of the leader's term names an index of its log, and so does a finished write. -/
def answersWithin (core : Core) : Event → Bool
  | .tick => true
  | .diskWriteComplete index => decide (index ≤ core.log.lastIndex)
  | .message msg =>
    match msg.payload with
    | .appendResponse resp => decide (msg.term = core.term → resp.lastLogIndex ≤ core.log.lastIndex)
    | .installSnapshotResponse resp =>
      decide (msg.term = core.term → resp.lastIncludedIndex ≤ core.log.lastIndex)
    | _ => true

theorem retryIndex_le (h : l.InRange core.log) {peer : NodeId} {resp : AppendResponse}
    (hle : resp.lastLogIndex ≤ core.log.lastIndex) :
    l.retryIndex core peer resp ≤ core.log.lastIndex + 1 := by
  have hmatch : l.matchIndex.index peer ≤ core.log.lastIndex := h.matched peer
  unfold retryIndex
  dsimp only
  split_ifs <;> omega

theorem step_steers (h : Steers l core e) {event : Event} (hok : answersWithin core event = true) :
    Steers (l.step core event).1 (l.step core event).2.1
      (e.merge (l.step core event).2.2.effects) := by
  have hcommit : ∀ l : Leader, Steers l core e → Steers (afterCommit (l.maybeCommit core)).1
      (afterCommit (l.maybeCommit core)).2.1
      (e.merge (afterCommit (l.maybeCommit core)).2.2.effects) := by
    intro l h
    have heffects :
        (afterCommit (l.maybeCommit core)).2.2.effects = (l.maybeCommit core).2.2.1 := by
      unfold afterCommit
      dsimp only
      split_ifs <;> rfl
    rw [heffects]
    exact h.maybeCommit
  have hstep := l.step_stepped core event
  generalize l.step core event = r at hstep
  cases hstep with
  | quiet _ l' ticks f hnext hmatch hf =>
    have htalk := (h.progress hnext hmatch).talk hf
    exact ⟨htalk.term, htalk.log, htalk.range, htalk.windows⟩
  | heartbeat l' ticks f hnext hmatch hf =>
    have hticks : Steers l' { core with ticks := ticks } e :=
      have hl' := h.progress hnext hmatch
      ⟨hl'.term, hl'.log, hl'.range, hl'.windows⟩
    show Steers _ _ (e.merge (Effects.merge _ f))
    rw [← Effects.merge_assoc]
    exact hticks.broadcastAppend.talk hf
  | adopt msg leader hterm =>
    have hup : core.maybeUpdateTerm msg.term = (true, { core with persistent :=
        { core.persistent with term := msg.term, votedFor := none } }) := if_pos hterm
    rw [hup]
    exact ⟨Nat.zero_lt_of_lt hterm, h.log, h.range, h.windows.merge .none⟩
  | disk index _ =>
    have hle : index ≤ core.log.lastIndex := of_decide_eq_true hok
    exact hcommit _ ⟨h.term, h.log, ⟨h.range.next, h.range.matched.insert _ hle⟩, h.windows⟩
  | acked msg resp hterm hp _ _ =>
    simp only [answersWithin, hp, decide_eq_true_eq] at hok
    refine hcommit _ ⟨h.term, h.log, ⟨?_, h.range.matched.insert _ (hok hterm)⟩, h.windows⟩
    dsimp only
    split_ifs
    · exact h.range.next
    · exact h.range.next.insert _ (Nat.succ_le_succ (hok hterm))
  | retried msg resp l' hterm hp _ _ hl' =>
    simp only [answersWithin, hp, decide_eq_true_eq] at hok
    have hrange : l'.InRange core.log := by
      rw [hl']
      exact ⟨h.range.next.insert _ (retryIndex_le h.range (hok hterm)), h.range.matched⟩
    exact ⟨h.term, h.log, hrange.sendAppendTo h.log _,
      h.windows.merge (sendAppendTo_window h.log (hrange.next _))⟩
  | installed msg resp hterm hp _ _ _ =>
    simp only [answersWithin, hp, decide_eq_true_eq] at hok
    exact hcommit _ ⟨h.term, h.log, ⟨h.range.next.insert _ (Nat.succ_le_succ (hok hterm)),
      h.range.matched.insert _ (hok hterm)⟩, h.windows⟩

end Leader

/-- The requests sent so far are windows of the node's log, and if it leads so are those that it can
send next. -/
structure RaftNode.Steers (n : RaftNode) (e : Effects) : Prop where
  windows : e.Windows n.core.log
  leader : ∀ l, n.role = .leader l → l.Steers n.core e

/-- An event that a leader handles is `answersWithin` its log. -/
def RaftNode.answeredWithin (n : RaftNode) : ApiCall → Bool
  | .event event => Leader.answersWithin n.core event
  | _ => true

namespace RaftNode

variable {l : Leader} {core : Core} {e : Effects}

theorem Steers.of_leader (h : l.Steers core e) : Steers ⟨core, .leader l⟩ e :=
  ⟨h.windows, fun _ heq => by cases heq; exact h⟩

theorem Steers.settle (h : l.Steers core e) (down : Bool) : (settle core l down).Steers e := by
  cases down with
  | true => exact ⟨h.windows, nofun⟩
  | false => exact .of_leader h

theorem Steers.publish (h : l.Steers core e) :
    (l.publish core).1.Steers (e.merge (l.publish core).2) := by
  refine .settle (h.maybeCommit.broadcastAppend.subset ?_) _
  intro m hm
  simp only [Leader.publish, Effects.merge, Effects.withPersist, List.mem_append] at hm ⊢
  tauto

theorem stepEvent_steers (h : l.Steers core e) {event : Event}
    (hok : Leader.answersWithin core event = true) :
    (stepEvent ⟨core, .leader l⟩ event).1.Steers
      (e.merge (stepEvent ⟨core, .leader l⟩ event).2) := by
  have hstep := Leader.step_steers h hok
  simp only [stepEvent, roleStep]
  obtain ⟨htr | ⟨leader, htr⟩, -⟩ := l.step_kept core event
  · simp only [htr, applyTransition, Effects.merge_none]
    exact .of_leader hstep
  · simp only [htr, applyTransition, Effects.merge_none]
    exact ⟨hstep.windows, fun _ hrole => by cases hrole⟩

/-- **One call to a leader.** -/
theorem call_steers {n n' : RaftNode} {call : ApiCall} {f : Effects} (h : n.Steers e)
    (hlead : n.isLeader = true) (hok : n.answeredWithin call = true)
    (hcall : n.call call = some (n', f)) : n'.Steers (e.merge f) := by
  obtain ⟨core, role⟩ := n
  cases role with
  | leader l =>
    have hl := h.leader l rfl
    have happend : ∀ payload, Leader.Steers (l.recordOwnMatch (Leader.appendEntry core payload)
        (core.log.lastIndex + 1)) (Leader.appendEntry core payload) e := by
      intro payload
      have hnew := hl.appendEntry payload
      refine ⟨hnew.term, hnew.log, hnew.range.recordOwnMatch ?_, hnew.windows⟩
      show _ ≤ (core.log.append _).lastIndex
      rw [Log.lastIndex_append]
    cases call_leader hcall with
    | event event => exact stepEvent_steers hl hok
    | command cmd => exact Steers.publish (happend _)
    | change change core' _ hcore =>
      subst hcore
      have hnew := happend (.config (change.apply core.effectiveConfig core.config.membershipMode))
      exact Steers.publish ⟨hnew.term, hnew.log, hnew.range.reinitProgress, hnew.windows⟩
    | quiet _ l' applied _ hnext hmatch hf =>
      have htalk := (hl.progress hnext hmatch).talk hf
      exact .of_leader ⟨htalk.term, htalk.log, htalk.range, htalk.windows⟩
  | _ => cases hlead

/-- A tenure together with all that was sent in it. -/
def reign (ok : RaftNode → ApiCall → Bool) (start : RaftNode × Effects) (calls : List ApiCall) :
    Option (RaftNode × Effects) :=
  runWhile (fun s call => (s.1.call call).map fun r => (r.1, s.2.merge r.2))
    (fun s call => s.1.isLeader && ok s.1 call) start calls

end RaftNode

/-- **The requests of a leader are windows of its log** as long as the answers it gets name indices
of its log, and one batch beyond the log's end is still a `u64`. Whatever the calls since its
election, all requests sent are windows of the log it has now, and if it still leads, then no
`next_index` is beyond the log and every request it would send is a window. -/
theorem requests_are_windows {core : Core} (hterm : 0 < core.term) (hlog : core.log.WellFormed)
    {calls : List ApiCall} {n : RaftNode} {sent : Effects}
    (hrun : RaftNode.reign RaftNode.answeredWithin (RaftNode.becomeLeader core Effects.none) calls =
      some (n, sent))
    (hroom : n.core.log.lastIndex + 1 + n.core.config.maxEntriesPerMsg < 2 ^ 64) :
    sent.Windows n.core.log ∧ ∀ l, n.role = .leader l → ∀ peer,
      (l.nextIndex peer).getD 1 ≤ n.core.log.lastIndex + 1 ∧
      ∃ r, l.sendAppendTo? n.core peer = some r ∧ r.2.Windows n.core.log := by
  have hstart : Leader.Steers (Leader.initial core) core Effects.none :=
    ⟨hterm, hlog, Leader.initial_inRange core, .none⟩
  have h := runWhile_invariant (I := fun s : RaftNode × Effects => s.1.Steers s.2) ?_
    (.of_leader hstart.broadcastAppend) hrun
  · refine ⟨h.windows, fun l hl peer => ?_⟩
    have hsteers := h.leader l hl
    have hnext : (l.nextIndex peer).getD 1 ≤ n.core.log.lastIndex + 1 := hsteers.range.next peer
    have hwords : l.sendAppendTo64 n.core peer = l.sendAppendTo n.core peer :=
      Leader.sendAppendTo64_eq hsteers.log.contiguous (by omega) (by omega)
    refine ⟨hnext, _, Leader.sendAppendTo?_of_contiguous hsteers.log.contiguous, ?_⟩
    rw [hwords]
    exact Leader.sendAppendTo_window hsteers.log hnext
  · intro s call s' hs hok hstep
    obtain ⟨r, hcall, rfl⟩ := Option.map_eq_some_iff.1 hstep
    simp only [Bool.and_eq_true] at hok
    exact RaftNode.call_steers hs hok.1 hok.2 hcall

/-- A restored leader with a snapshot up to index 3 and one entry above it gets a proposal, a
rejection that names the end of its log and an acknowledgement of the proposal. It has then sent
four requests. -/
theorem requests_are_windows_snapshot :
    let core := Core.restore { Config.new 0 with parallelDiskWrite := false }
      { Core.initialPersistent [0, 1] with
        term := 2, log := ⟨[⟨1, 4, .command [1]⟩], 3, 1, some (.simpleOf [0, 1])⟩ }
    let calls := [.propose [2], .event (.message ⟨1, 0, 2, .appendResponse ⟨false, 4⟩⟩),
      .event (.message ⟨1, 0, 2, .appendResponse ⟨true, 5⟩⟩), .propose [3]]
    ∃ n sent, RaftNode.reign RaftNode.answeredWithin
        (RaftNode.becomeLeader core Effects.none) calls = some (n, sent) ∧
      sent.Windows n.core.log ∧ sent.messages.length = 4 ∧ n.isLeader = true ∧
        n.commitIndex = 5 := by
  intro core calls
  have hlog : core.log.WellFormed := by
    refine ⟨fun i e he => ?_, fun e he => ?_, fun _ => by decide⟩
    · rcases i with _ | i
      · cases he
        rfl
      · cases he
    · obtain rfl := List.mem_singleton.1 he
      decide
  have hrun : (RaftNode.reign RaftNode.answeredWithin (RaftNode.becomeLeader core Effects.none)
      calls).any (fun s => decide (s.2.messages.length = 4 ∧ s.1.isLeader = true ∧
        s.1.commitIndex = 5) && decide (s.1.core.log.lastIndex + 1 +
          s.1.core.config.maxEntriesPerMsg < 2 ^ 64)) = true := by
    decide +kernel
  obtain ⟨⟨n, sent⟩, hs, hend⟩ := (Option.any_eq_true _ _).1 hrun
  obtain ⟨hfacts, hroom⟩ := Bool.and_eq_true_iff.1 hend
  exact ⟨n, sent, hs, (requests_are_windows (by decide) hlog hs (of_decide_eq_true hroom)).1,
    of_decide_eq_true hfacts⟩

/-- Node 0 leads term 1 and appends two commands that reach nobody. Node 1 leads term 2 and appends
one; node 0 refuses its heartbeat and names the end of its own log. -/
def longerRefusal : List Input :=
  electZero ++ [.propose 0 [1], .propose 0 [2], .tick 1,
    .deliver ⟨1, 2, 2, .voteRequest ⟨0, 0⟩⟩, .deliver ⟨2, 1, 2, .voteResponse ⟨true⟩⟩,
    .propose 1 [9], .tick 1,
    .deliver ⟨1, 0, 2, .appendRequest ⟨1, 2, [], 0⟩⟩,
    .deliver ⟨1, 0, 2, .appendRequest ⟨1, 2, [], 0⟩⟩,
    .deliver ⟨0, 1, 2, .appendResponse ⟨false, 2⟩⟩]

/-- **A refusal moves the leader beyond its log**: the log of node 1 ends at 1, but its `next_index`
for node 0 is 3, and it has sent a request that starts at 2 with term 0. -/
theorem request_beyond_log : ∃ c l, trio.run (fun _ input => input.isBasic) longerRefusal = some c ∧
    (c.nodes 1).role = .leader l ∧ (c.nodes 1).core.log.lastIndex = 1 ∧ l.nextIndex 0 = some 3 ∧
      ⟨1, 0, (c.nodes 1).term, .appendRequest ⟨2, 0, [], 0⟩⟩ ∈ c.sent := by
  have hrun : (trio.run (fun _ input => input.isBasic) longerRefusal).any (fun c =>
      (c.nodes 1).leads fun l => decide ((c.nodes 1).core.log.lastIndex = 1 ∧
        l.nextIndex 0 = some 3 ∧
        ⟨1, 0, (c.nodes 1).term, .appendRequest ⟨2, 0, [], 0⟩⟩ ∈ c.sent)) = true := by
    decide +kernel
  obtain ⟨c, hc, hleads⟩ := (Option.any_eq_true _ _).1 hrun
  obtain ⟨l, hl, hfacts⟩ := RaftNode.exists_of_leads hleads
  exact ⟨c, l, hc, hl, of_decide_eq_true hfacts⟩

end Cloud9
