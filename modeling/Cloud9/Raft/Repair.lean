import Cloud9.Raft.CommitTurns
import Cloud9.Raft.NodeCalls
import Cloud9.Raft.Progress

/-!
# Log repair as the code runs it

The leader sends a request with `send_append_to`, the follower answers with
`handle_append_request`, the leader processes the answer with `handle_append_response`, and so on,
each message delivered at once. `Exchange` is a leader, a follower, and the retry that is on its way
between them. The leader counts in words and sends nothing any more once it has stepped down.
`Rel` ties an exchange whose numbers have room to the state of the repair of `Cloud9.Raft.Progress`,
and every round keeps the two in step (`Rel.round`).

Main results: `Exchange.repairs_iff`, and `Exchange.repair_stalls` for a repair that does not end.
-/

namespace Cloud9

/-! ## The exchange -/

def Message.requestTo (peer : NodeId) (m : Message) : Option AppendRequest :=
  match m.payload with
  | .appendRequest req => if m.to = peer then some req else none
  | _ => none

def Message.answer (m : Message) : Option AppendResponse :=
  match m.payload with
  | .appendResponse resp => some resp
  | _ => none

/-- The append request for `peer` among the messages of a call. -/
def Effects.requestTo (effects : Effects) (peer : NodeId) : Option AppendRequest :=
  effects.messages.findSome? (Message.requestTo peer)

/-- The append response among the messages of a call. -/
def Effects.answer (effects : Effects) : Option AppendResponse :=
  effects.messages.findSome? Message.answer

/-- A leader, one follower, and the request that is on its way between them. -/
structure Exchange where
  leader : Leader
  core : Core
  follower : Follower
  followerCore : Core
  inFlight : Option AppendRequest
  /-- The leader has stepped down, or died in a panic. -/
  ended : Bool

namespace Exchange

def peer (x : Exchange) : NodeId := x.followerCore.id

/-- The request that is on its way, or else a new one. -/
def emit (x : Exchange) : Leader × Option AppendRequest :=
  if x.ended then (x.leader, none)
  else match x.inFlight with
    | some req => (x.leader, some req)
    | none =>
      match x.leader.sendAppendTo? x.core x.peer with
      | none => (x.leader, none)
      | some (leader, effects) => (leader, effects.requestTo x.peer)

def request (x : Exchange) : Option AppendRequest := x.emit.2

/-- Where the request starts. -/
def next (x : Exchange) : ℕ := (x.request.map fun req => req.prevLogIndex + 1).getD 0

/-- The follower's answer. -/
def answer (x : Exchange) (req : AppendRequest) : Follower × Core × Option AppendResponse :=
  let (follower, core, result) := x.follower.handleAppendRequest x.followerCore x.core.id req
  (follower, core, result.effects.answer)

def accepted (x : Exchange) : Bool :=
  ((x.request.bind fun req => (x.answer req).2.2).map fun resp => resp.success).getD false

/-- Request, answer, and what the leader makes of the answer. A retry is the next request. -/
def round (x : Exchange) : Exchange :=
  match x.emit with
  | (_, none) => x
  | (leader, some req) =>
    match x.answer req with
    | (_, _, none) => x
    | (follower, followerCore, some resp) =>
      match leader.handleAppendResponse? (x.core.log.entries.length + 1) x.core x.peer resp with
      | none => ⟨leader, x.core, follower, followerCore, none, true⟩
      | some (leader, core, result) =>
        ⟨leader, core, follower, followerCore, result.effects.requestTo x.peer,
          decide (result.transition ≠ .stay)⟩

/-- After finitely many exchanges the follower accepts and its log contains the leader's log `L`.
Up to then every rejected request is followed by one that starts earlier. -/
def Repairs (L : List Entry) (x : Exchange) : Prop :=
  Reaches round (fun x => x.accepted = false → x.round.next < x.next)
    (fun x => x.accepted = true ∧ L <+: x.round.followerCore.log.entries) x

/-- The leader leads, the logs are contiguous and without snapshot, they match, the follower is a
member, and every configuration that waits to be committed is a simple one with the leader as a
voter. -/
structure Valid (x : Exchange) : Prop where
  leading : x.ended = false
  plain : x.core.log.Plain
  positive : Log.PositiveTerms x.core.log.entries
  followerPlain : x.followerCore.log.Plain
  followerPositive : Log.PositiveTerms x.followerCore.log.entries
  matching : Log.Matching x.followerCore.log.entries x.core.log.entries
  member : x.core.effectiveConfig.isMember x.peer = true
  quiet : ∀ idx, x.core.commitIndex < idx → Leader.passes x.core idx

/-- No sum of the exchange overflows: its numbers are below a bound that leaves room for a batch. -/
structure Room (bound : ℕ) (x : Exchange) : Prop where
  batch : bound + x.core.config.maxEntriesPerMsg < 2 ^ 64
  next : (x.leader.nextIndex x.peer).getD 1 ≤ bound
  matched : x.leader.matchIndex.index x.peer < bound
  commit : x.core.commitIndex < bound
  log : x.core.log.entries.length < bound
  followerLog : x.followerCore.log.entries.length < bound

end Exchange

/-! ### The leader's side -/

namespace Leader

/-- The request that starts at `next`. -/
def requestAt (core : Core) (next : ℕ) : AppendRequest :=
  ⟨next - 1, core.log.termAt (next - 1), core.log.slice next
    (min (next + core.config.maxEntriesPerMsg) (core.log.lastIndex + 1)), core.commitIndex⟩

/-- The progress after an accepted request. -/
def withMatch (l : Leader) (core : Core) (peer : NodeId) (index : ℕ) : Leader :=
  { l with
    matchIndex := l.matchIndex.insert peer index
    nextIndex := if core.config.pipelining then l.nextIndex
      else l.nextIndex.insert peer (index + 1) }

/-- Where a leader resumes after it sent the request at `next`. -/
def nextAfter (core : Core) (next : ℕ) : ℕ :=
  if core.config.pipelining then
    max next (min (next + core.config.maxEntriesPerMsg) core.log.entries.length + 1)
  else next

theorem requestAt_entries {core : Core} (hplain : core.log.Plain) {next : ℕ} (hpos : 0 < next) :
    (requestAt core next).entries = (core.log.entries.take
      (min (next + core.config.maxEntriesPerMsg) core.log.entries.length)).drop (next - 1) := by
  have hmin : min (min (next + core.config.maxEntriesPerMsg) (core.log.entries.length + 1))
      core.log.entries.length = min (next + core.config.maxEntriesPerMsg)
        core.log.entries.length := by omega
  show core.log.slice next _ = _
  rw [hplain.slice hpos, hplain.lastIndex, List.take_eq_take_min, hmin]

theorem requestAt_length {core : Core} (hplain : core.log.Plain) {next : ℕ} (hpos : 0 < next) :
    (requestAt core next).entries.length =
      min (next + core.config.maxEntriesPerMsg) core.log.entries.length - (next - 1) := by
  rw [requestAt_entries hplain hpos, List.length_drop, List.length_take]
  omega

/-- The end of the request, as the leader computes it from the last entry. -/
theorem requestAt_sentUpTo {core : Core} (hplain : core.log.Plain) {next : ℕ} (hpos : 0 < next) :
    ((requestAt core next).entries.getLast?.map fun e => e.index + 1).getD next =
      max next (min (next + core.config.maxEntriesPerMsg) core.log.entries.length + 1) := by
  have hlen := requestAt_length hplain hpos
  rw [List.getLast?_eq_getElem?, hlen, requestAt_entries hplain hpos]
  set stop := min (next + core.config.maxEntriesPerMsg) core.log.entries.length with hstop
  rcases Nat.lt_or_ge stop next with hlt | hge
  · rw [List.getElem?_eq_none (by rw [List.length_drop, List.length_take]; omega)]
    simp only [Option.map_none, Option.getD_none]
    omega
  · have hget : core.log.entries[stop - 1]? = some (core.log.entries.get ⟨stop - 1, by omega⟩) :=
      List.getElem?_eq_getElem _
    rw [List.getElem?_drop, List.getElem?_take_of_lt (by omega),
      show next - 1 + (stop - (next - 1) - 1) = stop - 1 by omega, hget]
    simp only [Option.map_some, Option.getD_some, hplain.indexed.index_eq hget]
    omega

/-- Where the sums do not overflow, the request is the one on naturals. -/
theorem sendAppendTo?_eq (l : Leader) {core : Core} (hplain : core.log.Plain) (peer : NodeId)
    {bound : ℕ} (hbatch : bound + core.config.maxEntriesPerMsg < 2 ^ 64)
    (hlog : core.log.entries.length < bound) (hnext : (l.nextIndex peer).getD 1 ≤ bound) :
    l.sendAppendTo? core peer = some (l.sendAppendTo core peer) := by
  rw [sendAppendTo?_of_contiguous hplain.contiguous,
    sendAppendTo64_eq hplain.contiguous (by omega) (by rw [hplain.lastIndex]; omega)]

theorem sendAppendTo_request (l : Leader) {core : Core} (hplain : core.log.Plain) (peer : NodeId)
    {next : ℕ} (hnext : (l.nextIndex peer).getD 1 = next) (hpos : 0 < next) :
    (l.sendAppendTo core peer).2.requestTo peer = some (requestAt core next) := by
  rw [l.sendAppendTo_effects peer hnext (hplain.snapshotIndex ▸ hpos)]
  simp [Effects.requestTo, Effects.withMessage, Effects.none, Message.requestTo, Core.message,
    requestAt]

theorem sendAppendTo_nextIndex (l : Leader) {core : Core} (hplain : core.log.Plain) (peer : NodeId)
    {next : ℕ} (hnext : (l.nextIndex peer).getD 1 = next) (hpos : 0 < next) :
    ((l.sendAppendTo core peer).1.nextIndex peer).getD 1 = nextAfter core next := by
  have hsent := requestAt_sentUpTo hplain hpos
  rw [requestAt] at hsent
  simp only [sendAppendTo, hnext, hplain.snapshotIndex, if_neg (Nat.not_le.2 hpos), hsent,
    nextAfter]
  cases core.config.pipelining with
  | false => simpa using hnext
  | true =>
    simp only [Bool.true_and, decide_eq_true_eq, if_true]
    split_ifs with h
    · simp [IndexMap.insert]
    · rw [hnext]
      omega

end Leader

/-! ### The follower's side -/

namespace Follower

open Log

variable {core leaderCore : Core} (hplain : core.log.Plain) (hpos : PositiveTerms core.log.entries)
  (hlplain : leaderCore.log.Plain) (hlpos : PositiveTerms leaderCore.log.entries)
  (hm : Matching core.log.entries leaderCore.log.entries) {s : Progress}
  (hlog : core.log.entries = s.log) (hnext : 0 < s.next)
include hplain hpos hlplain hlpos hm hlog

theorem prevMatches_iff : prevMatches core (Leader.requestAt leaderCore s.next) = true ↔
    s.Accepts leaderCore.log.entries := by
  have hterms : prevMatches core (Leader.requestAt leaderCore s.next) = true ↔
      (0 < s.next - 1 →
        entryTerm s.log (s.next - 1) = entryTerm leaderCore.log.entries (s.next - 1)) := by
    simp only [prevMatches, Leader.requestAt, hplain.termAt, hlplain.termAt, hlog,
      Bool.not_eq_true', Bool.and_eq_false_iff, decide_eq_false_iff_not, not_not, imp_iff_not_or]
  rw [hlog] at hm hpos
  rw [hterms, Progress.Accepts]
  constructor
  · intro h
    rcases Nat.lt_or_ge leaderCore.log.entries.length (s.next - 1) with hlt | hle
    -- Beyond the leader's log the terms agree only beyond the follower's.
    · right
      have := entryTerm_eq_zero_iff hpos |>.1
        ((h (by omega)).trans ((entryTerm_eq_zero_iff hlpos).2 (.inr hlt)))
      omega
    · left
      rw [← List.take_prefix_iff_commonLength hle]
      exact hm.take_isPrefix hlpos hle h
  · rintro (hc | hmax) h0
    · have hle := List.commonLength_le_left leaderCore.log.entries s.log
      have hp := (List.take_prefix_iff_commonLength (by omega)).2 hc
      obtain ⟨i, hi⟩ : ∃ i, s.next - 1 = i + 1 := ⟨s.next - 2, by omega⟩
      have hL : leaderCore.log.entries[i]? = some (leaderCore.log.entries.get ⟨i, by omega⟩) :=
        List.getElem?_eq_getElem _
      have hF : s.log[i]? = some (leaderCore.log.entries.get ⟨i, by omega⟩) := by
        refine hp.getElem?_eq_some ?_
        rw [List.getElem?_take_of_lt (by omega), hL]
      rw [hi, entryTerm_of_getElem? hL, entryTerm_of_getElem? hF]
    · rw [(entryTerm_eq_zero_iff hpos).2 (.inr (by omega)),
        (entryTerm_eq_zero_iff hlpos).2 (.inr (by omega))]

include hnext

theorem appendEntries_repaired
    (hprev : prevMatches core (Leader.requestAt leaderCore s.next) = true) :
    (appendEntries core.log (Leader.requestAt leaderCore s.next).entries).1 =
      { core.log with
        entries := s.repaired leaderCore.config.maxEntriesPerMsg leaderCore.log.entries } := by
  have hlen := Leader.requestAt_length hlplain hnext
  have hwin : Window leaderCore.log.entries (Leader.requestAt leaderCore s.next) :=
    window_slice hlplain hnext _ _
  rw [accepted_entries hlplain.indexed hlpos hplain hpos hm hwin hprev, hlog]
  have hprevIdx : (Leader.requestAt leaderCore s.next).prevLogIndex = s.next - 1 := rfl
  rcases accepted_cases hlpos hplain hpos hm hwin hprev with ⟨hp, -, hend, hle⟩ | ⟨hnil, hend⟩
  · rw [hprevIdx] at hp hend hle
    rw [hlog, List.take_prefix_iff_commonLength (by omega)] at hp
    rw [hend, Progress.repaired, if_pos hp, hlen]
    have := List.commonLength_le_left leaderCore.log.entries s.log
    rw [Nat.add_sub_of_le (le_min (by omega) (by omega))]
  · rw [hend, merged, if_pos (by simp), Progress.repaired_eq_log]
    intro hc
    rw [hnil, List.length_nil] at hlen
    omega

end Follower

/-! ### The whole exchange -/

namespace Exchange

/-- The exchange is at the state `s` of the repair. -/
structure Rel (L : List Entry) (config : Config) (bound : ℕ) (x : Exchange) (s : Progress) :
    Prop where
  valid : x.Valid
  batch : bound + config.maxEntriesPerMsg < 2 ^ 64
  within : s.Within bound L
  commit : x.core.commitIndex < bound
  leaderLog : x.core.log.entries = L
  config : x.core.config = config
  log : x.followerCore.log.entries = s.log
  next_pos : 0 < s.next
  emit : ∃ leader, x.emit = (leader, some (Leader.requestAt x.core s.next)) ∧
    (leader.nextIndex x.peer).getD 1 = Leader.nextAfter x.core s.next ∧
    leader.matchIndex.index x.peer = s.matched

variable {L : List Entry} {config : Config} {bound : ℕ} {x : Exchange} {s : Progress}

theorem Rel.request (h : Rel L config bound x s) :
    x.request = some (Leader.requestAt x.core s.next) := by
  obtain ⟨leader, hemit, -⟩ := h.emit
  rw [Exchange.request, hemit]

theorem Rel.next (h : Rel L config bound x s) : x.next = s.next := by
  have := h.next_pos
  rw [Exchange.next, h.request]
  show s.next - 1 + 1 = s.next
  omega

/-- A new request starts where the leader's progress says. -/
theorem emit_of_none (hx : x.Valid) (hnone : x.inFlight = none) {next : ℕ}
    (hnext : (x.leader.nextIndex x.peer).getD 1 = next) (hpos : 0 < next)
    (hbatch : bound + x.core.config.maxEntriesPerMsg < 2 ^ 64)
    (hlog : x.core.log.entries.length < bound) (hroom : next ≤ bound) :
    ∃ leader, x.emit = (leader, some (Leader.requestAt x.core next)) ∧
      (leader.nextIndex x.peer).getD 1 = Leader.nextAfter x.core next ∧
      leader.matchIndex.index x.peer = x.leader.matchIndex.index x.peer := by
  have hsend := x.leader.sendAppendTo?_eq hx.plain x.peer hbatch hlog (hnext ▸ hroom)
  refine ⟨(x.leader.sendAppendTo x.core x.peer).1, ?_,
    x.leader.sendAppendTo_nextIndex hx.plain x.peer hnext hpos, ?_⟩
  · simp only [emit, hx.leading, Bool.false_eq_true, if_false, hnone, hsend,
      x.leader.sendAppendTo_request hx.plain x.peer hnext hpos]
  · rw [Leader.sendAppendTo_matchIndex]

/-- The follower's log and answer, by whether the request passes the consistency check. -/
theorem answer_eq (x : Exchange) (req : AppendRequest) :
    (x.answer req).2.1.config = x.followerCore.config ∧
    if Follower.prevMatches x.followerCore req then
      (x.answer req).2.1.log = (Follower.appendEntries x.followerCore.log req.entries).1 ∧
      (x.answer req).2.2 = some ⟨true,
        (Follower.appendEntries x.followerCore.log req.entries).1.lastIndex⟩
    else (x.answer req).2.1.log = x.followerCore.log ∧
      (x.answer req).2.2 = some ⟨false, x.followerCore.log.lastIndex⟩ := by
  simp only [answer, Follower.handleAppendRequest]
  set core := ((({ x.follower with leader := some x.core.id } : Follower).recordContact
    x.followerCore).resetDeadline x.followerCore).2
  have hprev : Follower.prevMatches core req = Follower.prevMatches x.followerCore req := rfl
  rw [hprev]
  by_cases h : Follower.prevMatches x.followerCore req = true
  · simp only [if_pos h]
    refine ⟨Follower.acceptAppend_config core req, Follower.acceptAppend_log core req, ?_⟩
    rw [Follower.acceptAppend_log]
    cases (Follower.appendEntries core.log req.entries).2 <;> rfl
  · simp only [if_neg h]
    exact ⟨rfl, rfl, rfl⟩

theorem Rel.prevMatches_iff (h : Rel L config bound x s) :
    Follower.prevMatches x.followerCore (Leader.requestAt x.core s.next) = true ↔ s.Accepts L := by
  rw [← h.leaderLog]
  exact Follower.prevMatches_iff h.valid.followerPlain h.valid.followerPositive h.valid.plain
    h.valid.positive h.valid.matching h.log

theorem Rel.answer_accepts (h : Rel L config bound x s) (hacc : s.Accepts L) :
    ∃ follower followerCore, x.answer (Leader.requestAt x.core s.next) =
        (follower, followerCore, some ⟨true, (s.repaired config.maxEntriesPerMsg L).length⟩) ∧
      followerCore.config = x.followerCore.config ∧
      followerCore.log = { x.followerCore.log with
        entries := s.repaired config.maxEntriesPerMsg L } ∧
      followerCore.log.Plain := by
  have hprev := h.prevMatches_iff.2 hacc
  have hans := x.answer_eq (Leader.requestAt x.core s.next)
  have happ := Follower.appendEntries_repaired h.valid.followerPlain h.valid.followerPositive
    h.valid.plain h.valid.positive h.valid.matching h.log h.next_pos hprev
  rw [h.config, h.leaderLog] at happ
  simp only [if_pos hprev, happ] at hans
  have hplain : ({ x.followerCore.log with
      entries := s.repaired config.maxEntriesPerMsg L } : Log).Plain := by
    refine h.valid.followerPlain.withEntries ?_
    rcases s.repaired_cases (L := L) config.maxEntriesPerMsg with heq | hp
    · rw [heq, ← h.log]
      exact h.valid.followerPlain.indexed
    · exact h.valid.plain.indexed.of_isPrefix (h.leaderLog ▸ hp)
  generalize x.answer (Leader.requestAt x.core s.next) = r at hans
  obtain ⟨follower, followerCore, resp⟩ := r
  obtain ⟨hcfg, hlog, rfl⟩ := hans
  refine ⟨follower, followerCore, ?_, hcfg, hlog, by rw [hlog]; exact hplain⟩
  rw [hplain.lastIndex]

theorem Rel.answer_rejects (h : Rel L config bound x s) (hrej : ¬s.Accepts L) :
    ∃ follower followerCore, x.answer (Leader.requestAt x.core s.next) =
        (follower, followerCore, some ⟨false, s.log.length⟩) ∧
      followerCore.config = x.followerCore.config ∧ followerCore.log = x.followerCore.log := by
  have hprev := mt h.prevMatches_iff.1 hrej
  have hans := x.answer_eq (Leader.requestAt x.core s.next)
  simp only [if_neg hprev] at hans
  generalize x.answer (Leader.requestAt x.core s.next) = r at hans
  obtain ⟨follower, followerCore, resp⟩ := r
  obtain ⟨hcfg, hlog, rfl⟩ := hans
  refine ⟨follower, followerCore, ?_, hcfg, hlog⟩
  rw [h.valid.followerPlain.lastIndex, h.log]

theorem Rel.accepted (h : Rel L config bound x s) : x.accepted = true ↔ s.Accepts L := by
  rw [Exchange.accepted, h.request]
  by_cases hacc : s.Accepts L
  · obtain ⟨f, fc, hans, -⟩ := h.answer_accepts hacc
    simp [hans, hacc]
  · obtain ⟨f, fc, hans, -⟩ := h.answer_rejects hacc
    simp [hans, hacc]

/-- The round of an accepted request: the leader records the follower's last index, and commits
what it can. -/
theorem Rel.round_of_accepts (h : Rel L config bound x s) (hacc : s.Accepts L) :
    ∃ (leader : Leader) (k : ℕ) (follower : Follower) (followerCore : Core),
      x.round = ⟨leader, x.core.setCommitIndex k, follower, followerCore, none, false⟩ ∧
      x.core.commitIndex ≤ k ∧ k < bound ∧ followerCore.config = x.followerCore.config ∧
      followerCore.log = { x.followerCore.log with
        entries := s.repaired config.maxEntriesPerMsg L } ∧
      (leader.nextIndex x.peer).getD 1 =
        (s.round config.pipelining config.maxEntriesPerMsg L).next ∧
      leader.matchIndex.index x.peer = (s.repaired config.maxEntriesPerMsg L).length := by
  obtain ⟨leader, hemit, hnext, -⟩ := h.emit
  obtain ⟨follower, followerCore, hans, hcfg, hlog, -⟩ := h.answer_accepts hacc
  set len := (s.repaired config.maxEntriesPerMsg L).length with hlen
  obtain ⟨k, hadv, hk⟩ := (leader.withMatch x.core x.peer len).advanceCommitIndex_spec x.core
  have hbatch := h.batch
  have hcommit := h.commit
  have hlenL : x.core.log.lastIndex < bound := by
    rw [h.valid.plain.lastIndex, h.leaderLog]
    exact h.within.leaderLog
  have hkbound : k < bound := by
    rcases hk.within with rfl | hle
    · exact hcommit
    · omega
  have hlenbound : len < bound := by
    have hwithin : (s.round config.pipelining config.maxEntriesPerMsg L).Within bound L :=
      h.within.round
    rw [Progress.round_of_accepts hacc] at hwithin
    exact hwithin.matched
  refine ⟨leader.withMatch x.core x.peer len, k, follower, followerCore, ?_, hk.le, hkbound, hcfg,
    hlog, ?_, ?_⟩
  · have hresp : leader.handleAppendResponse? (x.core.log.entries.length + 1) x.core x.peer
        ⟨true, len⟩ = some (leader.withMatch x.core x.peer len, x.core.setCommitIndex k,
          .stay Effects.none) := by
      simp only [Leader.handleAppendResponse?, h.valid.member, Bool.not_true, Bool.false_eq_true,
        if_false, if_true, wrappingAdd_of_lt (show len + 1 < 2 ^ 64 by omega)]
      have hcommitted := Leader.maybeCommit?_of_passes
        (l := leader.withMatch x.core x.peer len) (show x.core.commitIndex + 1 < 2 ^ 64 by omega)
        h.valid.quiet x.core.log.entries.length
      rw [hadv] at hcommitted
      exact congrArg (Option.map Leader.afterCommit) hcommitted
    simp only [round, hemit, hans, hresp]
    rfl
  · rw [Progress.round_of_accepts hacc]
    rw [Leader.nextAfter, h.config, h.leaderLog] at hnext
    simp only [Leader.withMatch, h.config]
    split_ifs with hp
    · rw [hnext, if_pos hp]
    · simp [IndexMap.insert, hlen]
  · simp [Leader.withMatch, IndexMap.index, IndexMap.insert]

/-- The leader keeps its log, and the follower's log still matches it. -/
theorem Rel.valid_of_log (h : Rel L config bound x s) {x' : Exchange} {log : List Entry} {k : ℕ}
    (hk : x.core.commitIndex ≤ k) (hcore : x'.core = x.core.setCommitIndex k)
    (hended : x'.ended = false) (hcfg : x'.followerCore.config = x.followerCore.config)
    (hlog : x'.followerCore.log = { x.followerCore.log with entries := log })
    (hcases : log = s.log ∨ log <+: L) : x'.Valid := by
  have hentries : x'.followerCore.log.entries = log := by rw [hlog]
  have hpeer : x'.peer = x.peer := by rw [peer, peer, Core.id, Core.id, hcfg]
  refine ⟨hended, by rw [hcore]; exact h.valid.plain, by rw [hcore]; exact h.valid.positive, ?_,
    ?_, ?_, by rw [hcore, hpeer]; exact h.valid.member, ?_⟩
  · rw [hlog]
    refine h.valid.followerPlain.withEntries ?_
    rcases hcases with rfl | hp
    · exact h.log ▸ h.valid.followerPlain.indexed
    · exact h.valid.plain.indexed.of_isPrefix (h.leaderLog ▸ hp)
  · rw [hentries]
    rcases hcases with rfl | hp
    · exact h.log ▸ h.valid.followerPositive
    · exact h.valid.positive.of_isPrefix (h.leaderLog ▸ hp)
  · rw [hentries, hcore]
    rcases hcases with rfl | hp
    · exact h.log ▸ h.valid.matching
    · exact .of_isPrefix (h.leaderLog ▸ hp)
  · rw [hcore]
    exact fun idx hidx => h.valid.quiet idx (Nat.lt_of_le_of_lt hk hidx)

theorem Rel.round_accepts (h : Rel L config bound x s) (hacc : s.Accepts L) :
    Rel L config bound x.round (s.round config.pipelining config.maxEntriesPerMsg L) := by
  obtain ⟨leader, k, follower, followerCore, hround, hk, hkbound, hcfg, hlog, hnext, hmatch⟩ :=
    h.round_of_accepts hacc
  have hvalid : x.round.Valid := h.valid_of_log hk (by rw [hround]) (by rw [hround])
    (by rw [hround, hcfg]) (by rw [hround, hlog]) (s.repaired_cases config.maxEntriesPerMsg)
  have hwithin : (s.round config.pipelining config.maxEntriesPerMsg L).Within bound L :=
    h.within.round
  have hpeer : x.round.peer = x.peer := by rw [hround, peer, peer, Core.id, Core.id, hcfg]
  have hpos : 0 < (s.round config.pipelining config.maxEntriesPerMsg L).next := by
    rw [Progress.round_of_accepts hacc]
    have := h.next_pos
    dsimp only
    split_ifs <;> omega
  refine ⟨hvalid, h.batch, hwithin, by rw [hround]; exact hkbound,
    by rw [hround]; exact h.leaderLog, by rw [hround]; exact h.config, ?_, hpos, ?_⟩
  · rw [hround, Progress.round_of_accepts hacc, hlog]
  · obtain ⟨leader', hemit, hnext', hmatch'⟩ := emit_of_none hvalid (by rw [hround])
      (by rw [hpeer, hround]; exact hnext) hpos
      (by rw [hround]; exact h.config ▸ h.batch)
      (by rw [hround]; exact h.leaderLog ▸ hwithin.leaderLog) hwithin.next
    refine ⟨leader', hemit, hnext', hmatch'.trans ?_⟩
    rw [hpeer, hround, Progress.round_of_accepts hacc]
    exact hmatch

/-- The round of a rejected request: the leader resumes at the end of the follower's log. -/
theorem Rel.round_rejects (h : Rel L config bound x s) (hrej : ¬s.Accepts L) :
    Rel L config bound x.round (s.round config.pipelining config.maxEntriesPerMsg L) := by
  obtain ⟨leader, hemit, -, hmatch⟩ := h.emit
  obtain ⟨follower, followerCore, hans, hcfg, hlog⟩ := h.answer_rejects hrej
  set next := (s.round config.pipelining config.maxEntriesPerMsg L).next with hnext
  have hbatch := h.batch
  have hlogbound := h.within.log
  have hmatchbound := h.within.matched
  have hwithin : (s.round config.pipelining config.maxEntriesPerMsg L).Within bound L :=
    h.within.round
  have hretry : leader.retryIndex64 x.core x.peer ⟨false, s.log.length⟩ = next := by
    rw [hnext, Progress.round_of_rejects hrej, Leader.retryIndex64, h.config, hmatch,
      wrappingAdd_of_lt (show s.log.length + 1 < 2 ^ 64 by omega), wrappingAdd_of_lt (by omega)]
    dsimp only
    split_ifs <;> omega
  have hpos : 0 < next := by
    rw [hnext, Progress.round_of_rejects hrej]
    dsimp only
    split_ifs <;> omega
  set leader' : Leader := { leader with nextIndex := leader.nextIndex.insert x.peer next }
  have hnext' : (leader'.nextIndex x.peer).getD 1 = next := by simp [leader', IndexMap.insert]
  have hsend : leader'.sendAppendTo? x.core x.peer = some (leader'.sendAppendTo x.core x.peer) :=
    leader'.sendAppendTo?_eq h.valid.plain x.peer (by rw [h.config]; exact h.batch)
      (by rw [h.leaderLog]; exact h.within.leaderLog) (by rw [hnext']; exact hwithin.next)
  have hround : x.round = ⟨(leader'.sendAppendTo x.core x.peer).1, x.core, follower, followerCore,
      some (Leader.requestAt x.core next), false⟩ := by
    have hresp : leader.handleAppendResponse? (x.core.log.entries.length + 1) x.core x.peer
        ⟨false, s.log.length⟩ = some ((leader'.sendAppendTo x.core x.peer).1, x.core,
          .stay (leader'.sendAppendTo x.core x.peer).2) := by
      simp only [Leader.handleAppendResponse?, h.valid.member, Bool.not_true, Bool.false_eq_true,
        if_false, hretry]
      exact congrArg (Option.map _) hsend
    simp only [round, hemit, hans, hresp]
    rw [← leader'.sendAppendTo_request h.valid.plain x.peer hnext' hpos]
    rfl
  have hvalid : x.round.Valid := h.valid_of_log le_rfl (by rw [hround]; rfl) (by rw [hround])
    (by rw [hround, hcfg]) (by rw [hround, hlog, ← h.log]) (.inl rfl)
  have hpeer : x.round.peer = x.peer := by rw [hround, peer, peer, Core.id, Core.id, hcfg]
  refine ⟨hvalid, h.batch, hwithin, by rw [hround]; exact h.commit,
    by rw [hround]; exact h.leaderLog,
    by rw [hround]; exact h.config, ?_, hpos, (leader'.sendAppendTo x.core x.peer).1, ?_, ?_, ?_⟩
  · rw [hround, Progress.round_of_rejects hrej, hlog]
    exact h.log
  · rw [hround]
    rfl
  · rw [hpeer, hround]
    exact leader'.sendAppendTo_nextIndex h.valid.plain x.peer hnext' hpos
  · rw [hpeer, Leader.sendAppendTo_matchIndex, Progress.round_of_rejects hrej]
    exact hmatch

theorem Rel.round (h : Rel L config bound x s) :
    Rel L config bound x.round (s.round config.pipelining config.maxEntriesPerMsg L) := by
  by_cases hacc : s.Accepts L
  · exact h.round_accepts hacc
  · exact h.round_rejects hacc

/-- A new exchange repairs the follower's log if and only if the repair of `Progress` ends. -/
theorem repairs_iff_progress {x : Exchange} (hx : x.Valid) (hroom : x.Room bound)
    (hstart : x.inFlight = none) {next : ℕ}
    (hnext : (x.leader.nextIndex x.peer).getD 1 = next) (hpos : 0 < next) :
    x.Repairs x.core.log.entries ↔
      Progress.Repairs x.core.config.pipelining x.core.config.maxEntriesPerMsg x.core.log.entries
        ⟨next, x.leader.matchIndex.index x.peer, x.followerCore.log.entries⟩ := by
  have hrel : Rel x.core.log.entries x.core.config bound x
      ⟨next, x.leader.matchIndex.index x.peer, x.followerCore.log.entries⟩ :=
    ⟨hx, hroom.batch, ⟨hnext ▸ hroom.next, hroom.matched, hroom.followerLog, hroom.log⟩,
      hroom.commit, rfl, rfl, rfl, hpos,
      emit_of_none hx hstart hnext hpos hroom.batch hroom.log (hnext ▸ hroom.next)⟩
  refine Reaches.iff_of_rel (fun y s hR => ?_) (fun y s hR => ?_) (fun y s hR => hR.round) hrel
  · rw [Progress.Done, hR.accepted]
    refine and_congr_right fun hacc => ?_
    rw [hR.round.log, Progress.round_of_accepts hacc]
  · rw [Progress.Lowers, ← hR.accepted, hR.round.next, hR.next, Bool.not_eq_true]

/-- A node of term 4 with commands of the given terms in its log. -/
def coreWith (id : NodeId) (pipelining : Bool) (terms : List ℕ) : Core :=
  Core.restore { Config.new id with pipelining := pipelining }
    { term := 4
      votedFor := none
      log := { Log.empty with
        entries := terms.mapIdx fun i t => ⟨t, i + 1, .command []⟩ }
      bootstrapConfig := Configuration.simpleOf [0, 1, 2] }

/-- Node 0 has just become the leader, and node 1 is a follower. -/
def newLeader (pipelining : Bool) (terms followerTerms : List ℕ) : Exchange where
  leader := Leader.initial (coreWith 0 pipelining terms)
  core := coreWith 0 pipelining terms
  follower := (Follower.new (coreWith 1 pipelining followerTerms) none).1
  followerCore := coreWith 1 pipelining followerTerms
  inFlight := none
  ended := false

theorem coreWith_indexed (id : NodeId) (pipelining : Bool) (terms : List ℕ) :
    (coreWith id pipelining terms).log.Plain := by
  refine ⟨rfl, rfl, rfl, fun i hi => ?_⟩
  simp [coreWith, Core.restore, Core.log]

theorem coreWith_quiet (id : NodeId) (pipelining : Bool) (terms : List ℕ) (idx : ℕ) :
    Leader.passes (coreWith id pipelining terms) idx := by
  have hnone : Leader.configEntry (coreWith id pipelining terms) idx = none := by
    rw [Leader.configEntry, (coreWith_indexed id pipelining terms).get, Log.entryAt]
    split_ifs
    · rfl
    · simp only [coreWith, Core.restore, Core.log, List.getElem?_mapIdx]
      cases terms[idx - 1]? <;> rfl
  intro cfg hcfg
  rw [hnone] at hcfg
  cases hcfg

theorem newLeader_valid {pipelining : Bool} {terms followerTerms : List ℕ}
    (ht : ∀ t ∈ terms, 0 < t) (hf : ∀ t ∈ followerTerms, 0 < t)
    (hm : Log.Matching (coreWith 1 pipelining followerTerms).log.entries
      (coreWith 0 pipelining terms).log.entries)
    (hmember : (coreWith 0 pipelining terms).effectiveConfig.isMember 1 = true) :
    (newLeader pipelining terms followerTerms).Valid where
  leading := rfl
  plain := coreWith_indexed ..
  positive := by
    intro e he
    obtain ⟨i, hi, rfl⟩ := List.mem_mapIdx.1 he
    exact ht _ (List.getElem_mem hi)
  followerPlain := coreWith_indexed ..
  followerPositive := by
    intro e he
    obtain ⟨i, hi, rfl⟩ := List.mem_mapIdx.1 he
    exact hf _ (List.getElem_mem hi)
  matching := hm
  member := hmember
  quiet idx _ := coreWith_quiet 0 pipelining terms idx

/-- A rejected request is followed by one that starts at the same place, and the repair does not
end. -/
def Stalls (x : Exchange) : Prop :=
  x.inFlight = none ∧ x.Valid ∧ x.Room 3 ∧ x.accepted = false ∧ x.round.next = x.next ∧
    ¬x.Repairs x.core.log.entries

theorem stalls_of_conflict (pipelining : Bool) : (newLeader pipelining [1, 3] [1, 2]).Stalls := by
  have hmatch : Log.Matching (coreWith 1 pipelining [1, 2]).log.entries
      (coreWith 0 pipelining [1, 3]).log.entries := by
    rintro (_ | _ | i) e e' he he' hterm
    · rfl
    · cases he
      cases he'
      cases hterm
    · cases he
  have hvalid : (newLeader pipelining [1, 3] [1, 2]).Valid :=
    newLeader_valid (by decide) (by decide) hmatch (by cases pipelining <;> decide)
  have hroom : (newLeader pipelining [1, 3] [1, 2]).Room 3 := by
    constructor <;> cases pipelining <;> decide
  refine ⟨rfl, hvalid, hroom, by cases pipelining <;> decide +kernel,
    by cases pipelining <;> decide +kernel, ?_⟩
  rw [repairs_iff_progress hvalid hroom rfl rfl (by cases pipelining <;> decide),
    Progress.reaches_iff (by cases pipelining <;> decide)]
  cases pipelining <;> decide

end Exchange

end Cloud9
