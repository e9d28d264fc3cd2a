import Cloud9.Raft.AppendLoop
import Cloud9.Raft.NodeCalls

/-!
# Every step of a cluster is a call

A step of the cluster is a call of one node, and so a sequence of actions (`Cluster.call_call`), as
long as logs are contiguous and free of snapshots and the disks are up to date (`Cluster.Sound`).
That this is so in every run, whatever the membership does, is the first invariant proved with it:
every request carries consecutive entries, so accepted entries always continue a log
(`Cluster.shaped_run`).
-/

namespace Cloud9

/-! ## Steps -/

/-- What a step relies on. -/
structure Cluster.Sound (c : Cluster) : Prop where
  ids : ∀ id, (c.nodes id).core.id = id
  plain : ∀ id, (c.nodes id).core.log.Plain
  saved : ∀ id, c.saved id = (c.nodes id).persistent
  noSnapshot : ∀ m ∈ c.sent, m.payload.isSnapshot = false

/-- What the environment asks of an input. -/
def Env.InputOk (env : Env) (c : Cluster) : Input → Prop
  | .deliver msg => (c.nodes msg.to).acceptsAppend msg = true →
      env.acceptOk (c.nodes msg.to).core.log msg
  | .proposeConfigChange id change => ((c.nodes id).proposeConfigChange change).2.isOk = true →
      env.changeOk (c.nodes id).core.erase
  | _ => True

namespace Cluster

variable {c c' : Cluster}

theorem apply_view (id : NodeId) (r : RaftNode × Effects) :
    (fun j => ((c.apply id r).nodes j).view) =
      Function.update (fun j => (c.nodes j).view) id r.1.view := by
  funext j
  simp only [apply]
  rcases eq_or_ne j id with rfl | hj
  · simp only [Function.update_self]
  · simp only [Function.update_of_ne hj]

/-- A call leaves the disks up to date. -/
theorem apply_saved (hsaved : ∀ id, c.saved id = (c.nodes id).persistent) {env : Env} {id : NodeId}
    {r : RaftNode × Effects} (hcall : Call env (c.nodes id).view r.1.view r.2) (j : NodeId) :
    (c.apply id r).saved j = ((c.apply id r).nodes j).persistent := by
  simp only [apply]
  rcases eq_or_ne j id with rfl | hj
  · rw [Function.update_self]
    split_ifs with hp
    · rw [Function.update_self]
    · rw [hsaved j]
      exact (hcall.persist (Bool.eq_false_iff.2 hp)).symm
  · rw [Function.update_of_ne hj]
    split_ifs
    · rw [Function.update_of_ne hj, hsaved j]
    · exact hsaved j

/-- **What an input makes a node do is a call**: a sequence of actions. -/
theorem call_call (h : c.Sound) {env : Env} (hsent : env.sent = c.sent) {input : Input}
    (hok : env.InputOk c input) {r : RaftNode × Effects} (hr : c.call input = some r) :
    Call env (c.nodes input.node).view r.1.view r.2 := by
  cases input with
  | tick id =>
    cases hr
    have hev : RaftNode.EventOk env (c.nodes id) .tick := ⟨nofun, nofun⟩
    exact (c.nodes id).stepEvent_call (h.plain id) hev
  | deliver msg =>
    simp only [call] at hr
    split_ifs at hr with hmem
    cases hr
    have hev : RaftNode.EventOk env (c.nodes msg.to) (.message msg) := by
      refine ⟨fun m hm => ?_, nofun⟩
      cases hm
      exact ⟨hsent ▸ hmem, (h.ids msg.to).symm, h.noSnapshot msg hmem, hok⟩
    exact (c.nodes msg.to).stepEvent_call (h.plain msg.to) hev
  | diskWriteComplete id index =>
    simp only [call] at hr
    split_ifs at hr with hidx
    cases hr
    rw [h.saved id] at hidx
    have hev : RaftNode.EventOk env (c.nodes id) (.diskWriteComplete index) :=
      ⟨nofun, fun i hi => by cases hi; exact hidx⟩
    exact (c.nodes id).stepEvent_call (h.plain id) hev
  | propose id cmd =>
    obtain ⟨⟨n, res⟩, hres, rfl⟩ := Option.map_eq_some_iff.1 hr
    exact RaftNode.propose_call (h.plain id).snapshotIndex hres
  | proposeConfigChange id change =>
    cases hr
    exact RaftNode.proposeConfigChange_call rfl (h.plain id).snapshotIndex hok
  | requestReadIndex id =>
    cases hr
    exact (c.nodes id).requestReadIndex_call
  | transferLeadership id target =>
    simp only [call] at hr
    split at hr
    · next effects heff =>
      cases hr
      exact RaftNode.transferLeadership_call heff
    · cases hr
      exact .refl _
  | advance id appliedTo =>
    cases hr
    exact .refl _
  | restart id =>
    cases hr
    rw [h.saved id]
    exact (c.nodes id).restore_call

theorem step_eq_some {input : Input} :
    c.step input = some c' ↔ ∃ r, c.call input = some r ∧ c.apply input.node r = c' :=
  Option.map_eq_some_iff

end Cluster

/-! ## Contiguous logs -/

/-- Entries with positive terms and the indices `p + 1`, `p + 2`, ... -/
def Log.Consecutive (p : ℕ) (es : List Entry) : Prop :=
  ∀ i e, es[i]? = some e → e.index = p + 1 + i ∧ 0 < e.term

namespace Follower

open Log

/-- One turn of the append loop on an entry that continues the log, or lies within it. -/
theorem appendEntry_shape {g : Log} (hg : g.Plain) (hpos : PositiveTerms g.entries) {p : ℕ}
    {e : Entry} (hidx : e.index = p + 1) (hterm : 0 < e.term) (hp : p ≤ g.entries.length)
    (flag : Bool) : (appendEntry (g, flag) e).1.Plain ∧
      PositiveTerms (appendEntry (g, flag) e).1.entries ∧
      p + 1 ≤ (appendEntry (g, flag) e).1.entries.length := by
  have happend : ∀ {l : Log}, l.Plain → PositiveTerms l.entries → l.entries.length = p →
      (l.append e).Plain ∧ PositiveTerms (l.append e).entries ∧
        p + 1 ≤ (l.append e).entries.length := by
    intro l hl hlpos hlen
    refine ⟨hl.append (by omega), fun e' he' => ?_, by simp [Log.append, hlen]⟩
    rcases List.mem_append.1 he' with he' | he'
    · exact hlpos e' he'
    · rw [List.mem_singleton.1 he']
      exact hterm
  unfold appendEntry
  simp only [hidx, Nat.add_sub_cancel]
  split
  · have hcut : (g.truncateAfter p).Plain ∧ PositiveTerms (g.truncateAfter p).entries ∧
        (g.truncateAfter p).entries.length = p := by
      rw [hg.truncateAfter]
      exact ⟨hg.withEntries (hg.indexed.take p), hpos.of_isPrefix <| List.take_prefix p _,
        by simp [hp]⟩
    rw [if_pos (by rw [hcut.1.lastIndex]; omega)]
    exact happend hcut.1 hcut.2.1 hcut.2.2
  · split_ifs with hend
    · rw [hg.lastIndex] at hend
      exact happend hg hpos (by omega)
    · rw [hg.lastIndex] at hend
      exact ⟨hg, hpos, Nat.le_of_not_lt hend⟩

theorem foldl_appendEntry_shape (es : List Entry) : ∀ {g : Log} (flag : Bool) {p : ℕ}, g.Plain →
    PositiveTerms g.entries → p ≤ g.entries.length → Consecutive p es →
    (es.foldl appendEntry (g, flag)).1.Plain ∧
      PositiveTerms (es.foldl appendEntry (g, flag)).1.entries := by
  induction es with
  | nil => exact fun _ _ hg hpos _ _ => ⟨hg, hpos⟩
  | cons e es ih =>
    intro g flag p hg hpos hp hes
    obtain ⟨hidx, hterm⟩ := hes 0 e rfl
    obtain ⟨hg', hpos', hp'⟩ := appendEntry_shape hg hpos hidx hterm hp flag
    refine ih _ hg' hpos' hp' fun i e' he' => ?_
    obtain ⟨hidx', hterm'⟩ := hes (i + 1) e' he'
    exact ⟨by omega, hterm'⟩

end Follower

/-- The node keeps its identity, its log is contiguous, and it acts only in positive terms. -/
structure View.Shaped (id : NodeId) (v : View) : Prop where
  id : v.core.id = id
  plain : v.core.log.Plain
  positive : Log.PositiveTerms v.core.log.entries
  term : v.role ≠ .passive → 0 < v.core.term

/-- An append request continues with consecutive entries, and no message is about snapshots. -/
def Message.Shaped (m : Message) : Prop :=
  match m.payload with
  | .appendRequest req => Log.Consecutive req.prevLogIndex req.entries ∧
      (req.entries ≠ [] → 0 < req.prevLogIndex → 0 < req.prevLogTerm)
  | .installSnapshotRequest _ | .installSnapshotResponse _ => False
  | _ => True

theorem Message.Shaped.of_noise {m : Message} (h : m.payload.isNoise = true) : m.Shaped := by
  unfold Message.Shaped
  cases hp : m.payload with
  | appendRequest req => rw [hp] at h; cases h
  | installSnapshotRequest req => rw [hp] at h; cases h
  | installSnapshotResponse req => rw [hp] at h; cases h
  | _ => trivial

namespace View.Shaped

variable {id : NodeId}

theorem send {core : Core} {mi : NodeId → ℕ} (h : View.Shaped id ⟨core, .leader mi⟩) (peer : NodeId)
    {next : ℕ} (stop : ℕ) (hnext : 0 < next) : Message.Shaped (core.message peer (.appendRequest
      ⟨next - 1, core.log.termAt (next - 1), core.log.slice next stop, core.commitIndex⟩)) := by
  have hplain : core.log.Plain := h.plain
  have hpos : Log.PositiveTerms core.log.entries := h.positive
  have hslice := hplain.slice hnext stop
  refine ⟨fun i e he => ?_, fun hne (h0 : 0 < next - 1) => ?_⟩
  · rw [hslice, List.getElem?_drop] at he
    have hpre := List.take_prefix stop core.log.entries
    have he' := hpre.getElem?_eq_some he
    refine ⟨?_, hpos e (List.mem_of_getElem? he')⟩
    rw [hplain.indexed.index_eq he']
    exact Nat.add_right_comm _ _ _
  · have hlen : next - 1 < core.log.entries.length := by
      by_contra hge
      refine hne (hslice.trans (List.drop_eq_nil_of_le ?_))
      rw [List.length_take]
      omega
    refine Nat.pos_of_ne_zero fun (hzero : core.log.termAt (next - 1) = 0) => ?_
    rw [hplain.termAt, Log.entryTerm_eq_zero_iff hpos] at hzero
    omega

theorem candidate_pos {core : Core} {votes : OrdSet NodeId}
    (h : View.Shaped id ⟨core, .candidate votes⟩) : 0 < core.term :=
  h.term fun hr => by cases hr

theorem leader_pos {core : Core} {mi : NodeId → ℕ} (h : View.Shaped id ⟨core, .leader mi⟩) :
    0 < core.term :=
  h.term fun hr => by cases hr

theorem append {core : Core} {mi : NodeId → ℕ} (h : View.Shaped id ⟨core, .leader mi⟩)
    (payload : EntryPayload) : View.Shaped id ⟨Leader.appendEntry core payload, .leader mi⟩ where
  id := h.id
  plain := h.plain.append (by rw [← h.plain.lastIndex])
  positive e he := by
    rcases List.mem_append.1 he with he | he
    · exact h.positive e he
    · rw [List.mem_singleton.1 he]
      exact h.leader_pos
  term _ := h.leader_pos

theorem accept {core : Core} (h : View.Shaped id ⟨core, .passive⟩) {sender target : NodeId}
    {term : ℕ} {req : AppendRequest}
    (hmsg : Message.Shaped ⟨sender, target, term, .appendRequest req⟩)
    (hprev : Follower.prevMatches core req = true) :
    View.Shaped id ⟨Follower.acceptAppend core req, .passive⟩ := by
  obtain ⟨hes, hterm⟩ := hmsg
  have hplain : core.log.Plain := h.plain
  have hpositive : Log.PositiveTerms core.log.entries := h.positive
  have hshape : (Follower.appendEntries core.log req.entries).1.Plain ∧
      Log.PositiveTerms (Follower.appendEntries core.log req.entries).1.entries := by
    rcases eq_or_ne req.entries [] with hnil | hne
    · rw [hnil]
      exact ⟨h.plain, h.positive⟩
    · refine Follower.foldl_appendEntry_shape req.entries false hplain hpositive ?_ hes
      -- The consistency check found an entry before the first one of the request.
      rcases Nat.eq_zero_or_pos req.prevLogIndex with h0 | hpos
      · omega
      · have heq : core.log.termAt req.prevLogIndex = req.prevLogTerm := by
          simpa [Follower.prevMatches, hpos] using hprev
        have hlt := hterm hne hpos
        rw [← heq, hplain.termAt] at hlt
        by_contra hgt
        exact Nat.pos_iff_ne_zero.1 hlt ((Log.entryTerm_eq_zero_iff hpositive).2 (.inr (by omega)))
  refine ⟨?_, ?_, ?_, fun hr => absurd rfl hr⟩
  · rw [Core.id, Follower.acceptAppend_config]
    exact h.id
  · rw [Follower.acceptAppend_log]
    exact hshape.1
  · rw [Follower.acceptAppend_log]
    exact hshape.2

/-- **Actions keep logs contiguous.** -/
theorem action {env : Env} (hsent : ∀ m ∈ env.sent, m.Shaped) {v v' : View} {ms : List Message}
    (h : v.Shaped id) (ha : Action env v v' ms) : v'.Shaped id ∧ ∀ m ∈ ms, m.Shaped := by
  cases ha with
  | noise _ _ hnoise => exact ⟨h, fun m hm => .of_noise (hnoise m hm)⟩
  | demote => exact ⟨⟨h.id, h.plain, h.positive, fun hr => absurd rfl hr⟩, by simp⟩
  | adopt _ T hT =>
    refine ⟨⟨?_, ?_, ?_, fun hr => absurd rfl hr⟩, by simp⟩ <;>
      simp only [Core.maybeUpdateTerm, if_pos (show T > v.core.persistent.term from hT)]
    · exact h.id
    · exact h.plain
    · exact h.positive
  | campaign _ votes _ hvotes hms =>
    refine ⟨⟨h.id, h.plain, h.positive, fun _ => Nat.succ_pos _⟩, fun m hm => ?_⟩
    obtain ⟨peer, rfl⟩ := hms m hm
    trivial
  | grant core candidate req hmem hcan hlog =>
    refine ⟨⟨h.id, h.plain, h.positive, fun hr => absurd rfl hr⟩, fun m hm => ?_⟩
    rw [List.mem_singleton.1 hm]
    trivial
  | count core votes voter hmem =>
    exact ⟨⟨h.id, h.plain, h.positive, fun _ => h.candidate_pos⟩, by simp⟩
  | win core votes hq => exact ⟨⟨h.id, h.plain, h.positive, fun _ => h.candidate_pos⟩, by simp⟩
  | send core mi peer next stop hnext =>
    refine ⟨h, fun m hm => ?_⟩
    rw [List.mem_singleton.1 hm]
    exact h.send peer stop hnext
  | accept core sender req hmem hok hprev =>
    refine ⟨h.accept (hsent _ hmem) hprev, fun m hm => ?_⟩
    rw [List.mem_singleton.1 hm]
    trivial
  | appendCommand core mi cmd => exact ⟨h.append _, by simp⟩
  | appendChange core mi change hok hvalid hpending => exact ⟨h.append _, by simp⟩
  | appendTarget core mi idx e cfg target hidx hget hcfg htarget => exact ⟨h.append _, by simp⟩
  | ack core mi peer index hmem =>
    exact ⟨⟨h.id, h.plain, h.positive, fun _ => h.leader_pos⟩, by simp⟩
  | disk core mi index hidx =>
    exact ⟨⟨h.id, h.plain, h.positive, fun _ => h.leader_pos⟩, by simp⟩
  | commit core mi index hlt hle hterm hq =>
    exact ⟨⟨h.id, h.plain, h.positive, fun _ => h.leader_pos⟩, by simp⟩
  | restart => exact ⟨⟨h.id, h.plain, h.positive, fun hr => absurd rfl hr⟩, by simp⟩

end View.Shaped

/-! ## Runs -/

/-- All logs are contiguous, and all disks are up to date. -/
structure Cluster.Shaped (c : Cluster) : Prop where
  nodes : ∀ id, (c.nodes id).view.Shaped id
  saved : ∀ id, c.saved id = (c.nodes id).persistent
  msgs : ∀ m ∈ c.sent, m.Shaped

namespace Cluster

variable {c c' : Cluster}

theorem Shaped.sound (h : c.Shaped) : c.Sound where
  ids id := (h.nodes id).id
  plain id := (h.nodes id).plain
  saved := h.saved
  noSnapshot m hm := by
    have := h.msgs m hm
    unfold Message.Shaped at this
    split at this <;> simp_all [Payload.isSnapshot]

theorem Shaped.step (h : c.Shaped) {input : Input} (hstep : c.step input = some c') :
    c'.Shaped := by
  have hok : Env.InputOk ⟨c.sent, fun _ _ => True, fun _ => True⟩ c input := by
    cases input with
    | deliver msg => exact fun _ => trivial
    | proposeConfigChange id change => exact fun _ => trivial
    | _ => trivial
  obtain ⟨r, hr, rfl⟩ := step_eq_some.1 hstep
  have hcall := call_call h.sound rfl hok hr
  obtain ⟨hnode, hms⟩ := hcall.trace.invariant (fun hv ha => hv.action h.msgs ha)
    (h.nodes input.node)
  refine ⟨fun j => ?_, apply_saved h.saved hcall, fun m hm => ?_⟩
  · rw [show ((c.apply input.node r).nodes j).view = _ from congrFun (apply_view input.node r) j]
    rcases eq_or_ne j input.node with rfl | hj
    · rw [Function.update_self]
      exact hnode
    · rw [Function.update_of_ne hj]
      exact h.nodes j
  · exact (List.mem_append.1 hm).elim (h.msgs m) (hms m)

theorem shaped_init (configs : NodeId → Config) (voters : List NodeId) :
    (init configs voters).Shaped where
  nodes id := ⟨rfl, Log.plain_empty, nofun, fun hr => absurd rfl hr⟩
  saved _ := rfl
  msgs _ hm := by cases hm

/-- **In every run** logs are contiguous and free of snapshots, and the disks up to date. -/
theorem shaped_run {configs : NodeId → Config} {voters : List NodeId}
    {ok : Cluster → Input → Bool} {inputs : List Input}
    (h : (init configs voters).run ok inputs = some c) : c.Shaped :=
  runWhile_invariant (fun hs _ hstep => hs.step hstep) (shaped_init configs voters) h

end Cluster

end Cloud9
