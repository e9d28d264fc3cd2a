import Cloud9.Lib.Completeness
import Cloud9.Raft.Action
import Cloud9.Raft.AppendLoop

/-!
# The cluster and its history

`World` (in `Cloud9.Lib.Replication`) is the history of a replicated log without messages. Here
it is tied to the nodes of this repository: `raftSystem` counts quorums in the latest
configuration of a log, `NodeRel` says what a node's state records of the history, `MsgRel` what
an emitted message promises about it, and `Sim` collects both.

A `Setting` fixes what is common to a family of runs. Elections and log matching need nothing of
the appends. What a follower acknowledges is only meaningful in a *strong* setting, where every
accepted append request is verified (`Follower.verified`); configuration changes are only covered
in a strong setting.

One action of one node changes the history only at that node (`Frame`), so the relation has to be
checked again only for the node that acts and for the messages it emits (`Sim.update`).
-/

namespace Cloud9

open World

/-! ## Quorums -/

/-- The configuration a log puts in effect. -/
def configOf (boot : Configuration) (l : List Entry) : Configuration :=
  (Log.lastConfig l).getD boot

/-- Quorums are counted in the latest configuration of the log. -/
def raftSystem (boot : Configuration) : LogSystem NodeId Entry where
  term := Entry.term
  isConfig e := e.payload.isConfig = true
  quorum l Q := ∃ f : NodeId → Bool, (configOf boot l).hasQuorum f = true ∧
    ∀ id, f id = true → id ∈ Q
  meet := by
    rintro l Q Q' ⟨f, hf, hQ⟩ ⟨g, hg, hQ'⟩
    obtain ⟨id, -, hfid, hgid⟩ := Configuration.hasQuorum_inter hf hg
    exact ⟨id, hQ id hfid, hQ' id hgid⟩
  quorum_concat := by
    intro l e Q he
    have hcfg : configOf boot (l ++ [e]) = configOf boot l := by
      rw [configOf, Log.lastConfig_concat]
      cases hp : e.payload with
      | command cmd => rfl
      | config cfg => exact absurd (by rw [hp]; rfl) he
    rw [hcfg]

theorem lastTerm_eq (boot : Configuration) (l : List Entry) :
    lastTerm (raftSystem boot) l = Log.entryTerm l l.length := by
  unfold lastTerm
  rcases hn : l.length with _ | n
  · rw [List.length_eq_zero_iff.1 hn]
    rfl
  · rw [Log.entryTerm_succ, List.getLast?_eq_getElem?, hn]
    rfl

/-! ## Settings -/

abbrev History := World NodeId Entry

/-- What the runs of a family have in common. -/
structure Setting where
  boot : Configuration
  config : NodeId → Config
  /-- Accepted append requests are verified. -/
  strong : Prop
  /-- Configuration changes are accepted. -/
  change : Prop
  config_id : ∀ id, (config id).id = id
  boot_simple : boot.transitionTarget = none
  strong_of_change : change → strong
  single_of_change : change → ∀ id, (config id).membershipMode = .singleServer

namespace Setting

/-- What the environment allows in the setting: a configuration change is accepted only by a
leader that has committed an entry of its term. -/
def env (P : Setting) (sent : List Message) : Env where
  sent := sent
  acceptOk log msg := P.strong → Follower.verified sent log msg = true
  changeOk core := P.change ∧ (Leader.currentTermCommitIndex core).isSome = true

def system (P : Setting) : LogSystem NodeId Entry := raftSystem P.boot

@[simp] theorem system_term (P : Setting) (e : Entry) : P.system.term e = e.term := rfl

/-! ## The relation -/

/-- What a role records of the history. -/
def RoleRel (P : Setting) (w : History) (id : NodeId) (commitIndex : ℕ) : RoleView → Prop
  | .passive => True
  | .candidate votes => w.cand id (w.cur id) = some (w.log id) ∧ w.leader (w.cur id) ≠ some id ∧
      ∀ voter ∈ votes, w.vote voter (w.cur id) = some id
  | .leader mi => w.leader (w.cur id) = some id ∧ (P.strong →
      (∀ voter, mi voter ≤ w.ack voter (w.cur id)) ∧
      (commitIndex ≤ (w.base (w.cur id)).length ∨
        ∃ m, w.Chosen P.system (w.cur id) commitIndex m))

/-- What a node records of the history. -/
structure NodeRel (P : Setting) (w : History) (id : NodeId) (v : View) : Prop where
  config : v.core.config = P.config id
  boot : v.core.persistent.bootstrapConfig = P.boot
  plain : v.core.log.Plain
  term : v.core.term = w.cur id
  log : v.core.log.entries = w.log id
  vote : v.core.persistent.votedFor = w.vote id (w.cur id)
  role : P.RoleRel w id v.core.commitIndex v.role
  commit : P.strong → Covered P.system w (w.cur id) (w.log id) v.core.commitIndex

/-- What a message promises. -/
def MsgRel (P : Setting) (w : History) (m : Message) : Prop :=
  match m.payload with
  | .voteRequest req => ∃ B, w.cand m.from m.term = some B ∧ req.lastLogIndex = B.length ∧
      req.lastLogTerm = lastTerm P.system B
  | .voteResponse resp => resp.granted = true → w.vote m.from m.term = some m.to
  | .appendRequest req => w.leader m.term = some m.from ∧ Follower.Window (w.tlog m.term) req ∧
      (P.strong → Covered P.system w m.term (w.tlog m.term) req.leaderCommit)
  | .appendResponse resp => resp.success = true → P.strong →
      resp.lastLogIndex ≤ w.ack m.from m.term
  | .installSnapshotRequest _ | .installSnapshotResponse _ => False
  | _ => True

/-- Leaders' logs carry their positions, no joint configuration, and no configuration at all where
the setting has no changes of membership. -/
structure LogsOk (P : Setting) (w : History) : Prop where
  indexed : ∀ T, Log.Indexed (w.tlog T)
  simple : ∀ {T e cfg}, e ∈ w.tlog T → e.payload = .config cfg →
    cfg.transitionTarget = none ∧ P.change

/-- The history is a valid one, and nodes and messages agree with it. -/
structure Sim (P : Setting) (w : History) (views : NodeId → View) (sent : List Message) :
    Prop where
  inv : w.Inv P.system
  logs : LogsOk P w
  nodes : ∀ id, P.NodeRel w id (views id)
  msgs : ∀ m ∈ sent, P.MsgRel w m

theorem MsgRel.of_noise {P : Setting} {w : History} {m : Message}
    (h : m.payload.isNoise = true) : P.MsgRel w m := by
  unfold MsgRel
  cases hp : m.payload with
  | voteResponse resp => simp_all [Payload.isNoise]
  | appendResponse resp => simp_all [Payload.isNoise]
  | voteRequest req => simp_all [Payload.isNoise]
  | appendRequest req => simp_all [Payload.isNoise]
  | installSnapshotRequest req => simp_all [Payload.isNoise]
  | installSnapshotResponse req => simp_all [Payload.isNoise]
  | _ => trivial

/-! ## Frame -/

/-- The history goes on at node `id` only. -/
structure Frame (w w' : History) (id : NodeId) : Prop where
  le : w.Le w'
  cur : ∀ j, j ≠ id → w'.cur j = w.cur j
  log : ∀ j, j ≠ id → w'.log j = w.log j
  vote : ∀ j, j ≠ id → w'.vote j = w.vote j
  leader : ∀ j T, j ≠ id → w'.leader T = some j → w.leader T = some j

theorem Frame.refl (w : History) (id : NodeId) : Frame w w id :=
  ⟨Le.refl w, fun _ _ => rfl, fun _ _ => rfl, fun _ _ => rfl, fun _ _ _ h => h⟩

theorem Frame.trans {w w' w'' : History} {id : NodeId} (h : Frame w w' id) (h' : Frame w' w'' id) :
    Frame w w'' id where
  le := h.le.trans h'.le
  cur j hj := (h'.cur j hj).trans (h.cur j hj)
  log j hj := (h'.log j hj).trans (h.log j hj)
  vote j hj := (h'.vote j hj).trans (h.vote j hj)
  leader j T hj hl := h.leader j T hj (h'.leader j T hj hl)

section

variable {P : Setting} {w w' : History}

theorem RoleRel.mono {id j : NodeId} (hf : Frame w w' id) (hinv : w.Inv P.system) (hj : j ≠ id)
    {commitIndex : ℕ} {role : RoleView} (h : P.RoleRel w j commitIndex role) :
    P.RoleRel w' j commitIndex role := by
  cases role with
  | passive => trivial
  | candidate votes =>
    obtain ⟨hcand, hlead, hvotes⟩ := h
    simp only [RoleRel, hf.cur j hj, hf.log j hj]
    exact ⟨hf.le.cand hcand, fun hl => hlead (hf.leader j _ hj hl),
      fun voter hv => hf.le.vote (hvotes voter hv)⟩
  | leader mi =>
    obtain ⟨hlead, hstrong⟩ := h
    simp only [RoleRel, hf.cur j hj]
    refine ⟨hf.le.leader hlead, fun hs => ⟨fun voter => ?_, ?_⟩⟩
    · exact ((hstrong hs).1 voter).trans (hf.le.ack voter _)
    · rw [hf.le.base (by rw [hlead]; exact Option.some_ne_none j)]
      exact (hstrong hs).2.imp_right fun ⟨m, hm⟩ => ⟨m, hm.mono hinv hf.le⟩

theorem NodeRel.mono {id j : NodeId} (hf : Frame w w' id) (hinv : w.Inv P.system) (hj : j ≠ id)
    {v : View} (h : P.NodeRel w j v) : P.NodeRel w' j v where
  config := h.config
  boot := h.boot
  plain := h.plain
  term := h.term.trans (hf.cur j hj).symm
  log := h.log.trans (hf.log j hj).symm
  vote := by rw [hf.vote j hj, hf.cur j hj]; exact h.vote
  role := h.role.mono hf hinv hj
  commit hs := by
    rw [hf.cur j hj, hf.log j hj]
    exact (h.commit hs).mono hinv hf.le le_rfl List.prefix_rfl

theorem MsgRel.mono (hle : w.Le w') (hinv : w.Inv P.system) {m : Message} (h : P.MsgRel w m) :
    P.MsgRel w' m := by
  unfold MsgRel at h ⊢
  split at h
  · obtain ⟨B, hB, hreq⟩ := h
    exact ⟨B, hle.cand hB, hreq⟩
  · exact fun hg => hle.vote (h hg)
  · obtain ⟨hlead, hwin, hcov⟩ := h
    exact ⟨hle.leader hlead, hwin.mono (hle.tlog _),
      fun hs => (hcov hs).mono hinv hle le_rfl (hle.tlog _)⟩
  · exact fun hsucc hs => (h hsucc hs).trans (hle.ack _ _)
  · exact h
  · exact h
  · trivial

/-- What is left to check when node `id` acts: the history goes on at this node only, and the new
state of the node and the messages it emits agree with it. -/
structure Next (P : Setting) (w w' : History) (id : NodeId) (v' : View) (ms : List Message) :
    Prop where
  frame : Frame w w' id
  inv : w'.Inv P.system
  logs : LogsOk P w'
  node : P.NodeRel w' id v'
  msgs : ∀ m ∈ ms, P.MsgRel w' m

theorem Sim.update {views : NodeId → View} {sent : List Message} (h : P.Sim w views sent)
    {id : NodeId} {v' : View} {ms : List Message} (hn : P.Next w w' id v' ms) :
    P.Sim w' (Function.update views id v') (sent ++ ms) where
  inv := hn.inv
  logs := hn.logs
  nodes j := by
    rcases eq_or_ne j id with rfl | hj
    · rw [Function.update_self]
      exact hn.node
    · rw [Function.update_of_ne hj]
      exact (h.nodes j).mono hn.frame h.inv hj
  msgs m hm := by
    rcases List.mem_append.1 hm with hm | hm
    · exact (h.msgs m hm).mono hn.frame.le h.inv
    · exact hn.msgs m hm

end

end Setting

end Cloud9
