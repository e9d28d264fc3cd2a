import Cloud9.Raft.ClusterCalls
import Cloud9.Raft.Simulation

/-!
# Every run has a history

The simulation of `Cloud9.Raft.Simulation`, lifted from one action to a call of a node
(`Sim.trace`), from a call to a step of the cluster (`Tracks.step`), and from there to whole runs
(`Tracks.run`). Besides the history, a cluster in a run keeps its disks up to date: what a node
would be restored from is what it has in memory, because every call that changes the persistent
state asks to persist it.

Main results: `Setting.Tracks.run` and, for the first state of a run, `Setting.tracks_init`.
-/

namespace Cloud9

open World

theorem Leader.currentTermCommitIndex_erase (core : Core) :
    currentTermCommitIndex core.erase = currentTermCommitIndex core := by
  have hscan : ∀ n, currentTermIndexFrom core.erase n = currentTermIndexFrom core n := by
    intro n
    induction n with
    | zero => rfl
    | succ n ih => rw [currentTermIndexFrom, currentTermIndexFrom, ih]; rfl
  exact hscan core.commitIndex

namespace Setting

variable {P : Setting}

theorem Sim.subset {w : History} {views : NodeId → View} {sent sent' : List Message}
    (h : P.Sim w views sent) (hsub : sent' ⊆ sent) : P.Sim w views sent' :=
  ⟨h.inv, h.logs, h.nodes, fun m hm => h.msgs m (hsub hm)⟩

/-- A call of node `id`. The messages it can receive are those emitted before the call. -/
theorem Sim.trace {w : History} {views : NodeId → View} {sent : List Message}
    (h : P.Sim w views sent) {id : NodeId} {v' : View} {ms : List Message}
    (ht : Trace (Action (P.env sent)) (views id) v' ms) :
    ∃ w', w.Le w' ∧ P.Sim w' (Function.update views id v') (sent ++ ms) := by
  generalize hv : views id = v at ht
  induction ht with
  | refl =>
    refine ⟨w, Le.refl w, ?_⟩
    rw [← hv, Function.update_eq_self, List.append_nil]
    exact h
  | tail _ ha ih =>
    obtain ⟨w₁, hle₁, h₁⟩ := ih
    have hnode := h₁.nodes id
    rw [Function.update_self] at hnode
    obtain ⟨w', hn⟩ := next_of_action h₁.inv h₁.logs
      (fun m hm => h₁.msgs m (List.mem_append_left _ hm)) hnode ha
    refine ⟨w', hle₁.trans hn.frame.le, ?_⟩
    have := h₁.update hn
    rwa [Function.update_idem, List.append_assoc] at this
  | drop _ hsub ih =>
    obtain ⟨w', hle, h'⟩ := ih
    exact ⟨w', hle, h'.subset fun m hm => by
      rw [List.mem_append] at hm ⊢
      exact hm.imp_right (@hsub m)⟩

/-! ## Clusters -/

/-- The cluster agrees with the history, and the disks with the nodes. -/
structure Tracks (P : Setting) (w : History) (c : Cluster) : Prop where
  sim : P.Sim w (fun id => (c.nodes id).view) c.sent
  saved : ∀ id, c.saved id = (c.nodes id).persistent

/-- What the setting asks of an input. -/
def InputOk (P : Setting) (c : Cluster) : Input → Prop
  | .deliver msg => P.strong → (c.nodes msg.to).acceptsAppend msg = true →
      Follower.verified c.sent (c.nodes msg.to).core.log msg = true
  | .proposeConfigChange id change => ((c.nodes id).proposeConfigChange change).2.isOk = true →
      P.change ∧ (Leader.currentTermCommitIndex (c.nodes id).core).isSome = true
  | _ => True

theorem InputOk.env {c : Cluster} {input : Input} (h : P.InputOk c input) :
    (P.env c.sent).InputOk c input := by
  cases input with
  | deliver msg => exact fun hacc hs => h hs hacc
  | proposeConfigChange id change =>
    intro hacc
    obtain ⟨hchange, hcommitted⟩ := h hacc
    exact ⟨hchange, by rwa [Leader.currentTermCommitIndex_erase]⟩
  | _ => trivial

namespace Tracks

variable {w : History} {c : Cluster} (h : P.Tracks w c)
include h

theorem node (id : NodeId) : P.NodeRel w id (c.nodes id).view := h.sim.nodes id

theorem plain (id : NodeId) : (c.nodes id).core.log.Plain := (h.node id).plain

theorem sound : c.Sound where
  ids id := (h.node id).core_id
  plain := h.plain
  saved := h.saved
  noSnapshot m hm := by
    have hrel := h.sim.msgs m hm
    unfold MsgRel at hrel
    split at hrel <;> simp_all [Payload.isSnapshot]

/-- **A step of the cluster** continues the history. -/
theorem step {input : Input} {c' : Cluster} (hok : P.InputOk c input)
    (hstep : c.step input = some c') : ∃ w', w.Le w' ∧ P.Tracks w' c' := by
  obtain ⟨r, hr, rfl⟩ := Cluster.step_eq_some.1 hstep
  have hcall := Cluster.call_call h.sound rfl hok.env hr
  obtain ⟨w', hle, h'⟩ := h.sim.trace hcall.trace
  refine ⟨w', hle, ?_, Cluster.apply_saved h.saved hcall⟩
  rw [Cluster.apply_view]
  exact h'

/-- **Every run has a history.** -/
theorem run {ok : Cluster → Input → Bool} (hok : ∀ c input, ok c input = true → P.InputOk c input)
    {inputs : List Input} {c' : Cluster} (hrun : c.run ok inputs = some c') :
    ∃ w', w.Le w' ∧ P.Tracks w' c' :=
  runWhile_simulate Le.refl Le.trans (fun ht hi hs => ht.step (hok _ _ hi) hs) h hrun

end Tracks

/-! ## The first state -/

/-- The setting of a cluster started from one voter list. -/
def start (configs : NodeId → Config) (voters : List NodeId) (strong change : Prop)
    (hchange : change → strong ∧ ∀ id, (configs id).membershipMode = .singleServer) : Setting where
  boot := Configuration.simpleOf voters
  config := fun id => { configs id with id := id }
  strong := strong
  change := change
  config_id := fun _ => rfl
  boot_simple := rfl
  strong_of_change := fun h => (hchange h).1
  single_of_change := fun h => (hchange h).2

theorem tracks_init (configs : NodeId → Config) (voters : List NodeId) (strong change : Prop)
    (hchange : change → strong ∧ ∀ id, (configs id).membershipMode = .singleServer) :
    (start configs voters strong change hchange).Tracks World.init
      (Cluster.init configs voters) where
  sim := {
    inv := inv_init _
    logs := ⟨fun _ => Log.plain_empty.indexed, fun he => by cases he⟩
    nodes := fun id => ⟨rfl, rfl, Log.plain_empty, rfl, rfl, rfl, trivial, fun _ => .inl rfl⟩
    msgs := fun m hm => by cases hm }
  saved := fun _ => rfl

end Setting

end Cloud9
