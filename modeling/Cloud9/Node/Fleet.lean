import Cloud9.Node.Waiters
import Cloud9.Raft.Orderly
import Cloud9.Raft.Safety

/-!
# A cluster of runtimes

The runtimes of one deployment and the messages they have handed out. A message can be delivered at
any later step, any number of times or never. A process that restarts finds on its disk the
persistent state it had in memory; that a store recovers what was saved is `store_recovers`. So a
process whose save has failed, and left less on the disk than the node has in memory, stays down
(`Fleet.possible`).

Such a cluster refines the cluster of nodes of `Cloud9.Raft.Cluster` (`Fleet.Refines`): every call
is a call of the node followed by some applying, and hands out no other messages. A runtime whose
save fails hands out none.
-/

namespace Cloud9

open World

/-- What the configurations of the nodes have in common, and the consensus parameters of each. -/
structure Deployment where
  peers : OrdSet NodeId
  addr : NodeId → SocketAddr
  consensus : NodeId → Config

namespace Deployment

def config (D : Deployment) (id : NodeId) : NodeConfig where
  nodeId := id
  consensus := { D.consensus id with id := id }
  raftAddr := D.addr id
  peers := D.peers
  peerAddr := D.addr

/-- The configuration every node is started with. -/
def boot (D : Deployment) : Configuration := .simpleOf D.peers.toList

/-- A process on an empty directory. -/
def process (D : Deployment) (id : NodeId) : Runtime :=
  Runtime.start (D.config id)
    ⟨⟨Dir.empty.set 0 File.empty, {}, 0, 0, 0, false⟩, raftStateKind,
      Core.initialPersistent D.peers.toList⟩

theorem open_process (D : Deployment) (f : Formats) {id : NodeId}
    (hvalid : validateConfig (D.config id) = .ok ()) :
    ∃ d, Runtime.open f (D.config id) Dir.empty = (d, .ok (D.process id)) := by
  unfold Runtime.open
  rw [hvalid]
  exact ⟨_, rfl⟩

end Deployment

/-- A proposal was told the result of an entry. -/
structure Ack where
  entry : CommittedEntry
  result : KvApplyResult
  deriving DecidableEq

structure Fleet where
  nodes : NodeId → Journal
  sent : List Message
  acks : List Ack

def Applied.ack (a : Applied) : Option Ack :=
  match a.answer with
  | some (_, .ok result) => some ⟨a.entry, result⟩
  | _ => none

namespace Fleet

def init (D : Deployment) : Fleet where
  nodes := fun id => Journal.start (D.process id)
  sent := []
  acks := []

/-- A message must have been handed out, and a restart must recover what the node holds in memory: a
process whose failed save has left less than that is not started again. -/
def possible (f : Formats) (fl : Fleet) (id : NodeId) : RuntimeInput → Bool
  | .receive message _ => decide (message ∈ fl.sent)
  | .restart d =>
    match Runtime.open f (fl.nodes id).runtime.config d with
    | (_, .ok r) => decide (r.store.durable = (fl.nodes id).runtime.node.persistent)
    | (_, .error _) => false
  | _ => true

def next (fl : Fleet) (id : NodeId) (j : Journal) (report : Report) : Fleet where
  nodes := Function.update fl.nodes id j
  sent := fl.sent ++ report.handed.map Handover.message
  acks := fl.acks ++ report.applied.filterMap Applied.ack

/-- One input of one runtime. -/
def step (f : Formats) (fl : Fleet) (act : NodeId × RuntimeInput) : Option Fleet :=
  if fl.possible f act.1 act.2 then
    ((fl.nodes act.1).call f act.2).map fun (r, report) =>
      fl.next act.1 ((fl.nodes act.1).next act.2 r report) report
  else none

def run (f : Formats) (ok : Fleet → NodeId × RuntimeInput → Bool) (fl : Fleet)
    (acts : List (NodeId × RuntimeInput)) : Option Fleet :=
  runWhile (step f) ok fl acts

end Fleet

/-! ## Refinement -/

/-- Put another node in the place of one. -/
def Cluster.withNode (c : Cluster) (id : NodeId) (n : RaftNode) : Cluster :=
  { c with nodes := Function.update c.nodes id n }

@[simp] theorem Cluster.withNode_self (c : Cluster) (id : NodeId) (n : RaftNode) :
    (c.withNode id n).nodes id = n := Function.update_self ..

theorem Cluster.withNode_of_ne (c : Cluster) {id other : NodeId} (n : RaftNode) (h : other ≠ id) :
    (c.withNode id n).nodes other = c.nodes other := Function.update_of_ne h ..

/-- The protocol does not see what has been applied. -/
theorem Setting.Tracks.advance {P : Setting} {w : History} {c : Cluster} (h : P.Tracks w c)
    (id : NodeId) (k : ℕ) : P.Tracks w (c.withNode id ((c.nodes id).advance k)) := by
  have hsame : ∀ other, ((c.withNode id ((c.nodes id).advance k)).nodes other).view =
      (c.nodes other).view ∧ ((c.withNode id ((c.nodes id).advance k)).nodes other).persistent =
        (c.nodes other).persistent := by
    intro other
    rcases eq_or_ne other id with rfl | hne
    · rw [Cluster.withNode_self]
      exact ⟨rfl, rfl⟩
    · rw [Cluster.withNode_of_ne c _ hne]
      exact ⟨rfl, rfl⟩
  refine ⟨?_, fun other => (h.saved other).trans (hsame other).2.symm⟩
  rw [show (fun other => ((c.withNode id ((c.nodes id).advance k)).nodes other).view) =
    fun other => (c.nodes other).view from funext fun other => (hsame other).1]
  exact h.sim

/-- The runtimes drive the nodes of the cluster, and have handed out nothing but its messages. -/
structure Fleet.Refines (D : Deployment) (fl : Fleet) (c : Cluster) : Prop where
  config : ∀ id, (fl.nodes id).runtime.config = D.config id
  node : ∀ id, (fl.nodes id).runtime.node = c.nodes id
  sent : fl.sent ⊆ c.sent

namespace Fleet

variable {D : Deployment} {f : Formats} {P : Setting} {w : History} {c : Cluster} {fl fl' : Fleet}
  {id : NodeId} {input : RuntimeInput}

theorem refines_init (D : Deployment) :
    (Fleet.init D).Refines D (Cluster.init D.consensus D.peers.toList) :=
  ⟨fun _ => rfl, fun _ => rfl, List.nil_subset _⟩

theorem step_eq_some : fl.step f (id, input) = some fl' ↔ fl.possible f id input = true ∧
    ∃ r report, (fl.nodes id).call f input = some (r, report) ∧
      fl' = fl.next id ((fl.nodes id).next input r report) report := by
  unfold step
  split_ifs with hposs
  · simp only [hposs, true_and, Option.map_eq_some_iff, Prod.exists]
    exact ⟨fun ⟨r, report, hcall, heq⟩ => ⟨r, report, hcall, heq.symm⟩,
      fun ⟨r, report, hcall, heq⟩ => ⟨r, report, hcall, heq.symm⟩⟩
  · simp only [hposs, false_and, reduceCtorEq]

/-- Every append request the node accepts is verified. -/
def verified (fl : Fleet) (act : NodeId × RuntimeInput) : Bool :=
  ((fl.nodes act.1).runtime.event? act.2).all fun event =>
    match event with
    | .message msg => !(fl.nodes act.1).runtime.node.acceptsAppend msg ||
        Follower.verified fl.sent (fl.nodes act.1).runtime.node.core.log msg
    | _ => true

end Fleet

theorem Follower.verified_mono {sent sent' : List Message} (hsub : sent ⊆ sent') {log : Log}
    {msg : Message} (h : verified sent log msg = true) : verified sent' log msg = true := by
  unfold verified at h ⊢
  split at h
  · next req _ =>
    simp only [Bool.or_eq_true] at h ⊢
    refine h.imp_right fun hlast => ?_
    obtain ⟨e, he, hany⟩ := (Option.any_eq_true _ _).1 hlast
    obtain ⟨m, hm, hcarries⟩ := List.any_eq_true.1 hany
    exact (Option.any_eq_true _ _).2 ⟨e, he, List.any_eq_true.2 ⟨m, hsub hm, hcarries⟩⟩
  · rfl

theorem Runtime.Begins.config {f : Formats} {r r₀ : Runtime} {input : RuntimeInput}
    {effects : Effects} {ticket : Option Ticket} (h : Begins f r input r₀ effects ticket) :
    r₀.config = r.config := by
  cases h <;> rfl

theorem Runtime.handleEffects_frame {f : Formats} {r : Runtime} {effects : Effects} {env : CallEnv}
    {out : Runtime × List Handover × List Applied × Outcome}
    (hout : r.handleEffects f effects env = out) :
    out.1.config = r.config ∧ (∃ k, out.1.node = r.node.advance k) ∧
      ∀ h ∈ out.2.1, h.message ∈ effects.messages := by
  have hhandles := r.handleEffects_handles f effects env
  rw [hout] at hhandles
  have hkeep : ∃ k, r.node = r.node.advance k := ⟨r.node.core.lastApplied, rfl⟩
  cases hhandles with
  | unsaved store e => exact ⟨rfl, hkeep, fun _ hmem => absurd hmem List.not_mem_nil⟩
  | stopped store handed e _ hands => exact ⟨rfl, hkeep, fun h hmem => (hands h hmem).1⟩
  | applied store handed _ hands =>
    obtain ⟨-, hconfig, -, hnode⟩ :=
      applyCommitted_frame f ({ r with store := store } : Runtime) env.cancelAt
    exact ⟨hconfig, hnode, fun h hmem => (hands h hmem).1⟩

namespace Fleet.Refines

variable {D : Deployment} {f : Formats} {P : Setting} {w : History} {c : Cluster} {fl fl' : Fleet}
  {id : NodeId} {input : RuntimeInput} (href : fl.Refines D c)
include href

/-- A runtime gives its node ticks, and messages of the cluster that are addressed to it. -/
theorem event_cases (hposs : fl.possible f id input = true) {event : Event}
    (hevent : (fl.nodes id).runtime.event? input = some event) :
    event = .tick ∨ ∃ msg, event = .message msg ∧ msg ∈ c.sent ∧ msg.to = id := by
  cases input with
  | tick env =>
    simp only [Runtime.event?] at hevent
    split_ifs at hevent
    exact .inl (Option.some.inj hevent).symm
  | receive message env =>
    simp only [Runtime.event?] at hevent
    split_ifs at hevent with hok
    simp only [Bool.and_eq_true] at hok
    have hto : message.to = (fl.nodes id).runtime.config.nodeId := by
      by_contra hne
      have := hok.1.1
      rw [Runtime.validateMessage, if_pos hne] at this
      cases this
    rw [href.config id] at hto
    exact .inr ⟨message, (Option.some.inj hevent).symm, href.sent (of_decide_eq_true hposs), hto⟩
  | propose command env => cases hevent
  | giveUp index pid => cases hevent
  | restart d => cases hevent

/-- What a call begins with is a step of the cluster. -/
theorem begins (ht : P.Tracks w c) (hposs : fl.possible f id input = true)
    (hok : P.strong → fl.verified (id, input) = true) {r₀ : Runtime} {effects : Effects}
    {ticket : Option Ticket}
    (hbegins : Runtime.Begins f (fl.nodes id).runtime input r₀ effects ticket) :
    ∃ w' c', w.Le w' ∧ P.Tracks w' c' ∧ c'.nodes = Function.update c.nodes id r₀.node ∧
      c'.sent = c.sent ++ effects.messages := by
  cases hbegins with
  | @event event hevent =>
    rw [href.node id]
    rcases href.event_cases hposs hevent with rfl | ⟨msg, rfl, hmem, rfl⟩
    · have hinput : P.InputOk c (.tick id) := trivial
      obtain ⟨w', hle, ht'⟩ := ht.step hinput rfl
      exact ⟨w', _, hle, ht', rfl, rfl⟩
    · have hinput : P.InputOk c (.deliver msg) := by
        intro hs hacc
        have hverified := hok hs
        simp only [verified, hevent, Option.all_some, href.node, hacc, Bool.not_true,
          Bool.false_or] at hverified
        exact Follower.verified_mono href.sent hverified
      have hstep : c.step (.deliver msg) =
          some (c.apply msg.to ((c.nodes msg.to).stepEvent (.message msg))) := by
        simp only [Cluster.step, Cluster.call, if_pos hmem, Option.map_some]
        rfl
      obtain ⟨w', hle, ht'⟩ := ht.step hinput hstep
      exact ⟨w', _, hle, ht', rfl, rfl⟩
  | @propose command env bytes node index effects next hinput hbytes hnext hpropose =>
    rw [href.node id] at hpropose
    have hstep : c.step (.propose id bytes) = some (c.apply id (node, effects)) := by
      simp only [Cluster.step, Cluster.call, hpropose, Option.map_some]
      rfl
    obtain ⟨w', hle, ht'⟩ := ht.step (by trivial) hstep
    exact ⟨w', _, hle, ht', rfl, rfl⟩

/-- The other nodes are as they were. -/
theorem next {j : Journal} {report : Report} {c' : Cluster}
    (hconfig : j.runtime.config = D.config id) (hnode : j.runtime.node = c'.nodes id)
    (hothers : ∀ other, other ≠ id → c'.nodes other = c.nodes other) (hsent : c.sent ⊆ c'.sent)
    (hhanded : ∀ h ∈ report.handed, h.message ∈ c'.sent) :
    (fl.next id j report).Refines D c' := by
  refine ⟨fun other => ?_, fun other => ?_, ?_⟩
  · rcases eq_or_ne other id with rfl | hne
    · simpa only [Fleet.next, Function.update_self] using hconfig
    · simpa only [Fleet.next, Function.update_of_ne hne] using href.config other
  · rcases eq_or_ne other id with rfl | hne
    · simpa only [Fleet.next, Function.update_self] using hnode
    · simpa only [Fleet.next, Function.update_of_ne hne, hothers other hne] using href.node other
  · refine List.append_subset.2 ⟨fun m hm => hsent (href.sent hm), fun m hm => ?_⟩
    obtain ⟨h, hmem, rfl⟩ := List.mem_map.1 hm
    exact hhanded h hmem

/-- The rest of a call applies entries, and hands out messages of the step it began with. -/
theorem handles {w' : History} {c₁ : Cluster} (ht : P.Tracks w' c₁) {r₀ r₁ r' : Runtime}
    {effects : Effects} (hnodes : c₁.nodes = Function.update c.nodes id r₀.node)
    (hsent : c₁.sent = c.sent ++ effects.messages) (hconfig : r₀.config = D.config id)
    {env : CallEnv} {report : Report} {outcome : Outcome}
    (hout : r₀.handleEffects f effects env = (r₁, report.handed, report.applied, outcome))
    (hrests : r₁.Rests r') {j : Journal} (hj : j.runtime = r') :
    ∃ c', P.Tracks w' c' ∧ (fl.next id j report).Refines D c' := by
  obtain ⟨hconfig₁, ⟨k, hnode⟩, hhanded⟩ := Runtime.handleEffects_frame hout
  have hself : c₁.nodes id = r₀.node := by rw [hnodes, Function.update_self]
  refine ⟨_, ht.advance id k, href.next ?_ ?_ (fun other hne => ?_) ?_ fun h hmem => ?_⟩
  · rw [hj, hrests.config]
    exact hconfig₁.trans hconfig
  · rw [hj, hrests.node, Cluster.withNode_self, hself]
    exact hnode
  · rw [Cluster.withNode_of_ne c₁ _ hne, hnodes, Function.update_of_ne hne]
  · show c.sent ⊆ c₁.sent
    rw [hsent]
    exact List.subset_append_left _ _
  · show h.message ∈ c₁.sent
    rw [hsent]
    exact List.mem_append_right _ (hhanded h hmem)

/-- A process that recovers what it held is a restarted node of the cluster. -/
theorem restart (ht : P.Tracks w c) (hsetting : ∀ id, P.config id = (D.config id).consensus)
    {d d' : Dir} (hposs : fl.possible f id (.restart d) = true) {r' : Runtime}
    (hopen : Runtime.open f (fl.nodes id).runtime.config d = (d', .ok r')) {j : Journal}
    (hj : j.runtime = r') {report : Report} (hhanded : report.handed = []) :
    ∃ w' c', w.Le w' ∧ P.Tracks w' c' ∧ (fl.next id j report).Refines D c' := by
  have hinput : P.InputOk c (.restart id) := trivial
  obtain ⟨w', hle, ht'⟩ := ht.step hinput rfl
  have hstart := (Runtime.open_start hopen).1
  have hdurable : r'.store.durable = c.saved id := by
    simp only [possible, hopen, decide_eq_true_eq] at hposs
    rw [hposs, href.node id, ht.saved id]
  refine ⟨w', _, hle, ht', href.next ?_ ?_ (fun other hne => ?_) ?_ fun h hmem => ?_⟩
  · rw [hj, hstart]
    exact href.config id
  · show _ = Function.update c.nodes id _ id
    have hcore : (c.nodes id).core.config = (D.config id).consensus :=
      (ht.node id).config.trans (hsetting id)
    rw [Function.update_self, hj, hstart, hcore, ← hdurable, href.config id]
    rfl
  · exact Function.update_of_ne hne _ _
  · exact List.subset_append_left _ _
  · rw [hhanded] at hmem
    cases hmem

end Fleet.Refines

end Cloud9
