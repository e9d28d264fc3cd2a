import Cloud9.Lib.Trace
import Cloud9.Raft.Cluster

/-!
# Atomic actions of a node

A call of a node's API does several protocol steps at once: a delivered vote response can count a
vote, win the election and send a round of heartbeats. This module names the protocol steps
(`Action`) and the parts of a node they act on (`View`), and `Call` composes them: a call is a
sequence of actions that emit at least the messages of the call's effects, and leaves the
persistent state alone unless the effects ask to persist it.

That every call of the API is such a sequence is proved in `Cloud9.Raft.NodeCalls`. Invariants of a
cluster are proved for one action at a time.
-/

namespace Cloud9

/-- The core without its clock, its random numbers and the apply position, which no protocol
step depends on. -/
def Core.erase (c : Core) : Core := { c with lastApplied := 0, ticks := 0, rng := 0 }

@[simp] theorem Core.erase_config (c : Core) : c.erase.config = c.config := rfl
@[simp] theorem Core.erase_persistent (c : Core) : c.erase.persistent = c.persistent := rfl
@[simp] theorem Core.erase_commitIndex (c : Core) : c.erase.commitIndex = c.commitIndex := rfl

/-- What a role means for replication: campaigning with some votes, leading with some progress,
or neither. -/
inductive RoleView where
  | passive
  | candidate (votes : OrdSet NodeId)
  | leader (matchIndex : NodeId → ℕ)

def RoleState.view : RoleState → RoleView
  | .follower _ | .preCandidate _ => .passive
  | .candidate c => .candidate c.votes
  | .leader l => .leader l.matchIndex.index

structure View where
  core : Core
  role : RoleView

def RaftNode.view (n : RaftNode) : View := ⟨n.core.erase, n.role.view⟩

/-- The append requests a node accepts: it is a follower, the request is not of an older term,
and the consistency check passes. -/
def RaftNode.acceptsAppend (n : RaftNode) (msg : Message) : Bool :=
  match n.role, msg.payload with
  | .follower _, .appendRequest req =>
    decide (n.core.term ≤ msg.term) && Follower.prevMatches n.core req
  | _, _ => false

/-- Messages that carry no promise: refusals, pre-votes, read-index rounds, `TimeoutNow`. -/
def Payload.isNoise : Payload → Bool
  | .voteRequest _ | .appendRequest _ => false
  | .voteResponse resp => !resp.granted
  | .appendResponse resp => !resp.success
  | .installSnapshotRequest _ | .installSnapshotResponse _ => false
  | _ => true

def Payload.isSnapshot : Payload → Bool
  | .installSnapshotRequest _ | .installSnapshotResponse _ => true
  | _ => false

/-- What a node's actions depend on outside the node: the messages that can be delivered, and
which appends and configuration changes the run contains. -/
structure Env where
  sent : List Message
  /-- The append requests that are accepted, with the log they are accepted on. -/
  acceptOk : Log → Message → Prop
  /-- The cores on which a configuration change is accepted. -/
  changeOk : Core → Prop

/-- One protocol step of a node, with the messages it emits. -/
inductive Action (env : Env) : View → View → List Message → Prop
  | noise (v : View) (ms : List Message) (h : ∀ m ∈ ms, m.payload.isNoise = true) :
    Action env v v ms
  | demote (v : View) : Action env v ⟨v.core, .passive⟩ []
  | adopt (v : View) (term : ℕ) (h : v.core.term < term) :
    Action env v ⟨(v.core.maybeUpdateTerm term).2, .passive⟩ []
  | campaign (v : View) (votes : OrdSet NodeId) (ms : List Message)
      (hvotes : ∀ id ∈ votes, id = v.core.id ∧ v.core.isVoter = true)
      (hms : ∀ m ∈ ms, ∃ peer, m = v.core.startElection.message peer
        (.voteRequest ⟨v.core.log.lastIndex, v.core.log.lastTerm⟩)) :
    Action env v ⟨v.core.startElection, .candidate votes⟩ ms
  | grant (core : Core) (candidate : NodeId) (req : VoteRequest)
      (hmem : ⟨candidate, core.id, core.term, .voteRequest req⟩ ∈ env.sent)
      (hcan : core.canVoteFor candidate = true)
      (hlog : core.logIsUpToDate req.lastLogTerm req.lastLogIndex = true) :
    Action env ⟨core, .passive⟩ ⟨core.voteFor candidate, .passive⟩
      [core.message candidate (.voteResponse ⟨true⟩)]
  | count (core : Core) (votes : OrdSet NodeId) (voter : NodeId)
      (hmem : ⟨voter, core.id, core.term, .voteResponse ⟨true⟩⟩ ∈ env.sent) :
    Action env ⟨core, .candidate votes⟩ ⟨core, .candidate (votes.insert voter)⟩ []
  | win (core : Core) (votes : OrdSet NodeId)
      (hq : core.effectiveConfig.hasQuorum votes.contains = true) :
    Action env ⟨core, .candidate votes⟩ ⟨core, .leader fun _ => 0⟩ []
  | send (core : Core) (mi : NodeId → ℕ) (peer : NodeId) (next stop : ℕ) (hnext : 0 < next) :
    Action env ⟨core, .leader mi⟩ ⟨core, .leader mi⟩
      [core.message peer (.appendRequest ⟨next - 1, core.log.termAt (next - 1),
        core.log.slice next stop, core.commitIndex⟩)]
  | accept (core : Core) (sender : NodeId) (req : AppendRequest)
      (hmem : ⟨sender, core.id, core.term, .appendRequest req⟩ ∈ env.sent)
      (hok : env.acceptOk core.log ⟨sender, core.id, core.term, .appendRequest req⟩)
      (hprev : Follower.prevMatches core req = true) :
    Action env ⟨core, .passive⟩ ⟨Follower.acceptAppend core req, .passive⟩
      [core.message sender (.appendResponse ⟨true, (Follower.acceptAppend core req).log.lastIndex⟩)]
  | appendCommand (core : Core) (mi : NodeId → ℕ) (cmd : Command) :
    Action env ⟨core, .leader mi⟩ ⟨Leader.appendEntry core (.command cmd), .leader mi⟩ []
  | appendChange (core : Core) (mi : NodeId → ℕ) (change : ConfigChange) (hok : env.changeOk core)
      (hvalid : change.validate core.effectiveConfig core.config.membershipMode = .ok ())
      (hpending : core.hasPendingConfig = false) :
    Action env ⟨core, .leader mi⟩ ⟨Leader.appendEntry core (.config
      (change.apply core.effectiveConfig core.config.membershipMode)), .leader mi⟩ []
  | appendTarget (core : Core) (mi : NodeId → ℕ) (idx : ℕ) (e : Entry) (cfg target : Configuration)
      (hidx : idx ≤ core.commitIndex) (hget : core.log.get idx = some e)
      (hcfg : e.payload = .config cfg) (htarget : cfg.transitionTarget = some target) :
    Action env ⟨core, .leader mi⟩ ⟨Leader.appendEntry core (.config target), .leader mi⟩ []
  | ack (core : Core) (mi : NodeId → ℕ) (peer : NodeId) (index : ℕ)
      (hmem : ⟨peer, core.id, core.term, .appendResponse ⟨true, index⟩⟩ ∈ env.sent) :
    Action env ⟨core, .leader mi⟩ ⟨core, .leader (Function.update mi peer index)⟩ []
  | disk (core : Core) (mi : NodeId → ℕ) (index : ℕ) (h : index ≤ core.log.lastIndex) :
    Action env ⟨core, .leader mi⟩ ⟨core, .leader (Function.update mi core.id index)⟩ []
  | commit (core : Core) (mi : NodeId → ℕ) (index : ℕ) (hlt : core.commitIndex < index)
      (hle : index ≤ core.log.lastIndex) (hterm : core.log.termAt index = core.term)
      (hq : core.effectiveConfig.hasQuorum (fun voter => decide (mi voter ≥ index)) = true) :
    Action env ⟨core, .leader mi⟩ ⟨core.setCommitIndex index, .leader mi⟩ []
  | restart (v : View) : Action env v ⟨{ v.core with commitIndex := 0 }, .passive⟩ []

/-- A call with effects `eff` is a sequence of actions, and an unpersisted one leaves the
persistent state alone. -/
structure Call (env : Env) (v v' : View) (eff : Effects) : Prop where
  trace : Trace (Action env) v v' eff.messages
  persist : eff.persist = false → v'.core.persistent = v.core.persistent

namespace Call

variable {env : Env} {v v' v'' : View} {e e' : Effects}

theorem refl (v : View) : Call env v v Effects.none := ⟨.refl v, fun _ => rfl⟩

theorem merge (h : Call env v v' e) (h' : Call env v' v'' e') : Call env v v'' (e.merge e') where
  trace := h.trace.trans h'.trace
  persist hp := by
    rw [Effects.merge_persist, Bool.or_eq_false_iff] at hp
    exact (h'.persist hp.2).trans (h.persist hp.1)

/-- The effects of the later part may be listed first. -/
theorem merge_swap (h : Call env v v' e) (h' : Call env v' v'' e') :
    Call env v v'' (e'.merge e) where
  trace := (h.trace.trans h'.trace).drop fun m hm => by
    simp only [Effects.merge_messages, List.mem_append] at hm ⊢
    exact hm.symm
  persist hp := by
    rw [Effects.merge_persist, Bool.or_eq_false_iff] at hp
    exact (h'.persist hp.1).trans (h.persist hp.2)

theorem withPersist (h : Call env v v' e) : Call env v v' e.withPersist :=
  ⟨h.trace, fun hp => by simp at hp⟩

/-- An action that emits nothing, before the rest of the call. -/
theorem cons (ha : Action env v v' []) (hp : v'.core.persistent = v.core.persistent)
    (h : Call env v' v'' e) : Call env v v'' e where
  trace := (Trace.single ha).trans h.trace
  persist hpe := (h.persist hpe).trans hp

/-- A silent action ends the call. -/
theorem silent (ha : Action env v v' []) (hp : v'.core.persistent = v.core.persistent) :
    Call env v v' Effects.none := cons ha hp (refl v')

/-- A call whose effects ask to persist only has to be a trace. -/
theorem persisted (h : Trace (Action env) v v' e.messages) (hp : e.persist = true) :
    Call env v v' e :=
  ⟨h, fun hpe => by rw [hp] at hpe; cases hpe⟩

/-- Silent actions before a call that asks to persist. -/
theorem after {v₁ : View} (h : Trace (Action env) v v₁ []) (hcall : Call env v₁ v' e)
    (hp : e.persist = true) : Call env v v' e :=
  .persisted (h.trans hcall.trace) hp

/-- Messages without content. -/
theorem noise (h : ∀ m ∈ e.messages, m.payload.isNoise = true) : Call env v v e :=
  ⟨.single (.noise v _ h), fun _ => rfl⟩

end Call

end Cloud9
