import Cloud9.Lib.Run
import Cloud9.Node.Command
import Cloud9.Node.Store
import Cloud9.Raft.Node

/-!
# The runtime

`runtime.rs`: the driver of a node. A call steps the node, saves its persistent state if the effects
ask for it, hands out the messages, applies what is committed and answers the proposals that wait
for it.

The source is asynchronous, but a call holds the machine lock from the step to its end. So a call is
one transition here, and what can happen around it is in its environment (`CallEnv`): file-system
calls that fail, a health check that was passed before another call failed, and a future that is
dropped at one of its `await` points. These are the machine lock and the lock of the key-value
state, which is taken for every command that is applied.
-/

namespace Cloud9

structure SocketAddr where
  ip : List UInt8
  port : UInt16
  deriving DecidableEq, Repr

/-- The part of the node's configuration that the runtime reads. The keys and the addresses of the
map `peers` are two fields; addresses of other nodes than the keys mean nothing. -/
structure NodeConfig where
  nodeId : NodeId
  consensus : Config
  raftAddr : SocketAddr
  peers : OrdSet NodeId
  peerAddr : NodeId → SocketAddr

inductive RuntimeError where
  | identityMismatch (nodeId consensusId : NodeId)
  | invalidSelfPeer (nodeId : NodeId) (raftAddr : SocketAddr)
  | duplicatePeerAddress (address : SocketAddr)
  | store (error : StoreError)
  | snapshotTransportUnsupported
  | unknownPeer (peer : NodeId)
  | failed
  deriving DecidableEq, Repr

inductive MessageError where
  | wrongRecipient (expected actual : NodeId)
  | unknownSender (sender : NodeId)
  | selfMessage
  deriving DecidableEq, Repr

/-- What is outside the model: the two `serde_json` formats, and the texts of errors that carry
paths and operating-system messages. -/
structure Formats where
  delta : Serializer PersistentDelta
  command : Serializer KvCommand
  storeText : StoreError → String
  addrText : SocketAddr → String

/-! ## Texts -/

def RuntimeError.text (f : Formats) : RuntimeError → String
  | .identityMismatch nodeId consensusId =>
    s!"node id {nodeId} does not match consensus id {consensusId}"
  | .invalidSelfPeer nodeId raftAddr =>
    s!"cluster peers do not map node {nodeId} to its Raft address " ++ f.addrText raftAddr
  | .duplicatePeerAddress address =>
    "cluster peers contain duplicate Raft address " ++ f.addrText address
  | .store error => f.storeText error
  | .snapshotTransportUnsupported => "Raft snapshot transport is not implemented"
  | .unknownPeer peer => s!"Raft emitted a message for unknown peer {peer}"
  | .failed => "Raft runtime previously failed"

def proposeError : ProposeError → ConnectError
  | .notLeader (some leader) => .failedPrecondition s!"not leader; leader is {leader}"
  | .notLeader none => .failedPrecondition "not leader; leader unknown"
  | .throttled => .resourceExhausted "too many Raft proposals"

def runtimeConnectError (f : Formats) (error : RuntimeError) : ConnectError :=
  .internal ("Raft runtime failed: " ++ error.text f)

/-! ## State -/

/-- A proposal that waits for its index to be applied. -/
structure PendingProposal where
  id : UInt64
  command : Command
  deriving DecidableEq

/-- A waiting proposal is told the result if the command applied at its index is its own. -/
def PendingProposal.complete (pending : PendingProposal) (command : Command)
    (result : ApplyResult) : ApplyResult :=
  if pending.command = command then result
  else .error (.aborted "Raft proposal was superseded")

structure Runtime where
  config : NodeConfig
  node : RaftNode
  store : RaftStore
  state : KvState
  waiters : ℕ → Option PendingProposal
  nextProposalId : UInt64
  failed : Bool

/-- What happens around a call. -/
structure CallEnv where
  /-- The health check was passed before another call failed. -/
  admitted : Bool := false
  /-- The future is dropped while it waits for the machine lock. -/
  dropped : Bool := false
  saveFaults : SaveFaults := {}
  /-- The future is dropped when it waits for the key-value state after this many commands. -/
  cancelAt : Option ℕ := none

/-- How `handle_effects` ends. A loop that never does is `spinning`. -/
inductive Outcome where
  | done
  | failed (error : RuntimeError)
  | cancelled
  | spinning
  deriving DecidableEq

/-! ## What a call can be seen to do -/

/-- A message handed to `send_message`, with what the store and the node hold at this moment. -/
structure Handover where
  message : Message
  durable : Persistent
  persistent : Persistent

/-- An applied entry, with the proposal that waited at its index and what it was told. -/
structure Applied where
  entry : CommittedEntry
  answer : Option (PendingProposal × ApplyResult)

/-- A proposal was accepted: the entry that was appended for it. -/
structure Ticket where
  id : UInt64
  index : ℕ
  term : ℕ
  command : Command
  deriving DecidableEq

/-- What a call returns. A proposal that was accepted waits for its answer. -/
inductive CallResult where
  | done
  | error (error : RuntimeError)
  | rejected (error : MessageError)
  | refused (error : ConnectError)
  | waiting
  | cancelled
  deriving DecidableEq

structure Report where
  result : CallResult
  /-- The end of `handle_effects`, if the call gets there. -/
  outcome : Option Outcome := none
  handed : List Handover := []
  applied : List Applied := []
  ticket : Option Ticket := none

/-! ## Opening -/

/-- The first address that occurs a second time. -/
def duplicateAddress (seen : List SocketAddr) : List SocketAddr → Option SocketAddr
  | [] => none
  | address :: rest =>
    if address ∈ seen then some address else duplicateAddress (address :: seen) rest

def validateConfig (config : NodeConfig) : Except RuntimeError Unit :=
  if config.nodeId ≠ config.consensus.id then
    .error (.identityMismatch config.nodeId config.consensus.id)
  else if ¬(config.nodeId ∈ config.peers ∧ config.peerAddr config.nodeId = config.raftAddr) then
    .error (.invalidSelfPeer config.nodeId config.raftAddr)
  else match duplicateAddress [] (config.peers.toList.map config.peerAddr) with
    | some address => .error (.duplicatePeerAddress address)
    | none => .ok ()

namespace Runtime

/-- A process starts with the durable state of the store and a fresh key-value state. -/
def start (config : NodeConfig) (store : RaftStore) : Runtime where
  config := config
  node := RaftNode.restore config.consensus store.durable
  store := store
  state := KvState.new
  waiters := fun _ => none
  nextProposalId := 1
  failed := false

/-- `RaftRuntime::open`, with the directory it leaves. -/
def «open» (f : Formats) (config : NodeConfig) (d : Dir) : Dir × Except RuntimeError Runtime :=
  match validateConfig config with
  | .error e => (d, .error e)
  | .ok () =>
    let initial := RaftNode.new config.consensus config.peers.toList
    match RaftStore.open f.delta d initial.persistent with
    | (d, .error e) => (d, .error (.store e))
    | (d, .ok store) => (d, .ok (start config store))

/-! ## Effects -/

def removePending (r : Runtime) (index : ℕ) (id : UInt64) : Runtime :=
  if (r.waiters index).any fun pending => decide (pending.id = id) then
    { r with waiters := Function.update r.waiters index none }
  else r

/-- `PeerTransport::send`: every peer but the node itself has a connection. Beyond the limit of
messages in flight a message is dropped without an error, as if the network had lost it. -/
def canSend (r : Runtime) (target : NodeId) : Bool :=
  decide (target ∈ r.config.peers ∧ target ≠ r.config.nodeId)

/-- The loop over the messages. -/
def sendMessages (r : Runtime) : List Message → List Handover × Except RuntimeError Unit
  | [] => ([], .ok ())
  | message :: rest =>
    let handover : Handover := ⟨message, r.store.durable, r.node.persistent⟩
    if r.canSend message.to then
      let (handed, result) := r.sendMessages rest
      (handover :: handed, result)
    else ([handover], .error (.unknownPeer message.to))

def applyCommand (f : Formats) (state : KvState) (command : Command) : KvState × ApplyResult :=
  match f.command.decode command with
  | none => (state, .error (.internal "invalid Raft command payload"))
  | some command => state.apply command

/-- A turn of `apply_committed`: apply the entry, advance, answer the proposal that waits. -/
def applyEntry (f : Formats) (r : Runtime) (entry : CommittedEntry) : Runtime × Applied :=
  let (state, result) := applyCommand f r.state entry.command
  let answer := (r.waiters entry.index).map fun pending =>
    (pending, pending.complete entry.command result)
  ({ r with
      state := state
      node := r.node.advance entry.index
      waiters := Function.update r.waiters entry.index none }, ⟨entry, answer⟩)

/-- The loop of `apply_committed`. The lock of the key-value state is only taken for a command that
can be decoded. -/
def applyLoop (f : Formats) (fuel : ℕ) (cancelAt : Option ℕ) (r : Runtime) :
    Runtime × List Applied × Outcome :=
  match r.node.committed.head? with
  | none => (r, [], .done)
  | some entry =>
    match fuel with
    | 0 => (r, [], .spinning)
    | fuel + 1 =>
      let awaits := (f.command.decode entry.command).isSome
      if awaits ∧ cancelAt = some 0 then (r, [], .cancelled)
      else
        let (r, applied) := r.applyEntry f entry
        let (r, rest, outcome) :=
          applyLoop f fuel (if awaits then cancelAt.map (· - 1) else cancelAt) r
        (r, applied :: rest, outcome)

/-- The entries above `last_applied` bound the turns of the loop, unless an entry carries another
index than its own. -/
def applyCommitted (f : Formats) (r : Runtime) (cancelAt : Option ℕ) :
    Runtime × List Applied × Outcome :=
  applyLoop f (r.node.core.commitIndex - r.node.core.lastApplied) cancelAt r

/-- Save if the effects ask for it. -/
def persist (f : Formats) (r : Runtime) (effects : Effects) (faults : SaveFaults) :
    Except StoreError Unit × Runtime :=
  if effects.persist then
    let (result, store) := r.store.save f.delta faults r.node.persistent
    (result, { r with store := store })
  else (.ok (), r)

def handleEffects (f : Formats) (r : Runtime) (effects : Effects) (env : CallEnv) :
    Runtime × List Handover × List Applied × Outcome :=
  match r.persist f effects env.saveFaults with
  | (.error e, r) => (r, [], [], .failed (.store e))
  | (.ok (), r) =>
    if effects.sendSnapshots ≠ [] then (r, [], [], .failed .snapshotTransportUnsupported)
    else match r.sendMessages effects.messages with
      | (handed, .error e) => (r, handed, [], .failed e)
      | (handed, .ok ()) =>
        let (r, applied, outcome) := r.applyCommitted f env.cancelAt
        (r, handed, applied, outcome)

/-! ## Calls -/

def ensureHealthy (r : Runtime) (env : CallEnv) : Except RuntimeError Unit :=
  if r.failed && !env.admitted then .error .failed else .ok ()

/-- The common body of `step` and `tick_once`. A call that never returns has no result. -/
def drive (f : Formats) (r : Runtime) (event : Event) (env : CallEnv) : Option (Runtime × Report) :=
  match r.ensureHealthy env with
  | .error e => some (r, { result := .error e })
  | .ok () =>
    if env.dropped then some (r, { result := .cancelled })
    else
      let (node, effects) := r.node.stepEvent event
      let (r, handed, applied, outcome) := { r with node := node }.handleEffects f effects env
      let report := fun result =>
        { result, outcome := some outcome, handed, applied : Report }
      match outcome with
      | .done => some (r, report .done)
      | .failed e => some ({ r with failed := true }, report (.error e))
      | .cancelled => some (r, report .cancelled)
      | .spinning => none

def step (f : Formats) (r : Runtime) (message : Message) (env : CallEnv) :
    Option (Runtime × Report) := r.drive f (.message message) env

def tickOnce (f : Formats) (r : Runtime) (env : CallEnv) : Option (Runtime × Report) :=
  r.drive f .tick env

def validateMessage (r : Runtime) (message : Message) : Except MessageError Unit :=
  if message.to ≠ r.config.nodeId then .error (.wrongRecipient r.config.nodeId message.to)
  else if message.from = r.config.nodeId then .error .selfMessage
  else if message.from ∉ r.config.peers then .error (.unknownSender message.from)
  else .ok ()

/-- `receive_raft`, for a message with a valid signature. -/
def receive (f : Formats) (r : Runtime) (message : Message) (env : CallEnv) :
    Option (Runtime × Report) :=
  match r.validateMessage message with
  | .error e => some (r, { result := .rejected e })
  | .ok () => r.step f message env

/-- `RaftRuntime::propose`, up to where it waits for its answer. A failed assertion of the node has
no result. -/
def propose (f : Formats) (r : Runtime) (command : KvCommand) (env : CallEnv) :
    Option (Runtime × Report) :=
  match r.ensureHealthy env with
  | .error e => some (r, { result := .refused (runtimeConnectError f e) })
  | .ok () =>
    match checkedSucc r.nextProposalId with
    | none => some (r, { result := .refused (.resourceExhausted "proposal id space exhausted") })
    | some next =>
      let id := r.nextProposalId
      let r := { r with nextProposalId := next }
      match f.command.encode command with
      | none => some (r, { result := .refused (.internal "failed to encode Raft command") })
      | some bytes =>
        if env.dropped then some (r, { result := .cancelled })
        else match r.node.propose bytes with
          | none => none
          | some (_, .error e) => some (r, { result := .refused (proposeError e) })
          | some (node, .ok (index, effects)) =>
            let ticket : Ticket := ⟨id, index, r.node.term, bytes⟩
            let r := { r with
              node := node
              waiters := Function.update r.waiters index (some ⟨id, bytes⟩) }
            let (r, handed, applied, outcome) := r.handleEffects f effects env
            let report := fun result =>
              { result, outcome := some outcome, handed, applied, ticket := some ticket : Report }
            match outcome with
            | .done => some (r, report .waiting)
            | .failed e => some ({ r.removePending index id with failed := true },
                report (.refused (runtimeConnectError f e)))
            | .cancelled => some (r.removePending index id, report .cancelled)
            | .spinning => none

end Runtime

/-! ## Runs -/

/-- A call, the end of a call that waits for its answer, or a restart on any directory. -/
inductive RuntimeInput where
  | tick (env : CallEnv)
  | receive (message : Message) (env : CallEnv)
  | propose (command : KvCommand) (env : CallEnv)
  /-- The waiting call times out or is dropped. -/
  | giveUp (index : ℕ) (id : UInt64)
  | restart (d : Dir)

/-- A runtime and what it has been seen to do: the messages it handed out, and, since the process
started, the proposals it accepted and the entries it applied. -/
structure Journal where
  runtime : Runtime
  handed : List Handover
  tickets : List Ticket
  applied : List Applied

namespace Journal

def start (r : Runtime) : Journal := ⟨r, [], [], []⟩

def record (j : Journal) (r : Runtime) (report : Report) : Journal where
  runtime := r
  handed := j.handed ++ report.handed
  tickets := j.tickets ++ report.ticket.toList
  applied := j.applied ++ report.applied

/-- What an input comes to. A restart that cannot open its directory leaves no process. -/
def call (f : Formats) (j : Journal) : RuntimeInput → Option (Runtime × Report)
  | .tick env => j.runtime.tickOnce f env
  | .receive message env => j.runtime.receive f message env
  | .propose command env => j.runtime.propose f command env
  | .giveUp index id => some (j.runtime.removePending index id, { result := .done })
  | .restart d =>
    match Runtime.open f j.runtime.config d with
    | (_, .error _) => none
    | (_, .ok r) => some (r, { result := .done })

/-- A restart begins a new process. -/
def next (j : Journal) (input : RuntimeInput) (r : Runtime) (report : Report) : Journal :=
  match input with
  | .restart _ => ⟨r, j.handed, [], []⟩
  | _ => j.record r report

theorem next_of_live {j : Journal} {input : RuntimeInput} (h : ∀ d, input ≠ .restart d)
    (r : Runtime) (report : Report) : j.next input r report = j.record r report := by
  cases input with
  | restart d => exact absurd rfl (h d)
  | _ => rfl

def step (f : Formats) (j : Journal) (input : RuntimeInput) : Option Journal :=
  (j.call f input).map fun (r, report) => j.next input r report

/-- Run a list of inputs, each of which is allowed in the state it meets. -/
def run (f : Formats) (ok : Journal → RuntimeInput → Bool) (j : Journal)
    (inputs : List RuntimeInput) : Option Journal :=
  runWhile (step f) ok j inputs

end Journal

/-- The event an input gives to the node, unless a check refuses it before. -/
def Runtime.event? (r : Runtime) : RuntimeInput → Option Event
  | .tick env => if (r.ensureHealthy env).isOk && !env.dropped then some .tick else none
  | .receive message env =>
    if (r.validateMessage message).isOk && (r.ensureHealthy env).isOk && !env.dropped then
      some (.message message)
    else none
  | _ => none

/-- The log stays without snapshot. -/
def Runtime.snapshotFree (r : Runtime) (input : RuntimeInput) : Bool :=
  (r.event? input).all fun event =>
    decide ((r.node.stepEvent event).1.core.log.snapshotIndex = 0)

/-- A process that could be opened starts from a durable log in sequence. -/
theorem Runtime.open_start {f : Formats} {config : NodeConfig} {d d' : Dir} {r : Runtime}
    (h : Runtime.open f config d = (d', .ok r)) :
    r = Runtime.start config r.store ∧ r.store.durable.log.Plain := by
  unfold Runtime.open at h
  split at h
  · cases h
  · dsimp only at h
    split at h
    · cases h
    · next store hopen =>
      cases h
      exact ⟨rfl, RaftStore.open_plain Log.plain_empty hopen⟩

/-! ## What `handle_effects` does -/

namespace Runtime

variable {f : Formats} {r : Runtime} {effects : Effects} {env : CallEnv}

/-- After a save that did not fail, or that was not asked for. -/
structure Saves (r : Runtime) (effects : Effects) (store : RaftStore) : Prop where
  saved : effects.persist = true → store.durable = r.node.persistent ∧
    r.node.core.log.snapshotIndex = r.store.durable.log.snapshotIndex
  kept : effects.persist = false → store = r.store

theorem persist_ok {r' : Runtime} {faults : SaveFaults}
    (h : r.persist f effects faults = (.ok (), r')) :
    ∃ store, r' = { r with store := store } ∧ r.Saves effects store := by
  unfold persist at h
  split_ifs at h with hpersist
  · generalize hsave : r.store.save f.delta faults r.node.persistent = out at h
    obtain ⟨result, store⟩ := out
    cases h
    exact ⟨store, rfl, fun _ => RaftStore.save_ok hsave, fun hnot => by simp [hpersist] at hnot⟩
  · cases h
    exact ⟨r.store, rfl, fun hyes => absurd hyes hpersist, fun _ => rfl⟩

theorem persist_error {r' : Runtime} {faults : SaveFaults} {e : StoreError}
    (h : r.persist f effects faults = (.error e, r')) :
    ∃ store, r' = { r with store := store } := by
  unfold persist at h
  split_ifs at h
  · generalize r.store.save f.delta faults r.node.persistent = out at h
    obtain ⟨result, store⟩ := out
    cases h
    exact ⟨store, rfl⟩
  · cases h

/-- The messages handed out are among those to send, and are handed out in the present state. -/
def Hands (r : Runtime) (messages : List Message) (handed : List Handover) : Prop :=
  ∀ h ∈ handed, h.message ∈ messages ∧ h.durable = r.store.durable ∧
    h.persistent = r.node.persistent

theorem hands_nil (r : Runtime) (messages : List Message) : r.Hands messages [] :=
  fun _ hmem => absurd hmem List.not_mem_nil

theorem sendMessages_hands (r : Runtime) (messages : List Message) :
    r.Hands messages (r.sendMessages messages).1 := by
  induction messages with
  | nil => exact r.hands_nil []
  | cons message rest ih =>
    unfold sendMessages
    dsimp only
    split_ifs
    · rintro h (_ | ⟨_, hmem⟩)
      · exact ⟨List.mem_cons_self, rfl, rfl⟩
      · obtain ⟨hrest, hstate⟩ := ih h hmem
        exact ⟨List.mem_cons_of_mem _ hrest, hstate⟩
    · rintro h (_ | ⟨_, hmem⟩)
      · exact ⟨List.mem_cons_self, rfl, rfl⟩
      · cases hmem

/-- The save fails, or the messages cannot be sent, or what is committed is applied. -/
inductive Handles (f : Formats) (r : Runtime) (effects : Effects) (env : CallEnv) :
    Runtime × List Handover × List Applied × Outcome → Prop
  | unsaved (store : RaftStore) (e : StoreError) :
    Handles f r effects env ({ r with store := store }, [], [], .failed (.store e))
  | stopped (store : RaftStore) (handed : List Handover) (e : RuntimeError)
      (saves : r.Saves effects store)
      (hands : ({ r with store := store } : Runtime).Hands effects.messages handed) :
    Handles f r effects env ({ r with store := store }, handed, [], .failed e)
  | applied (store : RaftStore) (handed : List Handover) (saves : r.Saves effects store)
      (hands : ({ r with store := store } : Runtime).Hands effects.messages handed) :
    Handles f r effects env
      ((({ r with store := store } : Runtime).applyCommitted f env.cancelAt).1, handed,
        (({ r with store := store } : Runtime).applyCommitted f env.cancelAt).2)

theorem handleEffects_handles (f : Formats) (r : Runtime) (effects : Effects) (env : CallEnv) :
    Handles f r effects env (r.handleEffects f effects env) := by
  unfold handleEffects
  split
  · next e r' hpersist =>
    obtain ⟨store, rfl⟩ := persist_error hpersist
    exact .unsaved store e
  · next r' hpersist =>
    obtain ⟨store, rfl, hsaves⟩ := persist_ok hpersist
    have hhands := ({ r with store := store } : Runtime).sendMessages_hands effects.messages
    split_ifs
    · exact .stopped store [] _ hsaves (hands_nil _ _)
    · split
      · next handed e hsend =>
        rw [hsend] at hhands
        exact .stopped store handed e hsaves hhands
      · next handed hsend =>
        rw [hsend] at hhands
        exact .applied store handed hsaves hhands

/-- **The rule of the apply loop**: a statement about the entries applied so far and the runtime
that every turn continues. -/
theorem applyLoop_rule {I : List Applied → Runtime → Prop}
    (hentry : ∀ {past r entry}, I past r → r.node.committed.head? = some entry →
      I (past ++ [(r.applyEntry f entry).2]) (r.applyEntry f entry).1) {fuel : ℕ} :
    ∀ {cancelAt : Option ℕ} {past : List Applied} {r : Runtime}, I past r →
      I (past ++ (applyLoop f fuel cancelAt r).2.1) (applyLoop f fuel cancelAt r).1 := by
  induction fuel with
  | zero =>
    intro cancelAt past r h
    unfold applyLoop
    split <;> simpa using h
  | succ fuel ih =>
    intro cancelAt past r h
    unfold applyLoop
    split
    · simpa using h
    · next entry hhead =>
      dsimp only
      split_ifs
      · simpa using h
      all_goals
        rw [List.append_cons]
        exact ih (hentry h hhead)

/-- **The rule of `handle_effects`**: what the apply loop continues, and what does not depend on the
store, is continued by the whole. -/
theorem handleEffects_rule {I : List Applied → Runtime → Prop}
    (hstore : ∀ {past r} store, I past r → I past { r with store := store })
    (hentry : ∀ {past r entry}, I past r → r.node.committed.head? = some entry →
      I (past ++ [(r.applyEntry f entry).2]) (r.applyEntry f entry).1)
    {past : List Applied} (h : I past r)
    {out : Runtime × List Handover × List Applied × Outcome}
    (hout : r.handleEffects f effects env = out) : I (past ++ out.2.2.1) out.1 := by
  have hhandles := r.handleEffects_handles f effects env
  rw [hout] at hhandles
  cases hhandles with
  | unsaved store e =>
    rw [List.append_nil]
    exact hstore store h
  | stopped store handed e _ _ =>
    rw [List.append_nil]
    exact hstore store h
  | applied store handed _ _ => exact applyLoop_rule hentry (hstore store h)

/-- What the apply loop does not touch. -/
theorem applyCommitted_frame (f : Formats) (r : Runtime) (cancelAt : Option ℕ) :
    (r.applyCommitted f cancelAt).1.store = r.store ∧
      (r.applyCommitted f cancelAt).1.config = r.config ∧
      (r.applyCommitted f cancelAt).1.nextProposalId = r.nextProposalId ∧
      ∃ k, (r.applyCommitted f cancelAt).1.node = r.node.advance k := by
  refine @applyLoop_rule f (fun _ r' => r'.store = r.store ∧ r'.config = r.config ∧
    r'.nextProposalId = r.nextProposalId ∧ ∃ k, r'.node = r.node.advance k) ?_ _ _ [] r
    ⟨rfl, rfl, rfl, r.node.core.lastApplied, rfl⟩
  rintro past r' entry ⟨hstore, hconfig, hid, k, hnode⟩ -
  refine ⟨hstore, hconfig, hid, entry.index, ?_⟩
  show r'.node.advance entry.index = _
  rw [hnode]
  rfl

end Runtime

/-! ## What a call does -/

namespace Runtime

variable {f : Formats} {r r' r₁ : Runtime}

/-- At most some waiting proposals are gone and proposal ids used up. -/
structure Rests (r r' : Runtime) : Prop where
  config : r'.config = r.config
  node : r'.node = r.node
  store : r'.store = r.store
  state : r'.state = r.state
  waiters : ∀ {i p}, r'.waiters i = some p → r.waiters i = some p
  nextProposalId : r.nextProposalId ≤ r'.nextProposalId

theorem Rests.refl (r : Runtime) : r.Rests r := ⟨rfl, rfl, rfl, rfl, fun h => h, Nat.le_refl _⟩

theorem Rests.fail (h : r.Rests r') : r.Rests { r' with failed := true } :=
  ⟨h.config, h.node, h.store, h.state, h.waiters, h.nextProposalId⟩

theorem Rests.nextId {next : UInt64} (h : checkedSucc r.nextProposalId = some next) :
    r.Rests { r with nextProposalId := next } :=
  ⟨rfl, rfl, rfl, rfl, fun h => h, Nat.le_of_lt (UInt64.lt_iff_toNat_lt.1 (lt_of_checkedSucc h))⟩

theorem removePending_rests (r : Runtime) (index : ℕ) (id : UInt64) :
    r.Rests (r.removePending index id) := by
  unfold removePending
  split
  · refine ⟨rfl, rfl, rfl, rfl, fun {i p} hp => ?_, Nat.le_refl _⟩
    by_cases hi : i = index
    · subst hi
      simp at hp
    · simpa [hi] using hp
  · exact .refl r

/-- What a call does before `handle_effects`: the node takes an event, or a proposal is accepted. -/
inductive Begins (f : Formats) (r : Runtime) (input : RuntimeInput) :
    Runtime → Effects → Option Ticket → Prop
  | event {e : Event} (h : r.event? input = some e) :
    Begins f r input { r with node := (r.node.stepEvent e).1 } (r.node.stepEvent e).2 none
  | propose {command : KvCommand} {env : CallEnv} {bytes : Command} {node : RaftNode} {index : ℕ}
      {effects : Effects} {next : UInt64} (hinput : input = .propose command env)
      (hbytes : f.command.encode command = some bytes)
      (hnext : checkedSucc r.nextProposalId = some next)
      (h : r.node.propose bytes = some (node, .ok (index, effects))) :
    Begins f r input
      { r with
        nextProposalId := next
        node := node
        waiters := Function.update r.waiters index (some ⟨r.nextProposalId, bytes⟩) }
      effects (some ⟨r.nextProposalId, index, r.node.term, bytes⟩)

/-- What a call does: nothing, or it begins and handles the effects, or it starts a new process. -/
inductive Call (f : Formats) (r : Runtime) (input : RuntimeInput) : Runtime → Report → Prop
  | idle {r' : Runtime} {report : Report} (rests : r.Rests r') (handed : report.handed = [])
      (applied : report.applied = []) (ticket : report.ticket = none)
      (outcome : report.outcome = none) (live : ∀ d, input ≠ .restart d) : Call f r input r' report
  | handled {r₀ r₁ r' : Runtime} {effects : Effects} {env : CallEnv} {outcome : Outcome}
      {report : Report} (begins : Begins f r input r₀ effects report.ticket)
      (handles : r₀.handleEffects f effects env = (r₁, report.handed, report.applied, outcome))
      (rests : r₁.Rests r') (outcome : report.outcome = some outcome)
      (live : ∀ d, input ≠ .restart d) : Call f r input r' report
  | restart {d d' : Dir} {r' : Runtime} {report : Report} (hinput : input = .restart d)
      (h : Runtime.open f r.config d = (d', .ok r')) (outcome : report.outcome = none) :
      Call f r input r' report

theorem ensureHealthy_isOk {env : CallEnv} (h : r.ensureHealthy env = .ok ()) :
    (r.ensureHealthy env).isOk = true := by rw [h]; rfl

theorem drive_call {input : RuntimeInput} {event : Event} {env : CallEnv} {report : Report}
    (hevent : (r.ensureHealthy env).isOk = true → env.dropped = false →
      r.event? input = some event)
    (hlive : ∀ d, input ≠ .restart d) (h : r.drive f event env = some (r', report)) :
    Call f r input r' report := by
  unfold drive at h
  cases hhealthy : r.ensureHealthy env with
  | error e =>
    simp only [hhealthy, Option.some.injEq, Prod.mk.injEq] at h
    obtain ⟨rfl, rfl⟩ := h
    exact .idle (.refl r) rfl rfl rfl rfl hlive
  | ok u =>
    simp only [hhealthy] at h
    cases hdropped : env.dropped with
    | true =>
      rw [hdropped, if_pos rfl] at h
      cases h
      exact .idle (.refl r) rfl rfl rfl rfl hlive
    | false =>
      rw [hdropped, if_neg nofun] at h
      have hbegin : Begins f r input _ _ none :=
        .event (hevent (ensureHealthy_isOk hhealthy) hdropped)
      generalize hout : ({ r with node := (r.node.stepEvent event).1 } : Runtime).handleEffects f
        (r.node.stepEvent event).2 env = out at h
      obtain ⟨r₁, handed, applied, outcome⟩ := out
      cases outcome with
      | done =>
        cases h
        exact .handled hbegin hout (.refl _) rfl hlive
      | failed e =>
        cases h
        exact .handled hbegin hout (Rests.refl _).fail rfl hlive
      | cancelled =>
        cases h
        exact .handled hbegin hout (.refl _) rfl hlive
      | spinning => cases h

theorem propose_call {command : KvCommand} {env : CallEnv} {report : Report}
    (h : r.propose f command env = some (r', report)) :
    Call f r (.propose command env) r' report := by
  have hlive : ∀ d, RuntimeInput.propose command env ≠ .restart d := nofun
  unfold propose at h
  cases hhealthy : r.ensureHealthy env with
  | error e =>
    simp only [hhealthy, Option.some.injEq, Prod.mk.injEq] at h
    obtain ⟨rfl, rfl⟩ := h
    exact .idle (.refl r) rfl rfl rfl rfl hlive
  | ok u =>
    simp only [hhealthy] at h
    cases hnext : checkedSucc r.nextProposalId with
    | none =>
      simp only [hnext, Option.some.injEq, Prod.mk.injEq] at h
      obtain ⟨rfl, rfl⟩ := h
      exact .idle (.refl r) rfl rfl rfl rfl hlive
    | some next =>
      simp only [hnext] at h
      cases hbytes : f.command.encode command with
      | none =>
        simp only [hbytes, Option.some.injEq, Prod.mk.injEq] at h
        obtain ⟨rfl, rfl⟩ := h
        exact .idle (.nextId hnext) rfl rfl rfl rfl hlive
      | some bytes =>
        simp only [hbytes] at h
        cases hdropped : env.dropped with
        | true =>
          rw [hdropped, if_pos rfl] at h
          cases h
          exact .idle (.nextId hnext) rfl rfl rfl rfl hlive
        | false =>
          rw [hdropped, if_neg nofun] at h
          rcases hpropose : r.node.propose bytes with _ | ⟨node, e | ⟨index, effects⟩⟩
          · simp [hpropose] at h
          · simp only [hpropose, Option.some.injEq, Prod.mk.injEq] at h
            obtain ⟨rfl, rfl⟩ := h
            exact .idle (.nextId hnext) rfl rfl rfl rfl hlive
          · simp only [hpropose] at h
            have hbegin : Begins f r (.propose command env) _ _ _ :=
              .propose rfl hbytes hnext hpropose
            generalize hout : ({ r with
              nextProposalId := next
              node := node
              waiters := Function.update r.waiters index (some ⟨r.nextProposalId, bytes⟩) } :
                Runtime).handleEffects f effects env = out at h
            obtain ⟨r₁, handed, applied, outcome⟩ := out
            cases outcome with
            | done =>
              cases h
              exact .handled hbegin hout (.refl _) rfl hlive
            | failed e =>
              cases h
              exact .handled hbegin hout (removePending_rests _ _ _).fail rfl hlive
            | cancelled =>
              cases h
              exact .handled hbegin hout (removePending_rests _ _ _) rfl hlive
            | spinning => cases h

end Runtime

/-- **What an input does.** -/
theorem Journal.call_spec {f : Formats} {j : Journal} {input : RuntimeInput} {r' : Runtime}
    {report : Report} (h : j.call f input = some (r', report)) :
    Runtime.Call f j.runtime input r' report := by
  cases input with
  | tick env =>
    simp only [call, Runtime.tickOnce] at h
    refine Runtime.drive_call (fun hhealthy hdropped => ?_) nofun h
    simp [Runtime.event?, hhealthy, hdropped]
  | receive message env =>
    simp only [call, Runtime.receive] at h
    cases hvalid : j.runtime.validateMessage message with
    | error e =>
      simp only [hvalid, Option.some.injEq, Prod.mk.injEq] at h
      obtain ⟨rfl, rfl⟩ := h
      exact .idle (.refl _) rfl rfl rfl rfl nofun
    | ok u =>
      simp only [hvalid, Runtime.step] at h
      refine Runtime.drive_call (fun hhealthy hdropped => ?_) nofun h
      have hok : (j.runtime.validateMessage message).isOk = true := by rw [hvalid]; rfl
      simp [Runtime.event?, hok, hhealthy, hdropped]
  | propose command env =>
    simp only [call] at h
    exact Runtime.propose_call h
  | giveUp index id =>
    simp only [call, Option.some.injEq, Prod.mk.injEq] at h
    obtain ⟨rfl, rfl⟩ := h
    exact .idle (Runtime.removePending_rests _ _ _) rfl rfl rfl rfl nofun
  | restart d =>
    simp only [call] at h
    split at h
    · cases h
    · next d' r hopen =>
      cases h
      exact .restart rfl hopen rfl

/-! ## Runs from an empty directory -/

/-- The formats of `store.rs` and `command.rs`. The texts of the errors are left empty. -/
def jsonFormats : Formats where
  delta := jsonDelta
  command := jsonCommand
  storeText := fun _ => ""
  addrText := fun _ => ""

/-- A run of a process that starts on an empty directory. -/
def Journal.runFresh (f : Formats) (config : NodeConfig) (ok : Journal → RuntimeInput → Bool)
    (inputs : List RuntimeInput) : Option Journal :=
  match Runtime.open f config Dir.empty with
  | (_, .error _) => none
  | (_, .ok r) => (Journal.start r).run f ok inputs

theorem Journal.exists_of_runFresh {f : Formats} {config : NodeConfig}
    {ok : Journal → RuntimeInput → Bool} {inputs : List RuntimeInput} {p : Journal → Bool}
    (h : (runFresh f config ok inputs).any p = true) :
    ∃ d r j, Runtime.open f config Dir.empty = (d, .ok r) ∧
      (Journal.start r).run f ok inputs = some j ∧ p j = true := by
  unfold runFresh at h
  split at h
  · cases h
  · next d r hopen =>
    obtain ⟨j, hj, hp⟩ := (Option.any_eq_true _ _).1 h
    exact ⟨d, r, j, hopen, hj, hp⟩

/-- Node `id` of three. -/
def trioConfig (consensus : Config) (id : NodeId) : NodeConfig where
  nodeId := id
  consensus := { consensus with id := id }
  raftAddr := ⟨[127, 0, 0, 1], 19091 + UInt16.ofNat id⟩
  peers := ⟨[0, 1, 2], by decide⟩
  peerAddr := fun id => ⟨[127, 0, 0, 1], 19091 + UInt16.ofNat id⟩

end Cloud9
