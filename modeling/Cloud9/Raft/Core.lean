import Cloud9.Lib.Checked
import Cloud9.Raft.Event

/-!
# Core state of a node

`core.rs`: the state shared by all roles (configuration of the node, persistent state, commit
index, logical clock, random number generator) and the operations the roles use on it.
-/

namespace Cloud9

/-- Election timeout range in ticks, `[min, max)`. The source accepts any two numbers; the first
draw from an empty range panics, so only ranges with a timeout in them are modelled. -/
structure TimeoutRange where
  min : ℕ
  max : ℕ
  lt : min < max

/-- Static configuration of a node. -/
structure Config where
  id : NodeId
  electionTimeout : TimeoutRange
  heartbeatInterval : ℕ
  maxEntriesPerMsg : ℕ
  maxUncommittedEntries : ℕ
  maxUncommittedBytes : UInt64
  membershipMode : MembershipMode
  prevote : Bool
  parallelDiskWrite : Bool
  pipelining : Bool

/-- `Config::new`: the defaults. -/
def Config.new (id : NodeId) : Config where
  id := id
  electionTimeout := ⟨150, 300, by decide⟩
  heartbeatInterval := 75
  maxEntriesPerMsg := 100
  maxUncommittedEntries := 1024
  maxUncommittedBytes := 64 * 1024 * 1024
  membershipMode := .singleServer
  prevote := true
  parallelDiskWrite := true
  pipelining := true

/-- State that is written to stable storage. -/
structure Persistent where
  term : ℕ
  votedFor : Option NodeId
  log : Log
  /-- The cluster configuration before any log entry. -/
  bootstrapConfig : Configuration
  deriving DecidableEq

structure Core where
  config : Config
  persistent : Persistent
  commitIndex : ℕ
  lastApplied : ℕ
  ticks : ℕ
  rng : UInt64

namespace Core

def seed (id : NodeId) : UInt64 := UInt64.ofNat id * 0x5DEECE66D + 0xB

/-- `Core::restore`: the commit index starts again at 0. -/
def restore (config : Config) (persistent : Persistent) : Core where
  config := config
  persistent := persistent
  commitIndex := 0
  lastApplied := 0
  ticks := 0
  rng := seed config.id

/-- The persistent state of a node that has never run. -/
def initialPersistent (voters : List NodeId) : Persistent where
  term := 0
  votedFor := none
  log := Log.empty
  bootstrapConfig := Configuration.simpleOf voters

def new (config : Config) (voters : List NodeId) : Core := restore config (initialPersistent voters)

def id (c : Core) : NodeId := c.config.id

def term (c : Core) : ℕ := c.persistent.term

def log (c : Core) : Log := c.persistent.log

/-- Replace the log (the writes the source makes through `log_mut`). -/
def setLog (c : Core) (log : Log) : Core :=
  { c with persistent := { c.persistent with log := log } }

def setCommitIndex (c : Core) (index : ℕ) : Core := { c with commitIndex := index }

/-- The command bytes an entry holds; configuration entries hold none. -/
def commandBytes (e : Entry) : Option ℕ :=
  match e.payload with
  | .command cmd => some cmd.length
  | .config _ => none

/-- The entries above the commit index, as the source reads them: `none` is the failed assertion on
the commit index, or the panic of `Log::slice`. -/
def uncommitted (c : Core) : Option (List Entry) :=
  let lastIndex := c.log.lastIndex
  if c.commitIndex ≤ lastIndex then c.log.slice? (wrappingAdd c.commitIndex 1) lastIndex else none

/-- `Core::proposal_limit_exceeded`; `none` where reading the uncommitted entries panics. -/
def proposalLimitExceeded (c : Core) (command : Command) : Option Bool :=
  c.uncommitted.map fun entries =>
    if entries.length ≥ c.config.maxUncommittedEntries then true
    else
      let sizes := entries.filterMap commandBytes ++ [command.length]
      match sizes.foldlM checkedAdd 0 with
      | none => true
      | some bytes => decide (bytes > c.config.maxUncommittedBytes.toNat)

/-- `Core::maybe_update_term`: a higher term is adopted and clears the vote. -/
def maybeUpdateTerm (c : Core) (term : ℕ) : Bool × Core :=
  if term > c.persistent.term then
    (true, { c with persistent := { c.persistent with term := term, votedFor := none } })
  else
    (false, c)

def configAt (c : Core) (index : ℕ) : Configuration :=
  (c.persistent.log.configAt index).getD c.persistent.bootstrapConfig

/-- The latest configuration of the log, committed or not. -/
def effectiveConfig (c : Core) : Configuration := c.configAt c.persistent.log.lastIndex

theorem effectiveConfig_eq {c : Core} (h : c.log.Plain) :
    c.effectiveConfig = (Log.lastConfig c.log.entries).getD c.persistent.bootstrapConfig := by
  have hlog : c.persistent.log.Plain := h
  rw [effectiveConfig, configAt, hlog.configAt, hlog.lastIndex, List.take_length]
  rfl

def pendingConfigIndex (c : Core) : Option ℕ := c.persistent.log.pendingConfigIndex c.commitIndex

def hasPendingConfig (c : Core) : Bool := c.pendingConfigIndex.isSome

theorem not_config_of_not_pending {c : Core} (h : c.hasPendingConfig = false) {e : Entry}
    (he : e ∈ c.log.entries) (hidx : c.commitIndex < e.index) :
    ¬e.payload.isConfig = true := by
  intro hcfg
  have hle : e.index ≤ c.commitIndex := by
    simp only [hasPendingConfig, pendingConfigIndex, Log.pendingConfigIndex, Option.isSome_map,
      Option.isSome_eq_false_iff, Option.isNone_iff_eq_none, List.find?_eq_none] at h
    simpa [hcfg] using h e (List.mem_reverse.2 he)
  omega

def isVoter (c : Core) : Bool := c.effectiveConfig.isVoter c.config.id

/-- `Core::start_election`: a node that is no voter does not vote for itself. -/
def startElection (c : Core) : Core :=
  { c with persistent :=
      { c.persistent with
        term := c.persistent.term + 1
        votedFor := if c.isVoter then some c.config.id else none } }

def voteFor (c : Core) (candidate : NodeId) : Core :=
  { c with persistent := { c.persistent with votedFor := some candidate } }

def canVoteFor (c : Core) (candidate : NodeId) : Bool :=
  c.persistent.votedFor.isNone || c.persistent.votedFor == some candidate

/-- The candidate's log is at least as up to date as ours. -/
def logIsUpToDate (c : Core) (lastTerm lastIndex : ℕ) : Bool :=
  let ourTerm := c.persistent.log.lastTerm
  let ourIndex := c.persistent.log.lastIndex
  decide (ourTerm < lastTerm ∨ ourTerm = lastTerm ∧ ourIndex ≤ lastIndex)

/-- One step of xorshift64. -/
def rand (c : Core) : UInt64 × Core :=
  let x := c.rng ^^^ (c.rng <<< 13)
  let y := x ^^^ (x >>> 7)
  let z := y ^^^ (y <<< 17)
  (z, { c with rng := z })

def randomElectionTimeout (c : Core) : ℕ × Core :=
  let range := c.config.electionTimeout
  let (r, c) := c.rand
  (range.min + r.toNat % (range.max - range.min), c)

/-! ## Replies shared by the roles -/

/-- A message of the node's current term. -/
def message (c : Core) (target : NodeId) (payload : Payload) : Message :=
  ⟨c.id, target, c.term, payload⟩

/-- A (pre-)vote is refused without looking at the request. -/
def denyVote (c : Core) (msg : Message) : Effects :=
  match msg.payload with
  | .preVoteRequest _ =>
    Effects.none.withMessage (c.message msg.from (.preVoteResponse ⟨c.term, false⟩))
  | .voteRequest _ => Effects.none.withMessage (c.message msg.from (.voteResponse ⟨false⟩))
  | _ => Effects.none

/-- The answer to a pre-vote request; it carries the term of the request. -/
def prevoteReply (c : Core) (sender : NodeId) (msgTerm : ℕ) (req : PreVoteRequest) : Effects :=
  let dominated := c.logIsUpToDate req.lastLogTerm req.lastLogIndex
  let candidateIsVoter := c.effectiveConfig.isVoter sender
  let termOk := decide (req.nextTerm > c.term)
  let granted := candidateIsVoter && termOk && dominated
  Effects.none.withMessage ⟨c.id, sender, msgTerm, .preVoteResponse ⟨c.term, granted⟩⟩

/-- The answer to a message of an older term. -/
def rejectStale (c : Core) (msg : Message) : Effects :=
  match msg.payload with
  | .voteRequest _ => Effects.none.withMessage (c.message msg.from (.voteResponse ⟨false⟩))
  | .appendRequest _ =>
    Effects.none.withMessage (c.message msg.from (.appendResponse ⟨false, c.log.lastIndex⟩))
  | _ => Effects.none

end Core

/-- The payloads the guard against disruptive elections looks at. -/
def Payload.isVoteOrPreVoteRequest : Payload → Bool
  | .voteRequest _ | .preVoteRequest _ => true
  | _ => false

def Payload.isAppendRequest : Payload → Bool
  | .appendRequest _ => true
  | _ => false

end Cloud9
