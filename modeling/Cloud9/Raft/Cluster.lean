import Cloud9.Lib.Run
import Cloud9.Raft.Node

/-!
# A cluster of nodes

The environment the nodes run in. A cluster is the nodes, what each of them has on disk, and
every message ever emitted. A step lets one node make one call of its API. What the call asks
for is done at once: the persistent state is written when the effects ask for it, and then the
messages are released. A released message can be delivered at any later step, any number of
times or never, so loss, duplication and reordering need no transitions of their own.

The nodes need not be voters: `nodes` is total, and a node outside the voter list runs too.
-/

namespace Cloud9

structure Cluster where
  nodes : NodeId → RaftNode
  /-- The persistent state each node would be restored from. -/
  saved : NodeId → Persistent
  /-- All messages emitted so far. -/
  sent : List Message

/-- One call of one node's API, or a crash followed by a restart. -/
inductive Input where
  | tick (id : NodeId)
  | deliver (msg : Message)
  | diskWriteComplete (id : NodeId) (index : ℕ)
  | propose (id : NodeId) (cmd : Command)
  | proposeConfigChange (id : NodeId) (change : ConfigChange)
  | requestReadIndex (id : NodeId)
  | transferLeadership (id target : NodeId)
  | advance (id : NodeId) (appliedTo : ℕ)
  | restart (id : NodeId)

/-- The node that acts. -/
def Input.node : Input → NodeId
  | .tick id => id
  | .deliver msg => msg.to
  | .diskWriteComplete id _ => id
  | .propose id _ => id
  | .proposeConfigChange id _ => id
  | .requestReadIndex id => id
  | .transferLeadership id _ => id
  | .advance id _ => id
  | .restart id => id

namespace Cluster

/-- A cluster started from one voter list; `configs` gives every node the rest of its static
configuration. -/
def init (configs : NodeId → Config) (voters : List NodeId) : Cluster where
  nodes := fun id => RaftNode.new { configs id with id := id } voters
  saved := fun _ => Core.initialPersistent voters
  sent := []

/-- Node `id` made a call: save if asked to, then release the messages. -/
def apply (c : Cluster) (id : NodeId) (r : RaftNode × Effects) : Cluster where
  nodes := Function.update c.nodes id r.1
  saved := if r.2.persist then Function.update c.saved id r.1.persistent else c.saved
  sent := c.sent ++ r.2.messages

/-- The effects of a call that can be refused: a refused call has none. -/
def effectsOf {ε : Type} : Except ε (ℕ × Effects) → Effects
  | .ok (_, effects) => effects
  | .error _ => Effects.none

/-- The call an input makes, and what it comes to. An input that cannot happen has no result: a
message that was never emitted, a disk write beyond what is on disk, a call that dies in an
assertion. -/
def call (c : Cluster) : Input → Option (RaftNode × Effects)
  | .tick id => some (c.nodes id).tick
  | .deliver msg => if msg ∈ c.sent then some ((c.nodes msg.to).step msg) else none
  | .diskWriteComplete id index =>
    if index ≤ (c.saved id).log.lastIndex then some ((c.nodes id).diskWriteComplete index) else none
  | .propose id cmd => ((c.nodes id).propose cmd).map fun (n, r) => (n, effectsOf r)
  | .proposeConfigChange id change =>
    let (n, r) := (c.nodes id).proposeConfigChange change
    some (n, effectsOf r)
  | .requestReadIndex id =>
    let (n, r) := (c.nodes id).requestReadIndex
    some (n, effectsOf r)
  | .transferLeadership id target =>
    match (c.nodes id).transferLeadership target with
    | .ok effects => some (c.nodes id, effects)
    | .error _ => some (c.nodes id, Effects.none)
  | .advance id appliedTo => some ((c.nodes id).advance appliedTo, Effects.none)
  | .restart id => some (RaftNode.restore (c.nodes id).core.config (c.saved id), Effects.none)

/-- One step. -/
def step (c : Cluster) (input : Input) : Option Cluster := (c.call input).map (c.apply input.node)

/-- Run a list of inputs, each of which is allowed in the state it meets. -/
def run (ok : Cluster → Input → Bool) (c : Cluster) (inputs : List Input) : Option Cluster :=
  runWhile step ok c inputs

end Cluster

/-- No configuration change is proposed. -/
def Input.isFixed : Input → Bool
  | .proposeConfigChange .. => false
  | _ => true

end Cloud9
