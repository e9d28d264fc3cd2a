import Cloud9.Lib.Completeness
import Cloud9.Lib.Trace
import Cloud9.Node.Acknowledge
import Cloud9.Node.ConfigFile
import Cloud9.Node.Durability
import Cloud9.Node.Etag
import Cloud9.Node.Failed
import Cloud9.Node.Linearize
import Cloud9.Node.Retries
import Cloud9.Node.Robust
import Cloud9.Node.Standstill
import Cloud9.Node.Transport
import Cloud9.Node.Wire
import Cloud9.Raft.Admission
import Cloud9.Raft.Ballot
import Cloud9.Raft.Broadcast
import Cloud9.Raft.CommitTurns
import Cloud9.Raft.Compaction
import Cloud9.Raft.ConfigChain
import Cloud9.Raft.Install
import Cloud9.Raft.JointChange
import Cloud9.Raft.LeaderHint
import Cloud9.Raft.ReadCoordinator
import Cloud9.Raft.ReadIndex
import Cloud9.Raft.Reconfiguration
import Cloud9.Raft.Redelivery
import Cloud9.Raft.Repair
import Cloud9.Raft.Safety
import Cloud9.Raft.SessionTracker
import Cloud9.Raft.Stale
import Cloud9.Raft.StepDown
import Cloud9.Wal.Accounting
import Cloud9.Wal.Corruption
