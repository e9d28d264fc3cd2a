import Cloud9.Lib.Checked
import Cloud9.Raft.Contiguous
import Cloud9.Raft.Leader

/-!
# The leader on machine words

`Cloud9.Raft.Leader` counts in naturals. The source counts in `u64`: the index after the last one,
the end of a batch and the retry index wrap around (a release build does not check them), and
`Log::slice` panics when the last index lies beyond the entries, as it can in a log with gaps. Here
the leader's functions are translated once more with both. Sums are `wrappingAdd`, and a function
that can panic returns an `Option`. The loop of `maybe_commit` gets a number of turns and has no
result if it has not ended by then.

On a contiguous log nothing panics (`broadcastAppend?_of_contiguous`), and where the sums do not
overflow the two leaders send and append the same (`sendAppendTo64_eq`, `appendEntry64_eq`,
`advanceCommitIndex64_eq`).
-/

namespace Cloud9

theorem Log.mem_of_mem_slice {log : Log} {a b : ℕ} {e : Entry} (h : e ∈ log.slice a b) :
    e ∈ log.entries := by
  unfold Log.slice at h
  dsimp only at h
  split_ifs at h
  · cases h
  · split at h
    · cases h
    · split_ifs at h
      · cases h
      · exact List.mem_of_mem_take (List.mem_of_mem_drop h)

namespace Leader

/-! ## Sending -/

/-- The end of the batch, which `Log::slice` includes. -/
def batchEnd (core : Core) (next : ℕ) : ℕ :=
  min (wrappingAdd next core.config.maxEntriesPerMsg) (wrappingAdd core.log.lastIndex 1)

/-- `send_append_to`, with its sums on `u64`. -/
def sendAppendTo64 (l : Leader) (core : Core) (peer : NodeId) : Leader × Effects :=
  let next := (l.nextIndex peer).getD 1
  let snapshotIndex := core.log.snapshotIndex
  if next ≤ snapshotIndex then
    (l, Effects.none.withSendSnapshot
      ⟨peer, snapshotIndex, core.log.snapshotTerm, core.configAt snapshotIndex⟩)
  else
    let prevIndex := next - 1
    let prevTerm := if prevIndex ≤ snapshotIndex ∧ prevIndex > 0 then core.log.snapshotTerm
      else core.log.termAt prevIndex
    let stop := min (wrappingAdd next core.config.maxEntriesPerMsg)
      (wrappingAdd core.log.lastIndex 1)
    let entries := core.log.slice next stop
    let sentUpTo := (entries.getLast?.map fun e => wrappingAdd e.index 1).getD next
    let l := if core.config.pipelining && decide (sentUpTo > next)
      then { l with nextIndex := l.nextIndex.insert peer sentUpTo } else l
    (l, Effects.none.withMessage (core.message peer
      (.appendRequest ⟨prevIndex, prevTerm, entries, core.commitIndex⟩)))

/-- `send_append_to` with the panic of the slice it reads. Where there is none, what it reads is
what `sendAppendTo64` sends (`Log.slice_of_slice?`). -/
def sendAppendTo? (l : Leader) (core : Core) (peer : NodeId) : Option (Leader × Effects) :=
  let next := (l.nextIndex peer).getD 1
  if next ≤ core.log.snapshotIndex then some (l.sendAppendTo64 core peer)
  else (core.log.slice? next (batchEnd core next)).map fun _ => l.sendAppendTo64 core peer

def broadcastAppend? (l : Leader) (core : Core) : Option (Leader × Effects) :=
  (core.effectiveConfig.replicationPeers core.id).foldlM
    (fun r peer => (r.1.sendAppendTo? core peer).map fun s => (s.1, r.2.merge s.2))
    (l, Effects.none)

def reinitProgress64 (l : Leader) (core : Core) : Leader :=
  let lastIndex := core.log.lastIndex
  let nodes := core.effectiveConfig.allNodes
  let matchIndex := nodes.foldl (fun m id => m.orInsert id 0) l.matchIndex
  { l with
    nextIndex := nodes.foldl (fun m id => m.orInsert id (wrappingAdd lastIndex 1)) l.nextIndex
    matchIndex := if core.config.parallelDiskWrite then matchIndex
      else matchIndex.insert core.id lastIndex
    sentIndex := nodes.foldl (fun m id => m.orInsert id 0) l.sentIndex }

/-! ## Committing -/

/-- The indices above the commit index, highest first. -/
def commitCandidates64 (core : Core) : List ℕ :=
  let first := wrappingAdd core.commitIndex 1
  (List.range' first (core.log.lastIndex + 1 - first)).reverse

def advanceCommitIndex64 (l : Leader) (core : Core) : Core :=
  match (commitCandidates64 core).find? (l.committable core) with
  | some candidate => core.setCommitIndex candidate
  | none => core

def appendEntry64 (core : Core) (payload : EntryPayload) : Core :=
  core.setLog (core.log.append ⟨core.term, wrappingAdd core.log.lastIndex 1, payload⟩)

def appendTransitionTarget? (l : Leader) (core : Core) (target : Configuration) :
    Option (Leader × Core × Effects) :=
  let core := appendEntry64 core (.config target)
  ((l.reinitProgress64 core).broadcastAppend? core).map fun r => (r.1, core, r.2.withPersist)

def processConfigs? (l : Leader) (core : Core) :
    List ℕ → Option (Leader × Core × ConfigCommitResult)
  | [] => some (l, core, .done)
  | idx :: rest =>
    match (core.log.get idx).bind fun e => e.payload.asConfig with
    | none => processConfigs? l core rest
    | some cfg =>
      if !cfg.isVoter core.id then some (l, core, .stepDown (l.tryAutoTransfer core cfg))
      else match cfg.transitionTarget with
        | some target =>
          (l.appendTransitionTarget? core target).map fun r => (r.1, r.2.1, .continue r.2.2)
        | none => processConfigs? l core rest

def processCommittedConfigs? (l : Leader) (core : Core) (oldCommit : ℕ) :
    Option (Leader × Core × ConfigCommitResult) :=
  let first := wrappingAdd oldCommit 1
  l.processConfigs? core (List.range' first (core.commitIndex + 1 - first))

/-- The loop of `maybe_commit`: nothing if it has panicked, or has not ended after so many turns. -/
def commitTurns? : ℕ → Leader → Core → Effects → Option (Leader × Core × Effects × Bool)
  | 0, _, _, _ => none
  | turns + 1, l, core, effects =>
    let oldCommit := core.commitIndex
    let core := l.advanceCommitIndex64 core
    if core.commitIndex = oldCommit then some (l, core, effects, false)
    else match l.processCommittedConfigs? core oldCommit with
      | none => none
      | some (l, core, .continue e) => commitTurns? turns l core (effects.merge e)
      | some (l, core, .stepDown e) => some (l, core, effects.merge e, true)
      | some (l, core, .done) => some (l, core, effects, false)

def maybeCommit? (turns : ℕ) (l : Leader) (core : Core) : Option (Leader × Core × Effects × Bool) :=
  commitTurns? turns l core Effects.none

/-! ## Proposals -/

/-- The tail of the two proposal calls, on the core with the new entry: commit, then announce. -/
def publish? (turns : ℕ) (l : Leader) (core : Core) : Option (Leader × Core × Effects × Bool) :=
  (l.maybeCommit? turns core).bind fun r =>
    (r.1.broadcastAppend? r.2.1).map fun s =>
      (s.1, r.2.1, s.2.withPersist.merge r.2.2.1, r.2.2.2)

def propose? (turns : ℕ) (l : Leader) (core : Core) (cmd : Command) :
    Option (Leader × Core × Effects × Bool) :=
  let index := wrappingAdd core.log.lastIndex 1
  let core := appendEntry64 core (.command cmd)
  (l.recordOwnMatch core index).publish? turns core

def proposeConfigChange? (turns : ℕ) (l : Leader) (core : Core) (change : ConfigChange) :
    Option (Except ConfigChangeError (Leader × Core × Effects × Bool)) :=
  match l.checkConfigChange core change with
  | .error e => some (.error e)
  | .ok _ =>
    let newConfig := change.apply core.effectiveConfig core.config.membershipMode
    let index := wrappingAdd core.log.lastIndex 1
    let core := appendEntry64 core (.config newConfig)
    (((l.recordOwnMatch core index).reinitProgress64 core).publish? turns core).map .ok

/-! ## Events -/

def handleDiskWriteComplete? (turns : ℕ) (l : Leader) (core : Core) (index : ℕ) :
    Option (Leader × Core × StepResult) :=
  if index > l.matchIndex.index core.id then
    let l := { l with matchIndex := l.matchIndex.insert core.id index }
    (l.maybeCommit? turns core).map afterCommit
  else some (l, core, .none)

def handleTick? (l : Leader) (core : Core) : Option (Leader × Core × StepResult) :=
  let core := { core with ticks := wrappingAdd core.ticks 1 }
  if core.ticks ≥ l.heartbeatDeadline then
    let l := { l with
      heartbeatDeadline := wrappingAdd core.ticks core.config.heartbeatInterval }
    (l.broadcastAppend? core).map fun r =>
      match r.1.pendingReadIndex with
      | some pending => (r.1, core, .stay (r.2.merge (readIndexRequests core pending)))
      | none => (r.1, core, .stay r.2)
  else some (l, core, .none)

def retryIndex64 (l : Leader) (core : Core) (sender : NodeId) (resp : AppendResponse) : ℕ :=
  let hinted := max (wrappingAdd resp.lastLogIndex 1) 1
  if core.config.pipelining then max hinted (wrappingAdd (l.matchIndex.index sender) 1) else hinted

def handleAppendResponse? (turns : ℕ) (l : Leader) (core : Core) (sender : NodeId)
    (resp : AppendResponse) : Option (Leader × Core × StepResult) :=
  if !core.effectiveConfig.isMember sender then some (l, core, .none)
  else if resp.success then
    let l := { l with
      matchIndex := l.matchIndex.insert sender resp.lastLogIndex
      nextIndex := if core.config.pipelining then l.nextIndex
        else l.nextIndex.insert sender (wrappingAdd resp.lastLogIndex 1) }
    (l.maybeCommit? turns core).map afterCommit
  else
    let l := { l with nextIndex := l.nextIndex.insert sender (l.retryIndex64 core sender resp) }
    (l.sendAppendTo? core sender).map fun r => (r.1, core, .stay r.2)

def handleInstallSnapshotResponse? (turns : ℕ) (l : Leader) (core : Core) (sender : NodeId)
    (resp : InstallSnapshotResponse) : Option (Leader × Core × StepResult) :=
  if !resp.success || !core.effectiveConfig.isMember sender then some (l, core, .none)
  else if resp.lastIncludedIndex ≤ l.matchIndex.index sender then some (l, core, .none)
  else
    let l := { l with
      matchIndex := l.matchIndex.insert sender resp.lastIncludedIndex
      nextIndex := l.nextIndex.insert sender (wrappingAdd resp.lastIncludedIndex 1) }
    (l.maybeCommit? turns core).map afterCommit

def dispatch? (turns : ℕ) (l : Leader) (core : Core) (msg : Message) :
    Option (Leader × Core × StepResult) :=
  match msg.payload with
  | .appendResponse resp => l.handleAppendResponse? turns core msg.from resp
  | .installSnapshotResponse resp => l.handleInstallSnapshotResponse? turns core msg.from resp
  | .readIndexResponse resp => some (l.handleReadIndexResponse msg.from resp, core, .none)
  | .voteRequest _ => some (l, core, handleVoteRequest core msg.from)
  | _ => some (l, core, .none)

def handleMessage? (turns : ℕ) (l : Leader) (core : Core) (msg : Message) :
    Option (Leader × Core × StepResult) :=
  match msg.payload with
  | .preVoteRequest _ => some (l, core, .stay (denyPrevote core msg.from))
  | _ =>
    if msg.term > core.term then
      let leader := if msg.payload.isAppendRequest then some msg.from else none
      some (l, (core.maybeUpdateTerm msg.term).2, .toFollower leader Effects.none.withPersist)
    else if msg.term < core.term then some (l, core, .stay (core.rejectStale msg))
    else l.dispatch? turns core msg

def step? (turns : ℕ) (l : Leader) (core : Core) (event : Event) :
    Option (Leader × Core × StepResult) :=
  match event with
  | .tick => l.handleTick? core
  | .diskWriteComplete index => l.handleDiskWriteComplete? turns core index
  | .message msg => l.handleMessage? turns core msg

/-! ## Against the naturals -/

section

variable {l : Leader} {core : Core} {peer : NodeId}

theorem sendAppendTo64_eq (hlog : core.log.Contiguous)
    (hnext : (l.nextIndex peer).getD 1 + core.config.maxEntriesPerMsg < 2 ^ 64)
    (hlast : core.log.lastIndex + 1 < 2 ^ 64) :
    l.sendAppendTo64 core peer = l.sendAppendTo core peer := by
  have hindex : ∀ next stop, ((core.log.slice next stop).getLast?.map
      fun e => wrappingAdd e.index 1) =
      (core.log.slice next stop).getLast?.map fun e => e.index + 1 := by
    intro next stop
    refine Option.map_congr fun e he => wrappingAdd_of_lt ?_
    have := hlog.index_le (Log.mem_of_mem_slice (List.mem_of_getLast? he))
    omega
  unfold sendAppendTo64 sendAppendTo
  simp only [wrappingAdd_of_lt hnext, wrappingAdd_of_lt hlast, hindex]

theorem sendAppendTo64_matchIndex (l : Leader) (core : Core) (peer : NodeId) :
    (l.sendAppendTo64 core peer).1.matchIndex = l.matchIndex := by
  unfold sendAppendTo64
  dsimp only
  split_ifs <;> rfl

/-- A call that returns has sent what `sendAppendTo64` says. -/
theorem eq_of_sendAppendTo? {r : Leader × Effects} (h : l.sendAppendTo? core peer = some r) :
    r = l.sendAppendTo64 core peer := by
  unfold sendAppendTo? at h
  dsimp only at h
  split_ifs at h
  · exact (Option.some.inj h).symm
  · obtain ⟨_, -, rfl⟩ := Option.map_eq_some_iff.1 h
    rfl

theorem sendAppendTo?_of_contiguous (hlog : core.log.Contiguous) :
    l.sendAppendTo? core peer = some (l.sendAppendTo64 core peer) := by
  unfold sendAppendTo?
  dsimp only
  split_ifs
  · rfl
  · rw [Log.slice?_eq hlog.lastIndex, Option.map_some]

/-- A broadcast is one send after the other; `I` speaks of the peers that have been sent to. -/
theorem broadcastAppend?_induct {I : List NodeId → Leader → Effects → Prop}
    (hsend : ∀ sent l effects peer, I sent l effects →
      I (sent ++ [peer]) (l.sendAppendTo64 core peer).1
        (effects.merge (l.sendAppendTo64 core peer).2))
    {r : Leader × Effects} (hr : l.broadcastAppend? core = some r) (h : I [] l Effects.none) :
    I (core.effectiveConfig.replicationPeers core.id) r.1 r.2 := by
  unfold broadcastAppend? at hr
  generalize core.effectiveConfig.replicationPeers core.id = peers at hr
  suffices hall : ∀ sent (s : Leader × Effects), I sent s.1 s.2 → peers.foldlM (fun r peer =>
      (r.1.sendAppendTo? core peer).map fun s => (s.1, r.2.merge s.2)) s = some r →
      I (sent ++ peers) r.1 r.2 from hall [] _ h hr
  clear hr
  induction peers with
  | nil =>
    rintro sent s hs ⟨⟩
    rwa [List.append_nil]
  | cons peer peers ih =>
    intro sent s hs hfold
    rw [List.foldlM_cons] at hfold
    obtain ⟨_, hone, hrest⟩ := Option.bind_eq_some_iff.1 hfold
    obtain ⟨_, hsent, rfl⟩ := Option.map_eq_some_iff.1 hone
    obtain rfl := eq_of_sendAppendTo? hsent
    rw [List.append_cons]
    exact ih _ _ (hsend _ _ _ _ hs) hrest

theorem broadcastAppend?_of_contiguous (hlog : core.log.Contiguous) :
    ∃ r, l.broadcastAppend? core = some r := by
  unfold broadcastAppend?
  generalize core.effectiveConfig.replicationPeers core.id = peers
  generalize (l, Effects.none) = s
  induction peers generalizing s with
  | nil => exact ⟨s, rfl⟩
  | cons peer peers ih =>
    rw [List.foldlM_cons, sendAppendTo?_of_contiguous hlog]
    exact ih _

theorem broadcastAppend?_matchIndex {r : Leader × Effects} (h : l.broadcastAppend? core = some r) :
    r.1.matchIndex = l.matchIndex :=
  broadcastAppend?_induct (I := fun _ l' _ => l'.matchIndex = l.matchIndex)
    (fun _ l' _ peer h => (l'.sendAppendTo64_matchIndex core peer).trans h) h rfl

theorem appendEntry64_eq (hlast : core.log.lastIndex + 1 < 2 ^ 64) (payload : EntryPayload) :
    appendEntry64 core payload = appendEntry core payload := by
  rw [appendEntry64, wrappingAdd_of_lt hlast, appendEntry]

theorem advanceCommitIndex64_eq (hcommit : core.commitIndex + 1 < 2 ^ 64) :
    l.advanceCommitIndex64 core = l.advanceCommitIndex core := by
  have hfind : (commitCandidates64 core).find? (l.committable core) =
      (commitCandidates core).find? (l.committable core) := by
    rw [commitCandidates64, commitCandidates, wrappingAdd_of_lt hcommit, Nat.add_sub_add_right]
  unfold advanceCommitIndex64 advanceCommitIndex
  generalize (commitCandidates64 core).find? (l.committable core) = found at hfind ⊢
  generalize (commitCandidates core).find? (l.committable core) = found' at hfind ⊢
  subst hfind
  cases found <;> rfl

/-- The search through the committed configurations appends at most one entry. -/
theorem processConfigs?_core {idxs : List ℕ} {r : Leader × Core × ConfigCommitResult}
    (h : l.processConfigs? core idxs = some r) :
    r.2.1 = core ∨ ∃ target, r.2.1 = appendEntry64 core (.config target) := by
  induction idxs with
  | nil =>
    cases h
    exact .inl rfl
  | cons idx rest ih =>
    rw [processConfigs?] at h
    generalize ((core.log.get idx).bind fun e => e.payload.asConfig) = entry at h
    cases entry with
    | none => exact ih h
    | some cfg =>
      dsimp only at h
      split_ifs at h
      · cases h
        exact .inl rfl
      · generalize cfg.transitionTarget = next at h
        cases next with
        | none => exact ih h
        | some target =>
          obtain ⟨_, happend, rfl⟩ := Option.map_eq_some_iff.1 h
          obtain ⟨_, -, rfl⟩ := Option.map_eq_some_iff.1 happend
          exact .inr ⟨target, rfl⟩

/-- The rule for an invariant of the core: it is kept by moving the commit index and by appending a
configuration. -/
theorem commitTurns?_keeps {I : Core → Prop} (hset : ∀ core k, I core → I (core.setCommitIndex k))
    (happend : ∀ core target, I core → I (appendEntry64 core (.config target))) {turns : ℕ}
    {r : Leader × Core × Effects × Bool} : ∀ {l : Leader} {core : Core} {e : Effects},
    commitTurns? turns l core e = some r → I core → I r.2.1 := by
  induction turns with
  | zero => exact fun h => by cases h
  | succ turns ih =>
    intro l core e h hI
    have hadv : I (l.advanceCommitIndex64 core) := by
      unfold advanceCommitIndex64
      split
      · exact hset _ _ hI
      · exact hI
    unfold commitTurns? at h
    dsimp only at h
    split_ifs at h
    · cases h
      exact hadv
    · generalize hout : l.processCommittedConfigs? (l.advanceCommitIndex64 core) core.commitIndex =
        out at h
      cases out with
      | none => cases h
      | some out =>
        have hnext : I out.2.1 := by
          rcases processConfigs?_core hout with hcore | ⟨target, hcore⟩
          · rw [hcore]
            exact hadv
          · rw [hcore]
            exact happend _ _ hadv
        obtain ⟨l', core', result⟩ := out
        cases result with
        | «continue» e' => exact ih h hnext
        | stepDown e' =>
          cases h
          exact hnext
        | done =>
          cases h
          exact hnext

end

end Leader

end Cloud9
