import Cloud9.Node.Format
import Cloud9.Raft.Batch

/-!
# What a Raft message takes on the wire

`transport.rs` sends a message as compact JSON (`Cloud9.Node.Format`) and drops it if that is longer
than 2 MiB.

`raft_config` allows one entry per message, so that an append request carries two at most
(`Leader.length_batch`). A command that `KvService` lets through takes less than 820000 bytes in an
entry (`KvCommand.weight_toJson`), most of them for the value: at most 12 for each of its 65536
bytes. So two entries fit (`append_request_fits`).
-/

namespace Cloud9

/-- `raft_config`. -/
def raftConfig (nodeId : NodeId) : Config :=
  { Config.new nodeId with parallelDiskWrite := false, maxEntriesPerMsg := 1 }

def maxRaftMessageBytes : ℕ := 2 * 1024 * 1024

/-- The limit in `post_raft_message_inner`. -/
def limitBody (body : List UInt8) : Except String (List UInt8) :=
  if body.length > maxRaftMessageBytes then
    .error "encoded Raft message exceeds 2097152-byte limit"
  else .ok body

theorem limitBody_eq_ok {encoded body : List UInt8} : limitBody encoded = .ok body ↔
    encoded.length ≤ maxRaftMessageBytes ∧ encoded = body := by
  unfold limitBody
  split_ifs with h
  · simp only [false_iff, not_and]
    omega
  · simp only [Except.ok.injEq, iff_and_self]
    omega

/-- `post_raft_message_inner` up to where the body is signed and written to the peer. -/
def raftMessageBody (message : Message) : Except String (List UInt8) := limitBody message.toJson

example : raftMessageBody ⟨0, 1, 7, .voteResponse ⟨true⟩⟩ = .ok (Json.utf8
    ("\x7b\"from\":0,\"to\":1,\"term\":7," ++
      "\"payload\":\x7b\"VoteResponse\":\x7b\"granted\":true\x7d\x7d\x7d")) := by
  decide +kernel

/-! ## Commands -/

/-- The checks that `KvService` makes before it proposes a command; `apply_put` and `apply_delete`
make them again. -/
def KvCommand.validate : KvCommand → Except ConnectError Unit
  | .registerSession => .ok ()
  | .readBarrier => .ok ()
  | .put clientId sequence nameSpace key body ifMatch ifNoneMatch => do
    let _ ← KvState.checkPut clientId sequence nameSpace key body ifMatch ifNoneMatch
  | .delete clientId sequence nameSpace key ifMatch => do
    let _ ← KvState.checkDelete clientId sequence nameSpace key ifMatch

theorem KvName.size_of_new {nameSpace key : String} {name : KvName}
    (h : KvName.new nameSpace key = .ok name) :
    nameSpace.utf8ByteSize ≤ 255 ∧ key.utf8ByteSize ≤ 1024 := by
  unfold KvName.new at h
  split_ifs at h with _ hspace _ hkey
  exact ⟨Nat.not_lt.1 hspace, Nat.not_lt.1 hkey⟩

theorem size_of_validateEtag {etag : String} (h : validateEtag etag = .ok ()) :
    etag.utf8ByteSize ≤ 128 := by
  unfold validateEtag at h
  split_ifs at h with hlong
  exact Nat.not_lt.1 hlong

theorem length_of_validateValue {body : List UInt8} (h : validateValue body = .ok ()) :
    body.length ≤ 65536 := by
  unfold validateValue at h
  split_ifs at h with hlong
  exact Nat.not_lt.1 hlong

theorem weight_u64 (n : UInt64) : Json.cost Json.weight (Json.decimal n.toNat) ≤ 60 :=
  @Json.weight_decimal n.toNat 20 (by decide) (Nat.lt_trans n.toNat_lt (by decide))

/-- The sizes of a put that has passed the checks. -/
theorem KvState.size_of_checkPut {clientId sequence : UInt64} {nameSpace key ifMatch : String}
    {body : List UInt8} {ifNoneMatch : Bool} {name : KvName}
    (h : checkPut clientId sequence nameSpace key body ifMatch ifNoneMatch = .ok name) :
    nameSpace.utf8ByteSize ≤ 255 ∧ key.utf8ByteSize ≤ 1024 ∧ body.length ≤ 65536 ∧
      ifMatch.utf8ByteSize ≤ 128 := by
  obtain ⟨_, _, hrest⟩ := bind_eq_ok.1 h
  obtain ⟨_, hpreconditions, hrest⟩ := bind_eq_ok.1 hrest
  obtain ⟨_, hvalue, hname⟩ := bind_eq_ok.1 hrest
  obtain ⟨_, hetag, _⟩ := bind_eq_ok.1 hpreconditions
  obtain ⟨hspace, hkey⟩ := KvName.size_of_new hname
  exact ⟨hspace, hkey, length_of_validateValue hvalue, size_of_validateEtag hetag⟩

/-- The sizes of a delete that has passed the checks. -/
theorem KvState.size_of_checkDelete {clientId sequence : UInt64} {nameSpace key ifMatch : String}
    {name : KvName} (h : checkDelete clientId sequence nameSpace key ifMatch = .ok name) :
    nameSpace.utf8ByteSize ≤ 255 ∧ key.utf8ByteSize ≤ 1024 ∧ ifMatch.utf8ByteSize ≤ 128 := by
  obtain ⟨_, _, hrest⟩ := bind_eq_ok.1 h
  obtain ⟨_, hetag, hname⟩ := bind_eq_ok.1 hrest
  obtain ⟨hspace, hkey⟩ := KvName.size_of_new hname
  exact ⟨hspace, hkey, size_of_validateEtag hetag⟩

/-- A variant of an enum. -/
theorem weight_tagged {tag : String} (htag : tag.utf8ByteSize ≤ 16) (value : List UInt8) :
    Json.cost Json.weight (Json.object [(tag, value)]) ≤ Json.cost Json.weight value + 340 := by
  have hobject := @Json.weight_object [(tag, value)] [tag] rfl
    fun s hs => by rwa [List.mem_singleton.1 hs]
  simp only [List.map_cons, List.map_nil, List.sum_cons, List.sum_nil, List.length_cons,
    List.length_nil] at hobject
  omega

/-- What a command takes in an entry, as the bytes of an array. -/
theorem KvCommand.weight_toJson {command : KvCommand} (h : command.validate = .ok ()) :
    Json.cost Json.weight command.toJson ≤ 820000 := by
  cases command with
  | registerSession => exact (Json.weight_string _).trans (by decide)
  | readBarrier => exact (Json.weight_string _).trans (by decide)
  | put clientId sequence nameSpace key body ifMatch ifNoneMatch =>
    obtain ⟨name, hcheck, _⟩ := bind_eq_ok.1 h
    obtain ⟨hspace, hkey, hbody, hmatch⟩ := KvState.size_of_checkPut hcheck
    have hclient := weight_u64 clientId
    have hsequence := weight_u64 sequence
    have hspace' := Json.weight_string nameSpace
    have hkey' := Json.weight_string key
    have hbody' := Json.weight_bytes body
    have hmatch' := Json.weight_string ifMatch
    have hnone := Json.weight_bool ifNoneMatch
    refine (weight_tagged (by decide) _).trans ?_
    refine (Nat.add_le_add_right (@Json.weight_object _ ["client_id", "sequence", "namespace",
      "key", "body", "if_match", "if_none_match"] rfl (by decide)) _).trans ?_
    simp only [List.map_cons, List.map_nil, List.sum_cons, List.sum_nil, List.length_cons,
      List.length_nil]
    omega
  | delete clientId sequence nameSpace key ifMatch =>
    obtain ⟨name, hcheck, _⟩ := bind_eq_ok.1 h
    obtain ⟨hspace, hkey, hmatch⟩ := KvState.size_of_checkDelete hcheck
    have hclient := weight_u64 clientId
    have hsequence := weight_u64 sequence
    have hspace' := Json.weight_string nameSpace
    have hkey' := Json.weight_string key
    have hmatch' := Json.weight_string ifMatch
    refine (weight_tagged (by decide) _).trans ?_
    refine (Nat.add_le_add_right (@Json.weight_object _ ["client_id", "sequence", "namespace",
      "key", "if_match"] rfl (by decide)) _).trans ?_
    simp only [List.map_cons, List.map_nil, List.sum_cons, List.sum_nil, List.length_cons,
      List.length_nil]
    omega

/-! ## Messages -/

theorem length_u64 {n : ℕ} (h : n < 2 ^ 64) : (Json.decimal n).length ≤ 20 :=
  Json.length_decimal (by decide) (Nat.lt_trans h (by decide))

/-- An entry with a command that `KvService` has let through. -/
structure Entry.Accepted (e : Entry) : Prop where
  term : e.term < 2 ^ 64
  index : e.index < 2 ^ 64
  payload : ∃ command : KvCommand, command.validate = .ok () ∧ e.payload = .command command.toJson

theorem Entry.Accepted.length_toJson {e : Entry} (h : e.Accepted) : e.toJson.length ≤ 821000 := by
  obtain ⟨command, hvalid, hpayload⟩ := h.payload
  have hweight := KvCommand.weight_toJson hvalid
  have hbytes := Json.length_bytes_le command.toJson
  have hcommand := @Json.length_object [("Command", Json.bytes command.toJson)] ["Command"] rfl
    (by decide)
  have hentry := @Json.length_object
    [("term", Json.decimal e.term), ("index", Json.decimal e.index),
    ("payload", e.payload.toJson)] ["term", "index", "payload"] rfl (by decide)
  have hterm := length_u64 h.term
  have hindex := length_u64 h.index
  rw [← EntryPayload.toJson, ← hpayload] at hcommand
  simp only [List.map_cons, List.map_nil, List.sum_cons, List.sum_nil, List.length_cons,
    List.length_nil] at hcommand hentry
  unfold Entry.toJson
  omega

/-- A request with at most two entries. -/
theorem AppendRequest.length_toJson {req : AppendRequest} (hprev : req.prevLogIndex < 2 ^ 64)
    (hterm : req.prevLogTerm < 2 ^ 64) (hcommit : req.leaderCommit < 2 ^ 64)
    (hlength : req.entries.length ≤ 2) (hentries : ∀ e ∈ req.entries, e.Accepted) :
    req.toJson.length ≤ 1643000 := by
  have harray : (Json.array (req.entries.map Entry.toJson)).length ≤
      821001 * (req.entries.map Entry.toJson).length + 2 := by
    refine Json.length_array fun item hitem => ?_
    obtain ⟨e, he, rfl⟩ := List.mem_map.1 hitem
    exact (hentries e he).length_toJson
  have hobject := @Json.length_object [("prev_log_index", Json.decimal req.prevLogIndex),
    ("prev_log_term", Json.decimal req.prevLogTerm),
    ("entries", Json.array (req.entries.map Entry.toJson)),
    ("leader_commit", Json.decimal req.leaderCommit)]
    ["prev_log_index", "prev_log_term", "entries", "leader_commit"] rfl (by decide)
  have hprev' := length_u64 hprev
  have hterm' := length_u64 hterm
  have hcommit' := length_u64 hcommit
  rw [List.length_map] at harray
  simp only [List.map_cons, List.map_nil, List.sum_cons, List.sum_nil, List.length_cons,
    List.length_nil] at hobject
  unfold AppendRequest.toJson
  omega

theorem Message.length_toJson {m : Message} {req : AppendRequest} (hfrom : m.from < 2 ^ 64)
    (hto : m.to < 2 ^ 64) (hterm : m.term < 2 ^ 64) (hpayload : m.payload = .appendRequest req)
    (hreq : req.toJson.length ≤ 1643000) : m.toJson.length ≤ maxRaftMessageBytes := by
  have htagged := @Json.length_object [("AppendRequest", req.toJson)] ["AppendRequest"] rfl
    (by decide)
  have hobject := @Json.length_object [("from", Json.decimal m.from), ("to", Json.decimal m.to),
    ("term", Json.decimal m.term), ("payload", m.payload.toJson)] ["from", "to", "term", "payload"]
    rfl (by decide)
  have hfrom' := length_u64 hfrom
  have hto' := length_u64 hto
  have hterm' := length_u64 hterm
  rw [← Payload.toJson, ← hpayload] at htagged
  simp only [List.map_cons, List.map_nil, List.sum_cons, List.sum_nil, List.length_cons,
    List.length_nil] at htagged hobject
  unfold Message.toJson maxRaftMessageBytes
  omega

/-! ## What a leader sends -/

theorem Log.termAt_lt {log : Log} {b : ℕ} (hb : 0 < b) (hsnapshot : log.snapshotTerm < b)
    (hentries : ∀ e ∈ log.entries, e.term < b) (index : ℕ) : log.termAt index < b := by
  unfold Log.termAt
  split_ifs
  · exact hb
  · exact hsnapshot
  · cases hget : (log.toVecIndex index).bind (log.entries[·]?) with
    | none => exact hb
    | some e =>
      obtain ⟨i, _, hi⟩ := Option.bind_eq_some_iff.1 hget
      exact hentries e (List.mem_of_getElem? hi)

/-- The numbers that `send_append_to` puts into a request, apart from those of the entries, are
`u64`. -/
structure Leader.Within64 (l : Leader) (core : Core) (peer : NodeId) : Prop where
  id : core.id < 2 ^ 64
  target : peer < 2 ^ 64
  term : core.term < 2 ^ 64
  commitIndex : core.commitIndex < 2 ^ 64
  snapshotTerm : core.log.snapshotTerm < 2 ^ 64
  nextIndex : (l.nextIndex peer).getD 1 < 2 ^ 64

/-- A slice is no longer than its bounds say, if the log does not end before its snapshot. -/
theorem Log.length_slice_le {log : Log}
    (hlog : log.entries = [] ∨ log.snapshotIndex < log.lastIndex)
    {first : ℕ} (hfirst : log.snapshotIndex < first) (last : ℕ) :
    (log.slice first last).length ≤ last + 1 - first := by
  unfold Log.slice
  rw [Nat.max_eq_left (Nat.succ_le_of_lt hfirst)]
  dsimp only
  split_ifs with hempty
  · exact Nat.zero_le _
  obtain ⟨hle, hne⟩ := not_or.1 hempty
  have hlast := hlog.resolve_left hne
  rw [Log.toVecIndex, if_neg (by omega), Log.toVecIndex, if_neg (by omega)]
  simp only [Option.map_some, Option.getD_some]
  split_ifs
  · exact Nat.zero_le _
  · rw [List.length_drop, List.length_take]
    omega

/-- Under `raft_config` a batch has two entries at most. -/
theorem Leader.length_batch {core : Core} (hconfig : core.config = raftConfig core.id)
    (hlog : core.log.entries = [] ∨ core.log.snapshotIndex < core.log.lastIndex) {next : ℕ}
    (hnext : core.log.snapshotIndex < next) :
    (core.log.slice next (batchEnd core next)).length ≤ 2 := by
  have hend : batchEnd core next ≤ next + 1 := by
    refine (Nat.min_le_left _ _).trans ?_
    rw [hconfig]
    exact Nat.mod_le _ _
  have hlength := Log.length_slice_le hlog hnext (batchEnd core next)
  omega

/-- **Every append request fits the transport.** Under `raft_config`, a request to a peer from a log
of commands that `KvService` has let through is never dropped for its size. The log may have gaps,
but it does not end before its snapshot. -/
theorem append_request_fits (l : Leader) {core : Core} {peer : NodeId}
    (hconfig : core.config = raftConfig core.id)
    (hlog : core.log.entries = [] ∨ core.log.snapshotIndex < core.log.lastIndex)
    (h64 : l.Within64 core peer) (hentries : ∀ e ∈ core.log.entries, e.Accepted) :
    ∀ m ∈ (l.sendAppendTo64 core peer).2.messages,
      m.toJson.length ≤ maxRaftMessageBytes ∧ raftMessageBody m = .ok m.toJson := by
  intro m hm
  have hfits : m.toJson.length ≤ maxRaftMessageBytes := by
    unfold Leader.sendAppendTo64 at hm
    rcases Nat.lt_or_ge core.log.snapshotIndex ((l.nextIndex peer).getD 1) with hsnap | hsnap
    · rw [if_neg (Nat.not_le.2 hsnap)] at hm
      obtain rfl := List.mem_singleton.1 hm
      refine Message.length_toJson h64.id h64.target h64.term rfl
        (AppendRequest.length_toJson ?_ ?_ h64.commitIndex
          (Leader.length_batch hconfig hlog hsnap)
          fun e he => hentries e (Log.mem_of_mem_slice he))
      · exact Nat.lt_of_le_of_lt (Nat.sub_le _ _) h64.nextIndex
      · dsimp only
        split_ifs
        · exact h64.snapshotTerm
        · exact Log.termAt_lt (by decide) h64.snapshotTerm (fun e he => (hentries e he).term) _
    · rw [if_pos hsnap] at hm
      cases hm
  exact ⟨hfits, if_neg (Nat.not_lt.2 hfits)⟩

/-- A put with an escaped control character in its key. -/
def tabbedPut : KvCommand := .put 1 1 "n" "\t\x01" [0, 255] "" true

/-- A leader of nodes 0 and 1 with two commands in its log. -/
def twoCommands : Core :=
  Core.restore (raftConfig 0)
    { Core.initialPersistent [0, 1] with
      term := 1
      log := { Log.empty with
        entries := [⟨1, 1, .command KvCommand.registerSession.toJson⟩,
          ⟨1, 2, .command tabbedPut.toJson⟩] } }

/-- Both entries are sent to a peer that has none, in one message. -/
theorem append_request_fits_two :
    let l := { Leader.initial twoCommands with nextIndex := IndexMap.empty.insert 1 1 }
    let m : Message := ⟨0, 1, 1, .appendRequest ⟨0, 0, twoCommands.log.entries, 0⟩⟩
    (l.sendAppendTo64 twoCommands 1).2.messages = [m] ∧ twoCommands.log.entries.length = 2 ∧
      raftMessageBody m = .ok m.toJson := by
  intro l m
  have hsent : (l.sendAppendTo64 twoCommands 1).2.messages = [m] := by decide +kernel
  have haccepted : ∀ e ∈ twoCommands.log.entries, e.Accepted := by
    intro e he
    rcases List.mem_cons.1 he with rfl | he
    · exact ⟨by decide, by decide, .registerSession, rfl, rfl⟩
    · obtain rfl := List.mem_singleton.1 he
      exact ⟨by decide, by decide, tabbedPut, by decide +kernel, rfl⟩
  have h64 : l.Within64 twoCommands 1 :=
    ⟨by decide, by decide, by decide, by decide, by decide, by decide⟩
  have hfits := append_request_fits l rfl (.inr (by decide)) h64 haccepted m
    (by rw [hsent]; exact List.mem_singleton.2 rfl)
  exact ⟨hsent, rfl, hfits.2⟩

end Cloud9
