import Cloud9.Lib.JsonDecode
import Cloud9.Node.Command
import Cloud9.Raft.Event

/-!
# The JSON of messages and commands

The encoders follow the derived `Serialize` of the source's types: a struct is an object with its
fields in order, an enum is tagged by the name of the variant, and a newtype is what it wraps. A
command is written as JSON when it is proposed, those bytes are an array of numbers in the entry,
and the message with its entries is JSON again.

What `serde_json` makes of other bytes than these is outside the model. The runtime, the store and
the transport take their formats as parameters, of which they use that what was encoded is decoded
(`Serializer`). The decoders here show that the JSON of the program is such a format for all values
with numbers of 64 bits, which is what the source's types say (`jsonMessage`, `jsonCommand`).
-/

namespace Cloud9

open Json (Decodes Value)
open Json.Value (u64 uint64 byte toBool text list option struct enum unit newtype)

/-! ## Encoding -/

def KvCommand.toJson : KvCommand → List UInt8
  | .registerSession => Json.string "RegisterSession"
  | .readBarrier => Json.string "ReadBarrier"
  | .put clientId sequence nameSpace key body ifMatch ifNoneMatch =>
    Json.object [("Put", Json.object [
      ("client_id", Json.decimal clientId.toNat),
      ("sequence", Json.decimal sequence.toNat),
      ("namespace", Json.string nameSpace),
      ("key", Json.string key),
      ("body", Json.bytes body),
      ("if_match", Json.string ifMatch),
      ("if_none_match", Json.bool ifNoneMatch)])]
  | .delete clientId sequence nameSpace key ifMatch =>
    Json.object [("Delete", Json.object [
      ("client_id", Json.decimal clientId.toNat),
      ("sequence", Json.decimal sequence.toNat),
      ("namespace", Json.string nameSpace),
      ("key", Json.string key),
      ("if_match", Json.string ifMatch)])]

/-- `btreeset_as_vec`. -/
def nodesToJson (nodes : OrdSet NodeId) : List UInt8 := Json.array (nodes.toList.map Json.decimal)

def Configuration.toJson : Configuration → List UInt8
  | .simple voters learners =>
    Json.object [("Simple", Json.object [
      ("voters", nodesToJson voters),
      ("learners", nodesToJson learners)])]
  | .joint old new learners =>
    Json.object [("Joint", Json.object [
      ("old", nodesToJson old),
      ("new", nodesToJson new),
      ("learners", nodesToJson learners)])]

def EntryPayload.toJson : EntryPayload → List UInt8
  | .command cmd => Json.object [("Command", Json.bytes cmd)]
  | .config configuration => Json.object [("Config", configuration.toJson)]

def Entry.toJson (e : Entry) : List UInt8 :=
  Json.object [
    ("term", Json.decimal e.term),
    ("index", Json.decimal e.index),
    ("payload", e.payload.toJson)]

def AppendRequest.toJson (req : AppendRequest) : List UInt8 :=
  Json.object [
    ("prev_log_index", Json.decimal req.prevLogIndex),
    ("prev_log_term", Json.decimal req.prevLogTerm),
    ("entries", Json.array (req.entries.map Entry.toJson)),
    ("leader_commit", Json.decimal req.leaderCommit)]

def Payload.toJson : Payload → List UInt8
  | .preVoteRequest req => Json.object [("PreVoteRequest", Json.object [
      ("next_term", Json.decimal req.nextTerm),
      ("last_log_index", Json.decimal req.lastLogIndex),
      ("last_log_term", Json.decimal req.lastLogTerm)])]
  | .preVoteResponse resp => Json.object [("PreVoteResponse", Json.object [
      ("term", Json.decimal resp.term),
      ("granted", Json.bool resp.granted)])]
  | .voteRequest req => Json.object [("VoteRequest", Json.object [
      ("last_log_index", Json.decimal req.lastLogIndex),
      ("last_log_term", Json.decimal req.lastLogTerm)])]
  | .voteResponse resp => Json.object [("VoteResponse", Json.object [
      ("granted", Json.bool resp.granted)])]
  | .appendRequest req => Json.object [("AppendRequest", req.toJson)]
  | .appendResponse resp => Json.object [("AppendResponse", Json.object [
      ("success", Json.bool resp.success),
      ("last_log_index", Json.decimal resp.lastLogIndex)])]
  | .installSnapshotRequest req => Json.object [("InstallSnapshotRequest", Json.object [
      ("last_included_index", Json.decimal req.lastIncludedIndex),
      ("last_included_term", Json.decimal req.lastIncludedTerm),
      ("configuration", req.configuration.toJson)])]
  | .installSnapshotResponse resp => Json.object [("InstallSnapshotResponse", Json.object [
      ("success", Json.bool resp.success),
      ("last_included_index", Json.decimal resp.lastIncludedIndex)])]
  | .readIndexRequest req => Json.object [("ReadIndexRequest", Json.object [
      ("id", Json.decimal req.id),
      ("read_index", Json.decimal req.readIndex)])]
  | .readIndexResponse resp => Json.object [("ReadIndexResponse", Json.object [
      ("id", Json.decimal resp.id),
      ("read_index", Json.decimal resp.readIndex)])]
  | .timeoutNow => Json.string "TimeoutNow"

def Message.toJson (message : Message) : List UInt8 :=
  Json.object [
    ("from", Json.decimal message.from),
    ("to", Json.decimal message.to),
    ("term", Json.decimal message.term),
    ("payload", message.payload.toJson)]

/-! ## Decoding -/

/-- `btreeset_as_vec`. -/
def nodesOfJson (v : Value) : Option (OrdSet NodeId) := (v.list u64).map OrdSet.ofList

def Configuration.ofJson : Value → Option Configuration :=
  enum [
    ("Simple", newtype (struct (.cons "voters" nodesOfJson (.one "learners" nodesOfJson)))
      fun p => .simple p.1 p.2),
    ("Joint", newtype (struct (.cons "old" nodesOfJson (.cons "new" nodesOfJson
      (.one "learners" nodesOfJson)))) fun p => .joint p.1 p.2.1 p.2.2)]

def EntryPayload.ofJson : Value → Option EntryPayload :=
  enum [
    ("Command", newtype (list byte) .command),
    ("Config", newtype Configuration.ofJson .config)]

def Entry.ofJson (v : Value) : Option Entry :=
  (v.struct (.cons "term" u64 (.cons "index" u64 (.one "payload" EntryPayload.ofJson)))).map
    fun p => ⟨p.1, p.2.1, p.2.2⟩

def PreVoteRequest.ofJson (v : Value) : Option PreVoteRequest :=
  (v.struct (.cons "next_term" u64 (.cons "last_log_index" u64 (.one "last_log_term" u64)))).map
    fun p => ⟨p.1, p.2.1, p.2.2⟩

def PreVoteResponse.ofJson (v : Value) : Option PreVoteResponse :=
  (v.struct (.cons "term" u64 (.one "granted" toBool))).map fun p => ⟨p.1, p.2⟩

def VoteRequest.ofJson (v : Value) : Option VoteRequest :=
  (v.struct (.cons "last_log_index" u64 (.one "last_log_term" u64))).map fun p => ⟨p.1, p.2⟩

def VoteResponse.ofJson (v : Value) : Option VoteResponse :=
  (v.struct (.one "granted" toBool)).map fun granted => ⟨granted⟩

def AppendRequest.ofJson (v : Value) : Option AppendRequest :=
  (v.struct (.cons "prev_log_index" u64 (.cons "prev_log_term" u64
    (.cons "entries" (list Entry.ofJson) (.one "leader_commit" u64))))).map
      fun p => ⟨p.1, p.2.1, p.2.2.1, p.2.2.2⟩

def AppendResponse.ofJson (v : Value) : Option AppendResponse :=
  (v.struct (.cons "success" toBool (.one "last_log_index" u64))).map fun p => ⟨p.1, p.2⟩

def InstallSnapshotRequest.ofJson (v : Value) : Option InstallSnapshotRequest :=
  (v.struct (.cons "last_included_index" u64 (.cons "last_included_term" u64
    (.one "configuration" Configuration.ofJson)))).map fun p => ⟨p.1, p.2.1, p.2.2⟩

def InstallSnapshotResponse.ofJson (v : Value) : Option InstallSnapshotResponse :=
  (v.struct (.cons "success" toBool (.one "last_included_index" u64))).map fun p => ⟨p.1, p.2⟩

def ReadIndexRequest.ofJson (v : Value) : Option ReadIndexRequest :=
  (v.struct (.cons "id" u64 (.one "read_index" u64))).map fun p => ⟨p.1, p.2⟩

def ReadIndexResponse.ofJson (v : Value) : Option ReadIndexResponse :=
  (v.struct (.cons "id" u64 (.one "read_index" u64))).map fun p => ⟨p.1, p.2⟩

def Payload.ofJson : Value → Option Payload :=
  enum [
    ("PreVoteRequest", newtype PreVoteRequest.ofJson .preVoteRequest),
    ("PreVoteResponse", newtype PreVoteResponse.ofJson .preVoteResponse),
    ("VoteRequest", newtype VoteRequest.ofJson .voteRequest),
    ("VoteResponse", newtype VoteResponse.ofJson .voteResponse),
    ("AppendRequest", newtype AppendRequest.ofJson .appendRequest),
    ("AppendResponse", newtype AppendResponse.ofJson .appendResponse),
    ("InstallSnapshotRequest", newtype InstallSnapshotRequest.ofJson .installSnapshotRequest),
    ("InstallSnapshotResponse", newtype InstallSnapshotResponse.ofJson .installSnapshotResponse),
    ("ReadIndexRequest", newtype ReadIndexRequest.ofJson .readIndexRequest),
    ("ReadIndexResponse", newtype ReadIndexResponse.ofJson .readIndexResponse),
    ("TimeoutNow", unit .timeoutNow)]

def Message.ofJson (v : Value) : Option Message :=
  (v.struct (.cons "from" u64 (.cons "to" u64 (.cons "term" u64
    (.one "payload" Payload.ofJson))))).map fun p => ⟨p.1, p.2.1, p.2.2.1, p.2.2.2⟩

def KvCommand.ofJson : Value → Option KvCommand :=
  enum [
    ("RegisterSession", unit .registerSession),
    ("ReadBarrier", unit .readBarrier),
    ("Put", newtype (struct (.cons "client_id" uint64 (.cons "sequence" uint64
      (.cons "namespace" text (.cons "key" text (.cons "body" (list byte)
        (.cons "if_match" text (.one "if_none_match" toBool))))))))
      fun p => .put p.1 p.2.1 p.2.2.1 p.2.2.2.1 p.2.2.2.2.1 p.2.2.2.2.2.1 p.2.2.2.2.2.2),
    ("Delete", newtype (struct (.cons "client_id" uint64 (.cons "sequence" uint64
      (.cons "namespace" text (.cons "key" text (.one "if_match" text))))))
      fun p => .delete p.1 p.2.1 p.2.2.1 p.2.2.2.1 p.2.2.2.2)]

/-! ## Numbers -/

def Configuration.numbers : Configuration → List ℕ
  | .simple voters learners => voters.toList ++ learners.toList
  | .joint old new learners => old.toList ++ new.toList ++ learners.toList

def Entry.numbers (e : Entry) : List ℕ :=
  e.term :: e.index :: match e.payload with
    | .command _ => []
    | .config configuration => configuration.numbers

def Payload.numbers : Payload → List ℕ
  | .preVoteRequest req => [req.nextTerm, req.lastLogIndex, req.lastLogTerm]
  | .preVoteResponse resp => [resp.term]
  | .voteRequest req => [req.lastLogIndex, req.lastLogTerm]
  | .voteResponse _ => []
  | .appendRequest req =>
    req.prevLogIndex :: req.prevLogTerm :: req.leaderCommit :: req.entries.flatMap Entry.numbers
  | .appendResponse resp => [resp.lastLogIndex]
  | .installSnapshotRequest req =>
    req.lastIncludedIndex :: req.lastIncludedTerm :: req.configuration.numbers
  | .installSnapshotResponse resp => [resp.lastIncludedIndex]
  | .readIndexRequest req => [req.id, req.readIndex]
  | .readIndexResponse resp => [resp.id, resp.readIndex]
  | .timeoutNow => []

def Message.numbers (m : Message) : List ℕ := m.from :: m.to :: m.term :: m.payload.numbers

/-- All numbers are `u64`. -/
def Fits64 (numbers : List ℕ) : Prop := ∀ n ∈ numbers, n < 2 ^ 64

instance (numbers : List ℕ) : Decidable (Fits64 numbers) :=
  inferInstanceAs (Decidable (∀ n ∈ numbers, n < 2 ^ 64))

theorem fits64_cons {n : ℕ} {ns : List ℕ} : Fits64 (n :: ns) ↔ n < 2 ^ 64 ∧ Fits64 ns :=
  List.forall_mem_cons

theorem fits64_append {ns ns' : List ℕ} : Fits64 (ns ++ ns') ↔ Fits64 ns ∧ Fits64 ns' :=
  List.forall_mem_append

theorem fits64_flatMap {α : Type*} {f : α → List ℕ} {as : List α} :
    Fits64 (as.flatMap f) ↔ ∀ a ∈ as, Fits64 (f a) :=
  ⟨fun h a ha n hn => h n (List.mem_flatMap.2 ⟨a, ha, hn⟩), fun h n hn => by
    obtain ⟨a, ha, hn⟩ := List.mem_flatMap.1 hn
    exact h a ha n hn⟩

/-! ## What is written is decoded -/

theorem decodes_nodes {nodes : OrdSet NodeId} (h : Fits64 nodes.toList) :
    Decodes (nodesToJson nodes) nodesOfJson nodes :=
  (Json.decodes_list fun n hn => Json.decodes_u64 (h n hn)).map
    (OrdSet.ext_mem fun _ => OrdSet.mem_ofList)

theorem Configuration.decodes {c : Configuration} (h : Fits64 c.numbers) :
    Decodes c.toJson ofJson c := by
  cases c with
  | simple voters learners =>
    obtain ⟨hvoters, hlearners⟩ := fits64_append.1 h
    exact Json.decodes_newtype rfl (Json.decodes_struct
      (.cons _ (decodes_nodes hvoters) (.one _ (decodes_nodes hlearners))) (by decide) rfl) rfl
  | joint old new learners =>
    obtain ⟨hvoters, hlearners⟩ := fits64_append.1 h
    obtain ⟨hold, hnew⟩ := fits64_append.1 hvoters
    exact Json.decodes_newtype rfl (Json.decodes_struct (.cons _ (decodes_nodes hold)
      (.cons _ (decodes_nodes hnew) (.one _ (decodes_nodes hlearners)))) (by decide) rfl) rfl

theorem Entry.decodes {e : Entry} (h : Fits64 e.numbers) : Decodes e.toJson ofJson e := by
  obtain ⟨term, index, payload⟩ := e
  obtain ⟨hterm, hindex, hpayload⟩ := fits64_cons.1 h |>.imp_right fits64_cons.1
  have hdecodes : Decodes payload.toJson EntryPayload.ofJson payload := by
    cases payload with
    | command cmd => exact Json.decodes_newtype rfl (Json.decodes_bytes cmd) rfl
    | config configuration => exact Json.decodes_newtype rfl (Configuration.decodes hpayload) rfl
  exact Json.decodes_record (.cons _ (Json.decodes_u64 hterm) (.cons _ (Json.decodes_u64 hindex)
    (.one _ hdecodes))) (by decide) rfl rfl

theorem AppendRequest.decodes {req : AppendRequest}
    (h : Fits64 (Payload.appendRequest req).numbers) : Decodes req.toJson ofJson req := by
  simp only [Payload.numbers, fits64_cons, fits64_flatMap] at h
  obtain ⟨hprev, hterm, hcommit, hentries⟩ := h
  exact Json.decodes_record (.cons _ (Json.decodes_u64 hprev) (.cons _ (Json.decodes_u64 hterm)
    (.cons _ (Json.decodes_list fun e he => Entry.decodes (hentries e he))
      (.one _ (Json.decodes_u64 hcommit))))) (by decide) rfl rfl

theorem Payload.decodes {p : Payload} (h : Fits64 p.numbers) : Decodes p.toJson ofJson p := by
  cases p with
  | preVoteRequest req =>
    simp only [numbers, fits64_cons] at h
    obtain ⟨hnext, hindex, hterm, -⟩ := h
    exact Json.decodes_newtype rfl (Json.decodes_record (.cons _ (Json.decodes_u64 hnext)
      (.cons _ (Json.decodes_u64 hindex) (.one _ (Json.decodes_u64 hterm))))
      (by decide) rfl rfl) rfl
  | preVoteResponse resp =>
    exact Json.decodes_newtype rfl (Json.decodes_record (.cons _
      (Json.decodes_u64 (fits64_cons.1 h).1) (.one _ (Json.decodes_bool resp.granted)))
      (by decide) rfl rfl) rfl
  | voteRequest req =>
    simp only [numbers, fits64_cons] at h
    obtain ⟨hindex, hterm, -⟩ := h
    exact Json.decodes_newtype rfl (Json.decodes_record (.cons _ (Json.decodes_u64 hindex)
      (.one _ (Json.decodes_u64 hterm))) (by decide) rfl rfl) rfl
  | voteResponse resp =>
    exact Json.decodes_newtype rfl (Json.decodes_record (.one _ (Json.decodes_bool resp.granted))
      (by decide) rfl rfl) rfl
  | appendRequest req => exact Json.decodes_newtype rfl (AppendRequest.decodes h) rfl
  | appendResponse resp =>
    exact Json.decodes_newtype rfl (Json.decodes_record (.cons _ (Json.decodes_bool resp.success)
      (.one _ (Json.decodes_u64 (fits64_cons.1 h).1))) (by decide) rfl rfl) rfl
  | installSnapshotRequest req =>
    simp only [numbers, fits64_cons] at h
    obtain ⟨hindex, hterm, hconfiguration⟩ := h
    exact Json.decodes_newtype rfl (Json.decodes_record (.cons _ (Json.decodes_u64 hindex)
      (.cons _ (Json.decodes_u64 hterm) (.one _ (Configuration.decodes hconfiguration))))
      (by decide) rfl rfl) rfl
  | installSnapshotResponse resp =>
    exact Json.decodes_newtype rfl (Json.decodes_record (.cons _ (Json.decodes_bool resp.success)
      (.one _ (Json.decodes_u64 (fits64_cons.1 h).1))) (by decide) rfl rfl) rfl
  | readIndexRequest req =>
    simp only [numbers, fits64_cons] at h
    obtain ⟨hid, hindex, -⟩ := h
    exact Json.decodes_newtype rfl (Json.decodes_record (.cons _ (Json.decodes_u64 hid)
      (.one _ (Json.decodes_u64 hindex))) (by decide) rfl rfl) rfl
  | readIndexResponse resp =>
    simp only [numbers, fits64_cons] at h
    obtain ⟨hid, hindex, -⟩ := h
    exact Json.decodes_newtype rfl (Json.decodes_record (.cons _ (Json.decodes_u64 hid)
      (.one _ (Json.decodes_u64 hindex))) (by decide) rfl rfl) rfl
  | timeoutNow => exact Json.decodes_unit rfl

theorem Message.decodes {m : Message} (h : Fits64 m.numbers) : Decodes m.toJson ofJson m := by
  simp only [numbers, fits64_cons] at h
  obtain ⟨hfrom, hto, hterm, hpayload⟩ := h
  exact Json.decodes_record (.cons _ (Json.decodes_u64 hfrom) (.cons _ (Json.decodes_u64 hto)
    (.cons _ (Json.decodes_u64 hterm) (.one _ (Payload.decodes hpayload))))) (by decide) rfl rfl

theorem KvCommand.decodes (command : KvCommand) : Decodes command.toJson ofJson command := by
  cases command with
  | registerSession => exact Json.decodes_unit rfl
  | readBarrier => exact Json.decodes_unit rfl
  | put clientId sequence nameSpace key body ifMatch ifNoneMatch =>
    exact Json.decodes_newtype rfl (Json.decodes_struct (.cons _ (Json.decodes_uint64 clientId)
      (.cons _ (Json.decodes_uint64 sequence) (.cons _ (Json.decodes_text nameSpace)
        (.cons _ (Json.decodes_text key) (.cons _ (Json.decodes_bytes body)
          (.cons _ (Json.decodes_text ifMatch) (.one _ (Json.decodes_bool ifNoneMatch))))))))
      (by decide) rfl) rfl
  | delete clientId sequence nameSpace key ifMatch =>
    exact Json.decodes_newtype rfl (Json.decodes_struct (.cons _ (Json.decodes_uint64 clientId)
      (.cons _ (Json.decodes_uint64 sequence) (.cons _ (Json.decodes_text nameSpace)
        (.cons _ (Json.decodes_text key) (.one _ (Json.decodes_text ifMatch))))))
      (by decide) rfl) rfl

/-! ## Formats -/

def jsonMessage : Serializer Message :=
  Json.serializer Message.toJson Message.ofJson (fun m => Fits64 m.numbers) fun _ => Message.decodes

def jsonCommand : Serializer KvCommand :=
  Json.serializer KvCommand.toJson KvCommand.ofJson (fun _ => True) fun command _ => command.decodes

end Cloud9
