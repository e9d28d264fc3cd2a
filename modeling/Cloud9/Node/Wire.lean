import Cloud9.Node.Auth
import Cloud9.Node.Linearize
import Cloud9.Node.Transport

/-!
# The service on the wire

`transport.rs`: a message is posted to its peer as signed JSON, and the peer takes it in if the
signature is valid, the body is a message, and the message is from another node of the cluster and
for this one.

Here the network belongs to an attacker, who gives any request to any node. Of the signatures only
one thing is assumed: a body that is accepted with one is the body of a message that some node has
sent (`PeerTransport.posted`). Then the attacker can lose, repeat, reorder and redirect messages,
which the network of `Cloud9.Node.Fleet` does anyway, and nothing else: the states that the service
can reach are the same (`wire_exact`). The limit on the size does not keep a message that fits from
being delivered. So the service is linearizable also then (`wire_linearizable`).

The format is a parameter: of `serde_json` only that it decodes what it has encoded is used, and of
the headers only that a hexadecimal text is read as it was written.
-/

namespace Cloud9

/-! ## Requests -/

/-- `POST /raft/message`: the header `x-cloud9-raft-signature` and the body. -/
structure RaftRequest where
  signature : Option (List UInt8)
  body : List UInt8

inductive StatusCode where
  | noContent
  | badRequest
  | unauthorized
  | payloadTooLarge
  | internalServerError
  deriving DecidableEq

abbrev Reply := Except (StatusCode × String) StatusCode

def MessageError.text : MessageError → String
  | .wrongRecipient expected actual => s!"Raft message addressed to {actual}, expected {expected}"
  | .unknownSender sender => s!"Raft message sender {sender} is not in the cluster"
  | .selfMessage => "Raft message claims this node as its sender"

/-- What the transports of all nodes have in common. The format of the messages, what `to_str` makes
of a header, and the texts of the errors of `serde_json` and of the limit on bodies are outside the
model. -/
structure PeerTransport where
  key : RaftKey
  mac : Mac
  format : Serializer Message
  headerText : List UInt8 → Option (List UInt8)
  headerText_hex : ∀ bytes, headerText (encodeHex bytes) = some (encodeHex bytes)
  errorText : List UInt8 → String

namespace PeerTransport

/-- `post_raft_message_inner`, up to where the request is written to the peer. -/
def post (t : PeerTransport) (message : Message) : Except String RaftRequest :=
  match t.format.encode message with
  | none => .error "encoding Raft message"
  | some encoded => match limitBody encoded with
    | .error e => .error e
    | .ok body => match t.key.signature t.mac body with
      | none => .error "signing Raft message"
      | some signature => .ok ⟨some signature, body⟩

/-- `receive_raft`, up to where it has a message. -/
def accept (t : PeerTransport) (request : RaftRequest) : Except (StatusCode × String) Message :=
  if request.body.length > maxRaftMessageBytes then
    .error (.payloadTooLarge, t.errorText request.body)
  else match request.signature.bind t.headerText with
    | none => .error (.unauthorized, "missing Raft signature")
    | some signature =>
      if !t.key.verify t.mac request.body signature then
        .error (.unauthorized, "invalid Raft signature")
      else match t.format.decode request.body with
        | none => .error (.badRequest, "invalid Raft message: " ++ t.errorText request.body)
        | some message => .ok message

end PeerTransport

/-- A call that is dropped has no reply. -/
def CallResult.reply (f : Formats) : CallResult → Option Reply
  | .done => some (.ok .noContent)
  | .rejected e => some (.error (.badRequest, e.text))
  | .error e => some (.error (.internalServerError, e.text f))
  | _ => none

/-- `receive_raft`: the message that the runtime was given, if there was one, and the reply. -/
def Runtime.receiveRaft (f : Formats) (t : PeerTransport) (r : Runtime) (request : RaftRequest)
    (env : CallEnv) : Option (Runtime × Option (Message × Report) × Option Reply) :=
  match t.accept request with
  | .error e => some (r, none, some (.error e))
  | .ok message => (r.receive f message env).map fun (r, report) =>
    (r, some (message, report), report.result.reply f)

/-! ## The network -/

inductive WireInput where
  /-- Anything but a message. -/
  | call (input : ServiceInput)
  | deliver (id : NodeId) (request : RaftRequest) (env : CallEnv)

def ServiceInput.isReceive : ServiceInput → Bool
  | .receive .. => true
  | _ => false

namespace Service

/-- A runtime takes in a message, whether one was sent or not. -/
def take (s : Service) (id : NodeId) (message : Message) (env : CallEnv) (r : Runtime)
    (report : Report) : Service :=
  { s with
    fleet := s.fleet.next id ((s.fleet.nodes id).next (.receive message env) r report) report
    calls := s.calls.map (OpenCall.hear id report.applied) }

def deliver (f : Formats) (t : PeerTransport) (s : Service) (id : NodeId) (request : RaftRequest)
    (env : CallEnv) : Option Service :=
  ((s.fleet.nodes id).runtime.receiveRaft f t request env).map fun (r, given, _) =>
    match given with
    | none => s
    | some (message, report) => s.take id message env r report

def wireStep (f : Formats) (t : PeerTransport) (s : Service) : WireInput → Option Service
  | .call input => if input.isReceive then none else s.step f input
  | .deliver id request env => s.deliver f t id request env

end Service

/-- The message can be encoded and is not too large. -/
def PeerTransport.fits (t : PeerTransport) (message : Message) : Bool :=
  (t.format.encode message).any fun body => decide (body.length ≤ maxRaftMessageBytes)

/-- The body is that of a message that was sent. -/
def PeerTransport.posted (t : PeerTransport) (fl : Fleet) (body : List UInt8) : Bool :=
  fl.sent.any fun m => t.fits m && decide (t.format.encode m = some body)

namespace Service

/-- Signatures are not forged, and what they let through is allowed. -/
def wireOk (t : PeerTransport) (ok : Service → ServiceInput → Bool) (s : Service) :
    WireInput → Bool
  | .call input => ok s input
  | .deliver id request env => match t.accept request with
    | .error _ => true
    | .ok message => t.posted s.fleet request.body && ok s (.receive id message env)

def wireRun (f : Formats) (t : PeerTransport) (ok : Service → ServiceInput → Bool) (s : Service)
    (inputs : List WireInput) : Option Service :=
  runWhile (wireStep f t) (wireOk t ok) s inputs

/-- Only messages that fit are delivered. -/
def fits (t : PeerTransport) (_ : Service) : ServiceInput → Bool
  | .receive _ message _ => t.fits message
  | _ => true

end Service

/-! ## Messages are taken in as they were sent -/

namespace PeerTransport

variable {t : PeerTransport} {request : RaftRequest} {m : Message}

theorem decode_of_accept (h : t.accept request = .ok m) :
    t.format.decode request.body = some m := by
  unfold accept at h
  split_ifs at h
  split at h
  · cases h
  · split_ifs at h
    split at h
    · cases h
    · next hm =>
      cases h
      exact hm

theorem exists_of_fits (h : t.fits m = true) : ∃ body, t.format.encode m = some body ∧
    body.length ≤ maxRaftMessageBytes := by
  obtain ⟨body, hbody, hsize⟩ := (Option.any_eq_true _ _).1 h
  exact ⟨body, hbody, of_decide_eq_true hsize⟩

/-- A message that fits is posted, and taken in as it was sent. -/
theorem exists_post (h : t.fits m = true) : ∃ request, t.post m = .ok request ∧
    t.format.encode m = some request.body ∧ t.accept request = .ok m := by
  obtain ⟨body, hbody, hsize⟩ := exists_of_fits h
  have hlimit := limitBody_eq_ok.2 ⟨hsize, rfl⟩
  have hverify : t.key.verify t.mac body (encodeHex (t.mac.digest t.key.bytes body)) = true :=
    RaftKey.verify_eq_true.2 (map_asciiLower_encodeHex _)
  refine ⟨⟨some (encodeHex (t.mac.digest t.key.bytes body)), body⟩, ?_, hbody, ?_⟩
  · simp only [post, hbody, hlimit, RaftKey.signature]
  · simp only [accept, if_neg (Nat.not_lt.2 hsize), Option.bind_some, t.headerText_hex, hverify,
      Bool.not_true, Bool.false_eq_true, if_false, t.format.decode_of_encode hbody]

/-- An authentic body is taken in as the message that was sent. -/
theorem mem_of_posted {fl : Fleet} (haccept : t.accept request = .ok m)
    (hposted : t.posted fl request.body = true) : m ∈ fl.sent ∧ t.fits m = true := by
  obtain ⟨m', hmem, hm'⟩ := List.any_eq_true.1 hposted
  obtain ⟨hfits, hbody⟩ := Bool.and_eq_true_iff.1 hm'
  have hread := decode_of_accept haccept
  rw [t.format.decode_of_encode (of_decide_eq_true hbody)] at hread
  cases hread
  exact ⟨hmem, hfits⟩

theorem posted_of_mem {fl : Fleet} (hmem : m ∈ fl.sent) (hfits : t.fits m = true)
    (hbody : t.format.encode m = some request.body) : t.posted fl request.body = true :=
  List.any_eq_true.2 ⟨m, hmem, Bool.and_eq_true_iff.2 ⟨hfits, decide_eq_true hbody⟩⟩

end PeerTransport

/-! ## The network delivers messages that were sent, and nothing else -/

namespace Service

variable {f : Formats} {t : PeerTransport} {ok : Service → ServiceInput → Bool} {s s' : Service}

/-- A request with a message that was sent delivers the message. -/
theorem deliver_eq {request : RaftRequest} {m : Message} (haccept : t.accept request = .ok m)
    (hmem : m ∈ s.fleet.sent) (id : NodeId) (env : CallEnv) :
    s.deliver f t id request env = s.step f (.receive id m env) := by
  have hposs : s.fleet.possible f id (.receive m env) = true := decide_eq_true hmem
  simp only [deliver, Runtime.receiveRaft, haccept, step, drive, Fleet.perform, hposs, if_true,
    Option.map_map]
  rfl

theorem wireStep_refines {input : WireInput} (hok : wireOk t ok s input = true)
    (hstep : s.wireStep f t input = some s') :
    ∃ inputs, Service.run f (fun s i => ok s i && s.fits t i) s inputs = some s' := by
  cases input with
  | call input =>
    simp only [wireStep] at hstep
    split_ifs at hstep with hreceive
    have hfits : s.fits t input = true := by
      cases input with
      | receive => exact absurd rfl hreceive
      | _ => rfl
    exact ⟨[input], runWhile_cons.2 ⟨Bool.and_eq_true_iff.2 ⟨hok, hfits⟩, s', hstep, rfl⟩⟩
  | deliver id request env =>
    simp only [wireOk] at hok
    cases haccept : t.accept request with
    | error e =>
      simp only [wireStep, deliver, Runtime.receiveRaft, haccept, Option.map_some,
        Option.some.injEq] at hstep
      exact ⟨[], congrArg some hstep⟩
    | ok m =>
      rw [haccept] at hok
      obtain ⟨hposted, hok⟩ := Bool.and_eq_true_iff.1 hok
      obtain ⟨hmem, hfits⟩ := PeerTransport.mem_of_posted haccept hposted
      have hstep : s.deliver f t id request env = some s' := hstep
      rw [deliver_eq haccept hmem] at hstep
      exact ⟨[.receive id m env], runWhile_cons.2
        ⟨Bool.and_eq_true_iff.2 ⟨hok, hfits⟩, s', hstep, rfl⟩⟩

theorem step_wired {input : ServiceInput} (hok : (ok s input && s.fits t input) = true)
    (hstep : s.step f input = some s') : ∃ inputs, s.wireRun f t ok inputs = some s' := by
  obtain ⟨hok, hfits⟩ := Bool.and_eq_true_iff.1 hok
  by_cases hreceive : input.isReceive = true
  · cases input with
    | receive id m env =>
      have hmem : m ∈ s.fleet.sent := by
        simp only [step, drive, Option.map_eq_some_iff, Prod.exists] at hstep
        obtain ⟨fl', report, hperform, -⟩ := hstep
        exact of_decide_eq_true (Fleet.perform_eq_some.1 hperform).1
      obtain ⟨request, -, hbody, haccept⟩ := PeerTransport.exists_post hfits
      refine ⟨[.deliver id request env], runWhile_cons.2 ⟨?_, s', ?_, rfl⟩⟩
      · simp only [wireOk, haccept, PeerTransport.posted_of_mem hmem hfits hbody, hok,
          Bool.and_self]
      · exact (deliver_eq haccept hmem id env).trans hstep
    | _ => cases hreceive
  · exact ⟨[.call input], runWhile_cons.2 ⟨hok, s', (if_neg hreceive).trans hstep, rfl⟩⟩

end Service

/-- **An attacker who cannot forge signatures is the network.** Whatever requests are given to the
nodes, the service reaches the states that it reaches with the messages that were sent. -/
theorem wire_exact (D : Deployment) (f : Formats) (t : PeerTransport)
    (ok : Service → ServiceInput → Bool) (s : Service) :
    (∃ inputs, Service.wireRun f t ok (Service.init D) inputs = some s) ↔
      ∃ inputs, Service.run f (fun s i => ok s i && s.fits t i) (Service.init D) inputs =
        some s := by
  constructor
  · rintro ⟨inputs, hrun⟩
    exact runWhile_refine Service.wireStep_refines hrun
  · rintro ⟨inputs, hrun⟩
    exact runWhile_refine Service.step_wired hrun

/-- **The service is linearizable on a network that belongs to an attacker**, in every run in which
accepted append requests are verified and keep the terms of waiting proposals. -/
theorem wire_linearizable (D : Deployment) (f : Formats) (t : PeerTransport)
    {inputs : List WireInput} {s : Service}
    (hrun : Service.wireRun f t Service.orderly (Service.init D) inputs = some s) :
    kvObject.Linearizable s.history := by
  obtain ⟨inputs', hrun'⟩ := runWhile_refine Service.wireStep_refines hrun
  obtain ⟨g, h⟩ := Service.explained_run (runWhile_and.1 hrun').1
  exact ⟨_, h.decides.linearizes⟩

/-- A digest of zeros, and a key. -/
def zeroTransport : PeerTransport where
  key := ⟨List.replicate 32 0, rfl⟩
  mac := ⟨fun _ _ => List.replicate 32 0, fun _ _ => rfl⟩
  format := jsonMessage
  headerText := some
  headerText_hex := fun _ => rfl
  errorText := fun _ => ""

/-- Node 0 is elected by node 2 and registers a session with it. -/
def registerJson : List ServiceInput :=
  [.tick 0 {}, .receive 2 ⟨0, 2, 1, .voteRequest ⟨0, 0⟩⟩ {},
    .receive 0 ⟨2, 0, 1, .voteResponse ⟨true⟩⟩ {}, .invoke 0 .registerSession {},
    .receive 2 ⟨0, 2, 1, .appendRequest
      ⟨0, 0, [⟨1, 1, .command KvCommand.registerSession.toJson⟩], 0⟩⟩ {},
    .receive 0 ⟨2, 0, 1, .appendResponse ⟨true, 1⟩⟩ {}, .resume 0 1]

theorem wire_linearizable_trio : ∃ inputs s,
    Service.wireRun jsonFormats zeroTransport Service.orderly
      (Service.init trioDeployment) inputs = some s ∧
    s.history = sequential [⟨0, .registerSession, .ok (.registerSession ⟨1⟩)⟩] ∧
    kvObject.Linearizable s.history := by
  have hrun : (Service.run jsonFormats (fun s i => s.orderly i && s.fits zeroTransport i)
      (Service.init trioDeployment) registerJson).any (fun s => decide (s.history =
        sequential [⟨0, .registerSession, .ok (.registerSession ⟨1⟩)⟩])) = true := by
    decide +kernel
  obtain ⟨s, hs, hfacts⟩ := (Option.any_eq_true _ _).1 hrun
  obtain ⟨inputs, hwire⟩ := runWhile_refine Service.step_wired hs
  exact ⟨inputs, s, hwire, of_decide_eq_true hfacts, wire_linearizable trioDeployment _ _ hwire⟩

end Cloud9
