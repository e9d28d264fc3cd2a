import Cloud9.Raft.ReadAction
import Cloud9.Raft.Safety

/-!
# Read-index confirmation

A leader that asks for the read index wants to know that it was still leader at the time it asked.
`Cluster.Confirmed` says what this takes: a quorum of the configuration at the time of the request
has answered requests that were sent since.

`Cluster.Reads` relates the messages of a run to the rounds of the leaders: every answer is an
answer to a request in flight, and a leader's requests carry numbers it has used. With it,
`read_index_confirmed` follows one round along a run (`Round.Tracked`).

The index that is confirmed is remembered, not the round: a second request at the same index is
ready at once (`stale_confirmation`).
-/

namespace Cloud9

/-! ## Requests and answers -/

/-- A response to this request: it copies number and index, and is of the same or a later term. -/
def Message.Answers (resp req : Message) : Prop :=
  ∃ id readIndex, resp.payload = .readIndexResponse ⟨id, readIndex⟩ ∧
    req.payload = .readIndexRequest ⟨id, readIndex⟩ ∧ resp.from = req.to ∧ resp.to = req.from ∧
    req.term ≤ resp.term

/-- A node in this state can have sent requests with this number in this term. -/
def ReadView.Issued (v : ReadView) (term id : ℕ) : Prop :=
  term < v.term ∨ term = v.term ∧
    match v.role with
    | .passive => True
    | .candidate => False
    | .leader next _ _ => id < next

/-- The pending round has a number that was used. -/
def ReadView.Numbered (v : ReadView) : Prop :=
  match v.role with
  | .leader next (some pending) _ => pending.id < next
  | _ => True

/-- The messages of a run fit the rounds of its nodes. -/
structure Cluster.Reads (c : Cluster) : Prop where
  numbered : ∀ id, (c.nodes id).readView.Numbered
  requests : ∀ m ∈ c.sent, ∀ req, m.payload = .readIndexRequest req →
    (c.nodes m.from).readView.Issued m.term req.id
  responses : ∀ m ∈ c.sent, ∀ resp, m.payload = .readIndexResponse resp →
    ∃ req ∈ c.sent, m.Answers req

namespace ReadAction

variable {d : Option Message} {v v' : ReadView} {ms : List Message}

theorem id_eq (h : ReadAction d v v' ms) : v'.id = v.id := by
  cases h <;> rfl

theorem issued (h : ReadAction d v v' ms) {term id : ℕ} (hi : v.Issued term id) :
    v'.Issued term id := by
  cases h with
  | other => exact hi
  | retire _ hle =>
    have : term ≤ v.term := hi.elim Nat.le_of_lt fun h => Nat.le_of_eq h.1
    rcases Nat.lt_or_eq_of_le (Nat.le_trans this hle) with hlt | heq
    · exact .inl hlt
    · exact .inr ⟨heq, trivial⟩
  | campaign =>
    have : term ≤ v.term := hi.elim Nat.le_of_lt fun h => Nat.le_of_eq h.1
    exact .inl (Nat.lt_succ_of_le this)
  | win => exact hi.imp_right fun h => h.2.elim
  | respond => exact hi
  | resend => exact hi
  | request => exact hi.imp_right fun ⟨hterm, hlt⟩ => ⟨hterm, Nat.lt_succ_of_lt hlt⟩
  | alone => exact hi.imp_right fun ⟨hterm, hlt⟩ => ⟨hterm, Nat.lt_succ_of_lt hlt⟩
  | count => exact hi
  | confirm => exact hi

theorem numbered (h : ReadAction d v v' ms) (hv : v.Numbered) : v'.Numbered := by
  cases h with
  | other => exact hv
  | respond => exact hv
  | resend => exact hv
  | request => exact Nat.lt_succ_self _
  | count => exact hv
  | _ => trivial

/-- A request is emitted with a number that was used, by the node itself. -/
theorem request_issued (h : ReadAction d v v' ms) (hv : v.Numbered) {m : Message} (hm : m ∈ ms)
    {req : ReadIndexRequest} (hreq : m.payload = .readIndexRequest req) :
    m.from = v.id ∧ v'.Issued m.term req.id := by
  cases h with
  | other _ _ hunread =>
    have := hunread m hm
    rw [hreq] at this
    cases this
  | respond =>
    rw [List.mem_singleton.1 hm] at hreq
    cases hreq
  | resend id term next pending confirmed =>
    obtain ⟨peer, -, rfl⟩ := List.mem_map.1 hm
    cases hreq
    exact ⟨rfl, .inr ⟨rfl, hv⟩⟩
  | request =>
    obtain ⟨peer, -, rfl⟩ := List.mem_map.1 hm
    cases hreq
    exact ⟨rfl, .inr ⟨rfl, Nat.lt_succ_self _⟩⟩
  | _ => cases hm

/-- A response answers the message that was delivered. -/
theorem response_answers (h : ReadAction d v v' ms) {m : Message} (hm : m ∈ ms)
    {resp : ReadIndexResponse} (hresp : m.payload = .readIndexResponse resp) :
    ∃ msg, d = some msg ∧ (msg.to = v.id → m.Answers msg) := by
  cases h with
  | other _ _ hunread =>
    have := hunread m hm
    rw [hresp] at this
    cases this
  | respond id hd hreq hterm =>
    rw [List.mem_singleton.1 hm]
    exact ⟨_, hd, fun hto => ⟨_, _, rfl, hreq, hto.symm, rfl, hterm⟩⟩
  | resend =>
    obtain ⟨peer, -, rfl⟩ := List.mem_map.1 hm
    cases hresp
  | request =>
    obtain ⟨peer, -, rfl⟩ := List.mem_map.1 hm
    cases hresp
  | _ => cases hm

end ReadAction

/-! ## Messages of a run -/

namespace Cluster

variable {c c' : Cluster}

theorem mem_sent_of_step {input : Input} (hstep : c.step input = some c') {m : Message}
    (hm : m ∈ c.sent) : m ∈ c'.sent := by
  obtain ⟨r, -, rfl⟩ := step_eq_some.1 hstep
  exact List.mem_append_left _ hm

theorem delivered_mem {input : Input} {r : RaftNode × Effects} (hr : c.call input = some r)
    {msg : Message} (hd : input.delivered = some msg) :
    input = .deliver msg ∧ msg ∈ c.sent ∧ msg.to = input.node := by
  cases input with
  | deliver m =>
    cases hd
    simp only [call] at hr
    split_ifs at hr with hmem
    exact ⟨rfl, hmem, rfl⟩
  | _ => cases hd

theorem reads_init (configs : NodeId → Config) (voters : List NodeId) :
    (init configs voters).Reads where
  numbered _ := trivial
  requests _ hm := by cases hm
  responses _ hm := by cases hm

theorem Reads.step (h : c.Reads) (hshaped : c.Shaped) {input : Input}
    (hstep : c.step input = some c') : c'.Reads := by
  obtain ⟨r, hr, rfl⟩ := step_eq_some.1 hstep
  have hid : (c.nodes input.node).readView.id = input.node := (hshaped.nodes input.node).id
  -- Along the call: requests so far have used numbers, responses answer what was delivered.
  let I : ReadView → List Message → Prop := fun v ms => v.id = input.node ∧ v.Numbered ∧
    (∀ m ∈ c.sent ++ ms, m.from = input.node → ∀ req, m.payload = .readIndexRequest req →
      v.Issued m.term req.id) ∧
    (∀ m ∈ ms, ∀ req, m.payload = .readIndexRequest req → m.from = input.node) ∧
    ∀ m ∈ ms, ∀ resp, m.payload = .readIndexResponse resp → ∃ req ∈ c.sent, m.Answers req
  have hI : I r.1.readView r.2.messages := by
    refine Trace.accumulate ?_ ?_ (call_reads hshaped.saved hr) ⟨hid, h.numbered _, ?_, ?_, ?_⟩
    · rintro v v' ms ms' ⟨hvid, hnum, hreq, hfrom, hresp⟩ ha
      refine ⟨ha.id_eq.trans hvid, ha.numbered hnum, fun m hm hmfrom req hpayload => ?_,
        fun m hm req hpayload => ?_, fun m hm resp hpayload => ?_⟩
      · rw [← List.append_assoc] at hm
        rcases List.mem_append.1 hm with hm | hm
        · exact ha.issued (hreq m hm hmfrom req hpayload)
        · exact (ha.request_issued hnum hm hpayload).2
      · rcases List.mem_append.1 hm with hm | hm
        · exact hfrom m hm req hpayload
        · exact (ha.request_issued hnum hm hpayload).1.trans hvid
      · rcases List.mem_append.1 hm with hm | hm
        · exact hresp m hm resp hpayload
        · obtain ⟨msg, hd, hanswers⟩ := ha.response_answers hm hpayload
          obtain ⟨-, hmem, hto⟩ := delivered_mem hr hd
          exact ⟨msg, hmem, hanswers (hto.trans hvid.symm)⟩
    · rintro v ms ms' ⟨hvid, hnum, hreq, hfrom, hresp⟩ hsub
      refine ⟨hvid, hnum, fun m hm => hreq m ?_, fun m hm => hfrom m (hsub hm),
        fun m hm => hresp m (hsub hm)⟩
      rw [List.mem_append] at hm ⊢
      exact hm.imp_right (@hsub m)
    · intro m hm hmfrom req hpayload
      rw [List.append_nil] at hm
      rw [← hmfrom]
      exact h.requests m hm req hpayload
    · exact fun m hm => by cases hm
    · exact fun m hm => by cases hm
  obtain ⟨-, hnum, hreq, hfrom, hresp⟩ := hI
  have hself : ((c.apply input.node r).nodes input.node).readView = r.1.readView := by
    simp only [apply, Function.update_self]
  have hother : ∀ j, j ≠ input.node → (c.apply input.node r).nodes j = c.nodes j :=
    fun j hj => Function.update_of_ne hj _ _
  refine ⟨fun j => ?_, fun m hm req hpayload => ?_, fun m hm resp hpayload => ?_⟩
  · rcases eq_or_ne j input.node with rfl | hj
    · rw [hself]
      exact hnum
    · rw [hother j hj]
      exact h.numbered j
  · rcases eq_or_ne m.from input.node with hmfrom | hmfrom
    · rw [hmfrom, hself]
      exact hreq m hm hmfrom req hpayload
    · rw [hother _ hmfrom]
      rcases List.mem_append.1 hm with hm | hm
      · exact h.requests m hm req hpayload
      · exact absurd (hfrom m hm req hpayload) hmfrom
  · have hmono : ∀ req ∈ c.sent, req ∈ (c.apply input.node r).sent :=
      fun req hreq => List.mem_append_left _ hreq
    rcases List.mem_append.1 hm with hm | hm
    · obtain ⟨req, hmem, hanswers⟩ := h.responses m hm resp hpayload
      exact ⟨req, hmono req hmem, hanswers⟩
    · obtain ⟨req, hmem, hanswers⟩ := hresp m hm resp hpayload
      exact ⟨req, hmono req hmem, hanswers⟩

/-- **In every run** the messages fit the rounds. -/
theorem reads_run {configs : NodeId → Config} {voters : List NodeId} {ok : Cluster → Input → Bool}
    {inputs : List Input} (h : (init configs voters).run ok inputs = some c) : c.Reads := by
  let I : Cluster → Prop := fun c => c.Shaped ∧ c.Reads
  have hinit : I (init configs voters) := ⟨shaped_init configs voters, reads_init configs voters⟩
  exact (runWhile_invariant (fun hI _ hstep => ⟨hI.1.step hstep, hI.2.step hI.1 hstep⟩) hinit h).2

end Cluster

/-! ## One round along a run -/

/-- A round: who asked, in which term, under which number, for which index and in which
configuration. -/
structure Round where
  leader : NodeId
  term : ℕ
  id : ℕ
  readIndex : ℕ
  configuration : Configuration

namespace Round

/-- An answer to the round was delivered. -/
def Acked (ρ : Round) (past : List Input) (voter : NodeId) : Prop :=
  ∃ resp, Input.deliver resp ∈ past ∧ resp.from = voter ∧ resp.to = ρ.leader ∧
    resp.payload = .readIndexResponse ⟨ρ.id, ρ.readIndex⟩ ∧ resp.term = ρ.term

/-- A quorum has answered, the leader included. -/
def Quorum (ρ : Round) (past : List Input) : Prop :=
  ∃ f : NodeId → Bool, ρ.configuration.hasQuorum f = true ∧
    ∀ voter, f voter = true → voter = ρ.leader ∨ ρ.Acked past voter

/-- What is known of the node that asked: it has lost the leadership of the term for good, or it
leads and the round has its quorum, or is still pending. -/
def Tracked (ρ : Round) (past : List Input) (v : ReadView) : Prop :=
  v.id = ρ.leader ∧ (ρ.term < v.term ∨ v.term = ρ.term ∧
    match v.role with
    | .passive => True
    | .candidate => False
    | .leader _ pending confirmed => ρ.Quorum past ∨ confirmed < ρ.readIndex ∧
      ∃ acks, pending = some ⟨ρ.id, ρ.readIndex, ρ.configuration, acks⟩ ∧
        ∀ voter ∈ acks, voter = ρ.leader ∨ ρ.Acked past voter)

variable {ρ : Round} {past : List Input} {v v' : ReadView} {ms : List Message}

theorem Acked.mono {voter : NodeId} (h : ρ.Acked past voter) (input : Input) :
    ρ.Acked (past ++ [input]) voter := by
  obtain ⟨resp, hmem, hrest⟩ := h
  exact ⟨resp, List.mem_append_left _ hmem, hrest⟩

theorem Quorum.mono (h : ρ.Quorum past) (input : Input) : ρ.Quorum (past ++ [input]) := by
  obtain ⟨f, hf, hvoters⟩ := h
  exact ⟨f, hf, fun voter hv => (hvoters voter hv).imp_right fun ha => ha.mono input⟩

theorem Tracked.mono (h : ρ.Tracked past v) (input : Input) : ρ.Tracked (past ++ [input]) v := by
  refine ⟨h.1, h.2.imp_right fun ⟨hterm, hrole⟩ => ⟨hterm, ?_⟩⟩
  split at hrole
  · trivial
  · exact hrole
  · obtain hq | ⟨hlt, acks, hp, hacks⟩ := hrole
    · exact .inl (hq.mono input)
    · exact .inr ⟨hlt, acks, hp, fun voter hv => (hacks voter hv).imp_right fun ha => ha.mono input⟩

/-- A read action keeps track of the round, if the message it is about has been delivered. -/
theorem Tracked.action {d : Option Message}
    (hd : ∀ msg, d = some msg → Input.deliver msg ∈ past ∧ msg.to = ρ.leader)
    (h : ρ.Tracked past v) (ha : ReadAction d v v' ms) : ρ.Tracked past v' := by
  obtain ⟨hid, hcases⟩ := h
  refine ⟨ha.id_eq.trans hid, ?_⟩
  cases ha with
  | other => exact hcases
  | retire _ hle =>
    have hle' : ρ.term ≤ v.term := hcases.elim Nat.le_of_lt fun h => Nat.le_of_eq h.1.symm
    rcases Nat.lt_or_eq_of_le (Nat.le_trans hle' hle) with hlt | heq
    · exact .inl hlt
    · exact .inr ⟨heq.symm, trivial⟩
  | campaign =>
    have hle' : ρ.term ≤ v.term := hcases.elim Nat.le_of_lt fun h => Nat.le_of_eq h.1.symm
    exact .inl (Nat.lt_succ_of_le hle')
  | win => exact hcases.imp_right fun h => h.2.elim
  | respond => exact hcases
  | resend => exact hcases
  | request =>
    refine hcases.imp_right fun ⟨hterm, hrole⟩ => ⟨hterm, .inl ?_⟩
    obtain hq | ⟨-, acks, hp, -⟩ := hrole
    · exact hq
    · cases hp
  | alone =>
    refine hcases.imp_right fun ⟨hterm, hrole⟩ => ⟨hterm, .inl ?_⟩
    obtain hq | ⟨-, acks, hp, -⟩ := hrole
    · exact hq
    · cases hp
  | count id next confirmed hdeliv hresp hmsgterm =>
    refine hcases.imp_right fun ⟨hterm, hrole⟩ => ⟨hterm, hrole.imp_right ?_⟩
    rintro ⟨hlt, acks, hp, hacks⟩
    cases hp
    obtain ⟨hmem, hto⟩ := hd _ hdeliv
    refine ⟨hlt, _, rfl, fun voter hv => ?_⟩
    rcases OrdSet.mem_insert.1 hv with rfl | hv
    · exact .inr ⟨_, hmem, rfl, hto, hresp, hmsgterm.trans hterm⟩
    · exact hacks voter hv
  | confirm id term next confirmed hq =>
    refine hcases.imp_right fun ⟨hterm, hrole⟩ => ⟨hterm, .inl ?_⟩
    obtain hq | ⟨-, acks, hp, hacks⟩ := hrole
    · exact hq
    · cases hp
      exact ⟨acks.contains, hq, fun voter hv => hacks voter (OrdSet.contains_eq_true.1 hv)⟩

theorem Tracked.step {c c' : Cluster} (hshaped : c.Shaped) {input : Input}
    (h : ρ.Tracked past (c.nodes ρ.leader).readView) (hstep : c.step input = some c') :
    ρ.Tracked (past ++ [input]) (c'.nodes ρ.leader).readView := by
  obtain ⟨r, hr, rfl⟩ := Cluster.step_eq_some.1 hstep
  simp only [Cluster.apply]
  rcases eq_or_ne ρ.leader input.node with hnode | hnode
  · rw [hnode, Function.update_self]
    rw [hnode] at h
    have hd : ∀ msg, input.delivered = some msg →
        Input.deliver msg ∈ past ++ [input] ∧ msg.to = ρ.leader := by
      intro msg hdeliv
      obtain ⟨heq, -, hto⟩ := Cluster.delivered_mem hr hdeliv
      exact ⟨by rw [heq]; simp, hto.trans hnode.symm⟩
    exact ((Cluster.call_reads hshaped.saved hr).invariant
      (fun hv ha => ⟨Tracked.action hd hv ha, fun _ _ => trivial⟩) (h.mono input)).1
  · rw [Function.update_of_ne hnode]
    exact h.mono input

end Round

/-! ## Confirmation -/

/-- A quorum of the configuration that node `id` had in `c` has answered, the node itself included:
each other voter by a response that was delivered by the inputs, and that answers a request sent
since `c` and none sent before. -/
def Cluster.Confirmed (c : Cluster) (id : NodeId) (inputs : List Input) (c' : Cluster) : Prop :=
  ∃ f : NodeId → Bool, (c.nodes id).core.effectiveConfig.hasQuorum f = true ∧
    ∀ voter, f voter = true → voter = id ∨ ∃ resp, Input.deliver resp ∈ inputs ∧
      resp.from = voter ∧ resp.to = id ∧ (∃ req ∈ c'.sent, resp.Answers req) ∧
      ∀ req ∈ c.sent, ¬resp.Answers req

/-- A request for this index that node `id` sent before the term. -/
def Message.isOldRequest (id : NodeId) (term readIndex : ℕ) (m : Message) : Bool :=
  match m.payload with
  | .readIndexRequest req => decide (m.from = id ∧ m.term < term ∧ req.readIndex = readIndex)
  | _ => false

/-- The node is a quorum alone, or its commit index is not confirmed yet and it has not asked for
this index in an older term. -/
def Cluster.asksAfresh (c : Cluster) (id : NodeId) : Bool :=
  match (c.nodes id).role with
  | .leader l =>
    (c.nodes id).core.effectiveConfig.hasQuorum (OrdSet.empty.insert id).contains ||
      (decide (l.confirmedReadIndex < (c.nodes id).commitIndex) &&
        c.sent.all fun m => !m.isOldRequest id (c.nodes id).term (c.nodes id).commitIndex)
  | _ => true

/-- What a granted request does: the leader is a quorum alone, or opens a round. -/
theorem RaftNode.requestReadIndex_ok {n : RaftNode} {r : ℕ} {effects : Effects}
    (h : n.requestReadIndex.2 = .ok (r, effects)) : ∃ l, n.role = .leader l ∧ r = n.commitIndex ∧
      (n.core.effectiveConfig.hasQuorum (OrdSet.empty.insert n.core.id).contains = true ∨
        n.requestReadIndex.1.readView = ⟨n.core.id, n.term, .leader (l.nextReadId + 1)
          (some ⟨l.nextReadId, r, n.core.effectiveConfig, OrdSet.empty.insert n.core.id⟩)
          l.confirmedReadIndex⟩) := by
  obtain ⟨core, role⟩ := n
  cases role with
  | leader l =>
    refine ⟨l, rfl, ?_⟩
    simp only [requestReadIndex, Leader.requestReadIndex] at h ⊢
    split at h
    · cases h
    · split_ifs at h ⊢ with hnone hq
      · cases h
        exact ⟨rfl, .inl hq⟩
      · cases h
        exact ⟨rfl, .inr rfl⟩
  | _ => cases h

namespace Cluster

theorem nodes_requestReadIndex {c c₁ : Cluster} {id : NodeId}
    (hstep : c.step (.requestReadIndex id) = some c₁) :
    c₁.nodes id = (c.nodes id).requestReadIndex.1 := by
  obtain ⟨r, hr, rfl⟩ := step_eq_some.1 hstep
  have hr' : ((c.nodes id).requestReadIndex.1, effectsOf (c.nodes id).requestReadIndex.2) = r :=
    Option.some.inj hr
  rw [← hr']
  exact Function.update_self _ _ _

/-- A round is tracked along a run, and what is delivered has been sent. -/
theorem tracked_run {c c' : Cluster} {ok : Cluster → Input → Bool} {inputs : List Input} {ρ : Round}
    (hshaped : c.Shaped) (hreads : c.Reads) (h : ρ.Tracked [] (c.nodes ρ.leader).readView)
    (hrun : c.run ok inputs = some c') : c'.Reads ∧
      ρ.Tracked inputs (c'.nodes ρ.leader).readView ∧
      ∀ m, Input.deliver m ∈ inputs → m ∈ c'.sent := by
  let I : List Input → Cluster → Prop := fun past c => c.Shaped ∧ c.Reads ∧
    ρ.Tracked past (c.nodes ρ.leader).readView ∧ ∀ m, Input.deliver m ∈ past → m ∈ c.sent
  have hinit : I [] c := ⟨hshaped, hreads, h, fun m hm => by cases hm⟩
  refine (runWhile_history ?_ hinit hrun).2
  rintro past c input c' ⟨hshaped, hreads, htracked, hsent⟩ - hstep
  refine ⟨hshaped.step hstep, hreads.step hshaped hstep, htracked.step hshaped hstep, ?_⟩
  intro m hm
  rcases List.mem_append.1 hm with hm | hm
  · exact mem_sent_of_step hstep (hsent m hm)
  · obtain ⟨r, hr, -⟩ := step_eq_some.1 hstep
    rw [← List.mem_singleton.1 hm] at hr hstep
    exact mem_sent_of_step hstep (delivered_mem hr rfl).2.1

/-- The first number a leader has not used, for an index it did not ask for in an older term, is in
no request yet. -/
theorem Reads.not_answers {c : Cluster} (h : c.Reads) {id : NodeId} {l : Leader}
    (hrole : (c.nodes id).role = .leader l) {r : ℕ}
    (hold : c.sent.all (fun m => !m.isOldRequest id (c.nodes id).term r) = true) {resp : Message}
    (hresp : resp.payload = .readIndexResponse ⟨l.nextReadId, r⟩) (hto : resp.to = id) :
    ∀ req ∈ c.sent, ¬resp.Answers req := by
  rintro req hmem ⟨i, r', hresp', hreq, -, hfrom, -⟩
  rw [hresp] at hresp'
  cases hresp'
  rw [hto] at hfrom
  have hissued := h.requests req hmem _ hreq
  rw [← hfrom, RaftNode.readView, hrole] at hissued
  rcases hissued with hlt | ⟨-, hlt⟩
  · have hfresh := List.all_eq_true.1 hold req hmem
    rw [Message.isOldRequest, hreq] at hfresh
    simp only [Bool.not_eq_true', decide_eq_false_iff_not] at hfresh
    exact hfresh ⟨hfrom.symm, hlt, trivial⟩
  · exact Nat.lt_irrefl _ hlt

/-- **Read-index confirmation is per request**, if the request is made afresh: when the index of
the request is ready and the node still leads the term, the request has been confirmed. -/
theorem read_index_confirmed (configs : NodeId → Config) (voters : List NodeId)
    {inputs inputs' : List Input} {c c₁ c' : Cluster}
    (hrun : (init configs voters).run (fun _ _ => true) inputs = some c) {id : NodeId} {r : ℕ}
    {effects : Effects} (hreq : (c.nodes id).requestReadIndex.2 = .ok (r, effects))
    (hfresh : c.asksAfresh id = true) (hstep : c.step (.requestReadIndex id) = some c₁)
    (hrun' : c₁.run (fun _ _ => true) inputs' = some c') (hlead : (c'.nodes id).isLeader = true)
    (hterm : (c'.nodes id).term = (c.nodes id).term)
    (hready : (c'.nodes id).readIndexReady r = true) : c.Confirmed id inputs' c' := by
  have hid : ∀ {c : Cluster}, c.Shaped → (c.nodes id).core.id = id := fun h => (h.nodes id).id
  have hshaped := shaped_run hrun
  have hreads := reads_run hrun
  obtain ⟨l, hrole, hr, hround⟩ := RaftNode.requestReadIndex_ok hreq
  rw [hid hshaped] at hround
  simp only [asksAfresh, hrole] at hfresh
  cases halone : (c.nodes id).core.effectiveConfig.hasQuorum (OrdSet.empty.insert id).contains with
  | true =>
    exact ⟨_, halone, fun voter hv => .inl (by simpa using hv)⟩
  | false =>
    have hround := hround.resolve_left (by rw [halone]; exact Bool.false_ne_true)
    rw [halone, Bool.false_or, Bool.and_eq_true, decide_eq_true_iff, ← hr] at hfresh
    let ρ : Round := ⟨id, (c.nodes id).term, l.nextReadId, r, (c.nodes id).core.effectiveConfig⟩
    have htracked : ρ.Tracked [] (c₁.nodes id).readView := by
      rw [nodes_requestReadIndex hstep, hround]
      exact ⟨rfl, .inr ⟨rfl, .inr ⟨hfresh.1, _, rfl, fun voter hv => .inl (by simpa using hv)⟩⟩⟩
    obtain ⟨hreads', ⟨-, hcases⟩, hsent⟩ := tracked_run (hshaped.step hstep)
      (hreads.step hshaped hstep) htracked hrun'
    have hquorum : ρ.Quorum inputs' := by
      cases hrole' : (c'.nodes id).role with
      | leader l' =>
        simp only [ρ, RaftNode.readView, hrole', RoleState.reads, Leader.reads] at hcases
        rw [RaftNode.readIndexReady, hrole'] at hready
        have hconfirmed : r ≤ l'.confirmedReadIndex :=
          of_decide_eq_true (Bool.and_eq_true_iff.1 hready).1
        rcases hcases with hlt | ⟨-, hq | ⟨hlt, -⟩⟩
        · exact absurd hterm (Nat.ne_of_gt hlt)
        · exact hq
        · omega
      | _ =>
        rw [RaftNode.isLeader, hrole'] at hlead
        cases hlead
    obtain ⟨f, hf, hvoters⟩ := hquorum
    refine ⟨f, hf, fun voter hv => (hvoters voter hv).imp_right ?_⟩
    rintro ⟨resp, hdeliver, hfrom, hto, hpayload, -⟩
    exact ⟨resp, hdeliver, hfrom, hto, hreads'.responses resp (hsent resp hdeliver) _ hpayload,
      hreads.not_answers hrole hfresh.2 hpayload hto⟩

end Cluster

/-- Node 1 answers the first round of node 0, which then applies the command. -/
def confirmRound : List Input :=
  [.deliver ⟨0, 1, 1, .readIndexRequest ⟨1, 1⟩⟩, .deliver ⟨1, 0, 1, .readIndexResponse ⟨1, 1⟩⟩,
    .advance 0 1]

theorem exists_ok_of_any {n : RaftNode} {r : ℕ}
    (h : n.requestReadIndex.2.toOption.any (fun p => decide (p.1 = r)) = true) :
    ∃ effects, n.requestReadIndex.2 = .ok (r, effects) := by
  cases hr : n.requestReadIndex.2 with
  | error e =>
    rw [hr] at h
    cases h
  | ok p =>
    rw [hr] at h
    obtain ⟨r', effects⟩ := p
    exact ⟨effects, by rw [← of_decide_eq_true (show decide (r' = r) = true from h)]⟩

/-- The first round of node 0 of the trio. -/
theorem read_index_confirmed_trio : ∃ c c₁ c',
    trio.run (fun _ _ => true) (electZero ++ replicateOne) = some c ∧
    c.step (.requestReadIndex 0) = some c₁ ∧
    c₁.run (fun _ _ => true) confirmRound = some c' ∧
    (c'.nodes 0).readIndexReady 1 = true ∧ c.Confirmed 0 confirmRound c' := by
  have hrun : (trio.run (fun _ _ => true) (electZero ++ replicateOne)).any (fun c =>
      (c.step (.requestReadIndex 0)).any fun c₁ =>
        (c₁.run (fun _ _ => true) confirmRound).any fun c' =>
          (c.nodes 0).requestReadIndex.2.toOption.any (fun p => decide (p.1 = 1)) &&
          decide (c.asksAfresh 0 = true ∧ (c'.nodes 0).isLeader = true ∧
            (c'.nodes 0).term = (c.nodes 0).term ∧
            (c'.nodes 0).readIndexReady 1 = true)) = true := by
    decide +kernel
  obtain ⟨c, hc, hrest⟩ := (Option.any_eq_true _ _).1 hrun
  obtain ⟨c₁, hc₁, hrest⟩ := (Option.any_eq_true _ _).1 hrest
  obtain ⟨c', hc', hfacts⟩ := (Option.any_eq_true _ _).1 hrest
  obtain ⟨hok, hfacts⟩ := Bool.and_eq_true_iff.1 hfacts
  obtain ⟨effects, hreq⟩ := exists_ok_of_any hok
  obtain ⟨hfresh, hlead, hterm, hready⟩ := of_decide_eq_true hfacts
  exact ⟨c, c₁, c', hc, hc₁, hc', hready, Cluster.read_index_confirmed (fun _ => quickConfig)
    [0, 1, 2] hc hreq hfresh hc₁ hc' hlead hterm hready⟩

/-- **A confirmation is reused**: the second request of node 0, at the same index, is ready before
anything is delivered. -/
theorem stale_confirmation : ∃ inputs c c₁ effects,
    trio.run (fun _ _ => true) inputs = some c ∧
    (c.nodes 0).requestReadIndex.2 = .ok (1, effects) ∧
    c.step (.requestReadIndex 0) = some c₁ ∧ (c₁.nodes 0).isLeader = true ∧
    (c₁.nodes 0).term = (c.nodes 0).term ∧ (c₁.nodes 0).readIndexReady 1 = true ∧
    ¬c.Confirmed 0 [] c₁ := by
  have hrun : (trio.run (fun _ _ => true)
      (electZero ++ replicateOne ++ .requestReadIndex 0 :: confirmRound)).any (fun c =>
        (c.step (.requestReadIndex 0)).any fun c₁ =>
          (c.nodes 0).requestReadIndex.2.toOption.any (fun p => decide (p.1 = 1)) &&
          decide ((c₁.nodes 0).isLeader = true ∧ (c₁.nodes 0).term = (c.nodes 0).term ∧
            (c₁.nodes 0).readIndexReady 1 = true ∧
            (c.nodes 0).core.effectiveConfig.hasQuorum (fun v => decide (v = 0)) = false)) =
              true := by
    decide +kernel
  obtain ⟨c, hc, hrest⟩ := (Option.any_eq_true _ _).1 hrun
  obtain ⟨c₁, hc₁, hfacts⟩ := (Option.any_eq_true _ _).1 hrest
  obtain ⟨hok, hfacts⟩ := Bool.and_eq_true_iff.1 hfacts
  obtain ⟨effects, hreq⟩ := exists_ok_of_any hok
  obtain ⟨hlead, hterm, hready, hquorum⟩ := of_decide_eq_true hfacts
  refine ⟨_, c, c₁, effects, hc, hreq, hc₁, hlead, hterm, hready, ?_⟩
  rintro ⟨f, hf, hvoters⟩
  have hmono := Configuration.hasQuorum_mono (fun v hv => decide_eq_true
    ((hvoters v hv).resolve_right fun ⟨_, hmem, _⟩ => by cases hmem)) hf
  rw [hquorum] at hmono
  cases hmono

end Cloud9
