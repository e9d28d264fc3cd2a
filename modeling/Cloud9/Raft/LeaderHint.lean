import Cloud9.Raft.LeaderMessages
import Cloud9.Raft.PreVote
import Cloud9.Raft.Safety

/-!
# The leader a follower names

A follower names the node it takes for the leader, for clients to go to and to turn down other
candidates. The field is documented as the leader of the current term. Where it is set it is: the
messages that set it come from leaders (`Cluster.call_speaks`), and they set it together with their
term, or in it.

But a follower keeps the name when its term rises by a message that names nobody, and a
pre-candidate believes an append request of an older term (`RaftNode.misled`, `hint_outlives_term`).
In runs without such a delivery a follower names a node only if that node has led the follower's
term (`hint_of_current_term`); membership may change.
-/

namespace Cloud9

/-- The leader that a node names as a follower. -/
def RaftNode.hint (n : RaftNode) : Option NodeId :=
  match n.role with
  | .follower f => f.leader
  | _ => none

theorem RaftNode.exists_of_hint {n : RaftNode} {x : NodeId} (h : n.hint = some x) :
    ∃ f, n.role = .follower f ∧ f.leader = some x := by
  unfold hint at h
  split at h
  · next f hf => exact ⟨f, hf, h⟩
  · cases h

/-- A message that raises the term of a follower and says nothing about the leader, while the
follower has one. A vote request does so unless the follower turns it down because it has just heard
from that leader; `TimeoutNow` makes it a candidate. -/
def Follower.outlived (f : Follower) (core : Core) (msg : Message) : Bool :=
  f.leader.isSome && decide (core.term < msg.term) && match msg.payload with
    | .voteRequest _ => !f.recentlyHeardFromLeader core
    | .voteResponse _ | .preVoteResponse _ | .appendResponse _ | .readIndexResponse _
    | .installSnapshotResponse _ => true
    | _ => false

/-- The messages that leave a node with the name of a leader of another term. -/
def RaftNode.misled (n : RaftNode) (msg : Message) : Bool :=
  match n.role with
  | .follower f => f.outlived n.core msg
  | .preCandidate _ => msg.payload.isAppendRequest && decide (msg.term < n.core.term)
  | _ => false

/-! ## Where the name comes from -/

/-- The leader that a transition names. -/
def Transition.follows : Transition → Option NodeId
  | .toFollower leader | .toFollowerAfterContact leader => leader
  | _ => none

/-- A node of some term has the name from before, when it had that term already, or from a leader's
message of that term. -/
def RaftNode.Told (n : RaftNode) (event : Event) (term : ℕ) (x : NodeId) : Prop :=
  n.hint = some x ∧ term = n.core.term ∨
    ∃ msg, event = .message msg ∧ msg.payload.isLeaders = true ∧ msg.from = x ∧ msg.term = term

/-- What a role's step does with the name: it is told when the role stays, and when it changes. -/
structure RoleTold (event : Event) (n : RaftNode) (r : RaftNode × StepResult) : Prop where
  stay : r.2.transition = .stay → ∀ x, r.1.hint = some x → n.Told event r.1.core.term x
  follow : ∀ x, r.2.transition.follows = some x → n.Told event r.1.core.term x

theorem Core.maybeUpdateTerm_term {core : Core} {term : ℕ} (h : core.term < term) :
    (core.maybeUpdateTerm term).2.term = term := by
  have h' : term > core.persistent.term := h
  rw [maybeUpdateTerm, if_pos h']
  rfl

namespace RoleTold

variable {event : Event} {n n' : RaftNode} {r : RaftNode × StepResult} {msg : Message}

/-- No name before the transition, and none in it. -/
theorem unnamed (hhint : r.1.hint = none) (h : r.2.transition.follows = none) :
    RoleTold event n r where
  stay _ x hx := by
    rw [hhint] at hx
    cases hx
  follow x hx := by
    rw [h] at hx
    cases hx

/-- The name and the term are as before. -/
theorem kept (hhint : r.1.hint = n.hint) (hterm : r.1.core.term = n.core.term)
    (h : r.2.transition.follows = none) : RoleTold event n r where
  stay _ x hx := .inl ⟨hhint ▸ hx, hterm⟩
  follow x hx := by
    rw [h] at hx
    cases hx

/-- A higher term is adopted, and the sender followed if it sent an append request. -/
theorem adopt {effects : Effects} (hcore : n'.core = (n.core.maybeUpdateTerm msg.term).2)
    (hterm : n.core.term < msg.term) : RoleTold (.message msg) n
      (n', .toFollower (if msg.payload.isAppendRequest then some msg.from else none) effects) where
  stay h := by cases h
  follow x hx := by
    refine .inr ⟨msg, rfl, ?_⟩
    rw [hcore, Core.maybeUpdateTerm_term hterm]
    cases hpayload : msg.payload with
    | appendRequest req =>
      simp only [StepResult.toFollower, Transition.follows, hpayload, Payload.isAppendRequest,
        if_true, Option.some.injEq] at hx
      exact ⟨rfl, hx, rfl⟩
    | _ => simp [StepResult.toFollower, Transition.follows, hpayload, Payload.isAppendRequest] at hx

/-- The sender of an append request of the node's term is followed. -/
theorem contact {effects : Effects} {req : AppendRequest} (hreq : msg.payload = .appendRequest req)
    (hterm : msg.term = n'.core.term) :
    RoleTold (.message msg) n (n', .toFollowerAfterContact (some msg.from) effects) where
  stay h := by cases h
  follow x hx := by
    cases hx
    exact .inr ⟨msg, rfl, by rw [hreq]; rfl, rfl, hterm⟩

end RoleTold

/-! ### Roles -/

theorem Follower.adoptTerm_leader (f : Follower) (core : Core) (msg : Message) :
    (f.adoptTerm core msg).2.1.leader = f.leader ∨
      msg.payload.isLeaders = true ∧ (f.adoptTerm core msg).2.1.leader = some msg.from := by
  unfold adoptTerm
  split
  · dsimp only
    split
    · next hreq => exact .inr ⟨by rw [hreq]; rfl, rfl⟩
    · next hreq => exact .inr ⟨by rw [hreq]; rfl, rfl⟩
    · exact .inl rfl
  · exact .inl rfl

/-- A handler keeps the term and the name, or names the sender of a leader's message. -/
theorem Follower.dispatch_leader (f : Follower) (core : Core) (msg : Message) :
    (f.dispatch core msg).2.1.term = core.term ∧
      (msg.payload.isLeaders = false ∧ (f.dispatch core msg).1.leader = f.leader ∨
        msg.payload.isLeaders = true ∧ (f.dispatch core msg).1.leader = some msg.from) := by
  unfold dispatch
  split
  · next hreq =>
    unfold handleVoteRequest
    dsimp only
    rw [hreq]
    split <;> exact ⟨rfl, .inl ⟨rfl, rfl⟩⟩
  · next req hreq =>
    have haccept : ∀ core : Core, (acceptAppend core req).term = core.term := by
      intro core
      unfold acceptAppend
      dsimp only
      split <;> rfl
    unfold handleAppendRequest
    dsimp only
    rw [hreq]
    split
    · exact ⟨haccept _, .inr ⟨rfl, rfl⟩⟩
    · exact ⟨rfl, .inr ⟨rfl, rfl⟩⟩
  · next hreq => exact ⟨rfl, .inr ⟨by rw [hreq]; rfl, rfl⟩⟩
  · next hreq =>
    unfold handleInstallSnapshot
    dsimp only
    rw [hreq]
    split_ifs <;> exact ⟨rfl, .inr ⟨rfl, rfl⟩⟩
  · next hreq => exact ⟨rfl, .inl ⟨by rw [hreq]; rfl, rfl⟩⟩
  · next hvote happend hread hsnapshot hnow =>
    refine ⟨rfl, .inl ⟨?_, rfl⟩⟩
    cases hpayload : msg.payload with
    | appendRequest req => exact absurd hpayload (happend req)
    | readIndexRequest req => exact absurd hpayload (hread req)
    | installSnapshotRequest req => exact absurd hpayload (hsnapshot req)
    | _ => rfl

theorem Follower.dispatch_follows (f : Follower) (core : Core) (msg : Message) :
    (f.dispatch core msg).2.2.transition.follows = none ∧
      (msg.payload = .timeoutNow → (f.dispatch core msg).2.2.transition ≠ .stay) := by
  by_cases hstay : (f.dispatch core msg).2.2.transition = .stay
  · refine ⟨by rw [hstay]; rfl, fun hnow => ?_⟩
    simp only [dispatch, hnow] at hstay
    cases hstay
  · have hnow := f.dispatch_candidate core msg hstay
    refine ⟨?_, fun _ => hstay⟩
    simp only [dispatch, hnow]
    rfl

/-- What is left of the messages that raise a follower's term: without a name to keep, there is
nothing to keep. -/
theorem Follower.leader_eq_none {f : Follower} {core : Core} {msg : Message}
    (hguard : ¬(msg.payload.isVoteOrPreVoteRequest && f.recentlyHeardFromLeader core) = true)
    (hprevote : ∀ req, msg.payload ≠ .preVoteRequest req) (hnow : msg.payload ≠ .timeoutNow)
    (hleaders : msg.payload.isLeaders = false) (hterm : core.term < msg.term)
    (hout : f.outlived core msg = false) : f.leader = none := by
  by_contra hsome
  have hsome' : f.leader.isSome = true := Option.isSome_iff_ne_none.2 hsome
  simp only [outlived, hsome', hterm, decide_true, Bool.true_and] at hout
  cases hpayload : msg.payload with
  | voteRequest req => simp_all [Payload.isVoteOrPreVoteRequest]
  | preVoteRequest req => exact hprevote req hpayload
  | timeoutNow => exact hnow hpayload
  | appendRequest req => simp [hpayload, Payload.isLeaders] at hleaders
  | readIndexRequest req => simp [hpayload, Payload.isLeaders] at hleaders
  | installSnapshotRequest req => simp [hpayload, Payload.isLeaders] at hleaders
  | _ => simp [hpayload] at hout

/-- A handler of a message of the node's term: the sender of a leader's message is named, and a name
is kept otherwise. -/
theorem Follower.dispatch_told {n : RaftNode} {f : Follower} {core : Core} {msg : Message}
    (hterm : core.term = msg.term)
    (hkept : msg.payload.isLeaders = false → (f.dispatch core msg).2.2.transition = .stay →
      ∀ x, f.leader = some x → n.Told (.message msg) core.term x) (effects : Effects) :
    RoleTold (.message msg) n (⟨(f.dispatch core msg).2.1, .follower (f.dispatch core msg).1⟩,
      ⟨(f.dispatch core msg).2.2.transition, effects⟩) := by
  obtain ⟨hkeeps, hname⟩ := f.dispatch_leader core msg
  refine ⟨fun hstay x hx => ?_, fun x hx => ?_⟩
  · have hx' : (f.dispatch core msg).1.leader = some x := hx
    show n.Told (.message msg) (f.dispatch core msg).2.1.term x
    rw [hkeeps]
    rcases hname with ⟨hleaders, hname⟩ | ⟨hleaders, hname⟩
    · exact hkept hleaders hstay x (hname ▸ hx')
    · rw [hname] at hx'
      exact .inr ⟨msg, rfl, hleaders, Option.some.inj hx', hterm.symm⟩
  · have hx' : (f.dispatch core msg).2.2.transition.follows = some x := hx
    rw [(f.dispatch_follows core msg).1] at hx'
    cases hx'

theorem Follower.step_told (f : Follower) (core : Core) (event : Event)
    (hout : ∀ msg, event = .message msg → f.outlived core msg = false) :
    RoleTold event ⟨core, .follower f⟩
      (⟨(f.step core event).2.1, .follower (f.step core event).1⟩, (f.step core event).2.2) := by
  cases event with
  | tick =>
    simp only [step, handleTick]
    split_ifs <;> exact .kept rfl rfl rfl
  | diskWriteComplete index => exact .kept rfl rfl rfl
  | message msg =>
    simp only [step, handleMessage]
    split
    · exact .kept rfl rfl rfl
    next hguard =>
    split
    · exact .kept rfl rfl rfl
    next hprevote =>
    by_cases hterm : core.term < msg.term
    · -- the term rises to that of the message
      have hadopted : (f.adoptTerm core msg).2.2.term = msg.term := by
        unfold adoptTerm
        rw [if_pos hterm]
        dsimp only
        split <;> exact Core.maybeUpdateTerm_term hterm
      rw [if_neg (Nat.not_lt.2 (Nat.le_of_eq hadopted))]
      refine dispatch_told hadopted (fun hleaders hstay x hx => ?_) _
      have hnone : f.leader = none := leader_eq_none hguard hprevote
        (fun hnow => (dispatch_follows _ _ msg).2 hnow hstay) hleaders hterm (hout msg rfl)
      rcases f.adoptTerm_leader core msg with hname | ⟨hname, -⟩
      · rw [hname, hnone] at hx
        cases hx
      · rw [hleaders] at hname
        cases hname
    · -- the term stays
      have hadopt : f.adoptTerm core msg = (false, f, core) := if_neg hterm
      simp only [hadopt]
      split
      · exact .kept rfl rfl rfl
      next hstale =>
      have heq : core.term = msg.term := Nat.le_antisymm (Nat.not_lt.1 hstale) (Nat.not_lt.1 hterm)
      exact dispatch_told heq (fun _ _ x hx => .inl ⟨hx, rfl⟩) _

theorem PreCandidate.step_told (p : PreCandidate) (core : Core) (event : Event)
    (hold : ∀ msg, event = .message msg →
      (msg.payload.isAppendRequest && decide (msg.term < core.term)) = false) :
    RoleTold event ⟨core, .preCandidate p⟩
      (⟨(p.step core event).2.1, .preCandidate (p.step core event).1⟩,
        (p.step core event).2.2) := by
  cases event with
  | tick =>
    simp only [step, handleTick]
    split_ifs <;> exact .unnamed rfl rfl
  | diskWriteComplete index => exact .unnamed rfl rfl
  | message msg =>
    simp only [step, handleMessage]
    split
    · exact .unnamed rfl rfl
    · split
      · next hterm => exact .adopt rfl hterm
      · next hterm =>
        unfold dispatch
        split
        · unfold handlePrevoteResponse
          dsimp only
          split_ifs <;> exact .unnamed rfl rfl
        · next req hreq =>
          refine .contact hreq ?_
          have hnot := hold msg rfl
          rw [hreq] at hnot
          have hle : ¬msg.term < core.term := of_decide_eq_false hnot
          show msg.term = core.term
          omega
        all_goals exact .unnamed rfl rfl

theorem Candidate.step_told (c : Candidate) (core : Core) (event : Event) :
    RoleTold event ⟨core, .candidate c⟩
      (⟨(c.step core event).2.1, .candidate (c.step core event).1⟩, (c.step core event).2.2) := by
  cases event with
  | tick =>
    simp only [step, handleTick]
    split_ifs <;> exact .unnamed rfl rfl
  | diskWriteComplete index => exact .unnamed rfl rfl
  | message msg =>
    simp only [step, handleMessage]
    split
    · exact .unnamed rfl rfl
    · split
      · exact .unnamed rfl rfl
      · split
        · next hterm => exact .adopt rfl hterm
        · split
          · exact .unnamed rfl rfl
          · next hterm hstale =>
            unfold dispatch
            split
            · unfold handleVoteResponse
              dsimp only
              split_ifs <;> exact .unnamed rfl rfl
            · next req hreq =>
              refine .contact hreq ?_
              show msg.term = core.term
              omega
            all_goals exact .unnamed rfl rfl

namespace Leader

theorem afterCommit_follows (r : Leader × Core × Effects × Bool) :
    (afterCommit r).2.2.transition.follows = none := by
  unfold afterCommit
  dsimp only
  split <;> rfl

theorem dispatch_follows (l : Leader) (core : Core) (msg : Message) :
    (l.dispatch core msg).2.2.transition.follows = none := by
  unfold dispatch
  split
  · unfold handleAppendResponse
    split
    · rfl
    · split
      · exact afterCommit_follows _
      · rfl
  · unfold handleInstallSnapshotResponse
    split
    · rfl
    · split
      · rfl
      · exact afterCommit_follows _
  all_goals rfl

theorem step_told (l : Leader) (core : Core) (event : Event) :
    RoleTold event ⟨core, .leader l⟩
      (⟨(l.step core event).2.1, .leader (l.step core event).1⟩, (l.step core event).2.2) := by
  cases event with
  | tick =>
    refine .unnamed rfl ?_
    simp only [step, handleTick]
    split
    · split <;> rfl
    · rfl
  | diskWriteComplete index =>
    refine .unnamed rfl ?_
    simp only [step, handleDiskWriteComplete]
    split
    · exact afterCommit_follows _
    · rfl
  | message msg =>
    simp only [step, handleMessage]
    split
    · exact .unnamed rfl rfl
    · split
      · next hterm => exact .adopt rfl hterm
      · split
        · exact .unnamed rfl rfl
        · exact .unnamed rfl (l.dispatch_follows core msg)

end Leader

/-! ### Calls -/

namespace RaftNode

/-- A transition leaves a name only when it stays, or is the name of the transition. -/
theorem applyTransition_hint {n : RaftNode} {t : Transition} {x : NodeId}
    (h : (n.applyTransition t).1.hint = some x) :
    (t = .stay ∧ n.hint = some x ∨ t.follows = some x) ∧
      (n.applyTransition t).1.core.term = n.core.term := by
  have hcandidate : ∀ (core : Core) (effects : Effects),
      (becomeCandidate core effects).1.hint ≠ some x := by
    intro core effects
    unfold becomeCandidate
    dsimp only
    split <;> exact fun hx => by cases hx
  cases t with
  | stay => exact ⟨.inl ⟨rfl, h⟩, rfl⟩
  | toFollower leader => exact ⟨.inr h, rfl⟩
  | toFollowerAfterContact leader => exact ⟨.inr h, rfl⟩
  | toPreCandidate =>
    simp only [applyTransition] at h
    split at h
    · exact absurd h (hcandidate _ _)
    · cases h
  | toCandidate => exact absurd h (hcandidate _ _)
  | toLeader => cases h

theorem roleStep_told (n : RaftNode) (event : Event)
    (h : ∀ msg, event = .message msg → n.misled msg = false) :
    RoleTold event n (n.roleStep event) := by
  obtain ⟨core, role⟩ := n
  cases role with
  | follower f => exact f.step_told core event h
  | preCandidate p => exact p.step_told core event h
  | candidate c => exact c.step_told core event
  | leader l => exact l.step_told core event

/-- The node names a leader after a call only if it was told. -/
def CallTold (n : RaftNode) (event : Event) (n' : RaftNode) : Prop :=
  ∀ x, n'.hint = some x → n.Told event n'.core.term x

theorem stepEvent_told (n : RaftNode) (event : Event)
    (h : ∀ msg, event = .message msg → n.misled msg = false) :
    n.CallTold event (n.stepEvent event).1 := by
  intro x hx
  have hrole := n.roleStep_told event h
  set r := n.roleStep event with hr
  have hstep : (n.stepEvent event).1 = (r.1.applyTransition r.2.transition).1 := rfl
  rw [hstep] at hx ⊢
  obtain ⟨hsource, hterm⟩ := applyTransition_hint hx
  rw [hterm]
  rcases hsource with ⟨hstay, hx⟩ | hfollows
  · exact hrole.stay hstay x hx
  · exact hrole.follow x hfollows

theorem CallTold.refl (n : RaftNode) (event : Event) : n.CallTold event n :=
  fun _ hx => .inl ⟨hx, rfl⟩

theorem CallTold.unnamed {n n' : RaftNode} {event : Event} (h : n'.hint = none) :
    n.CallTold event n' := by
  intro x hx
  rw [h] at hx
  cases hx

theorem settle_hint (core : Core) (l : Leader) (down : Bool) :
    (settle core l down).hint = none := by
  cases down <;> rfl

theorem propose_told {n n' : RaftNode} {cmd : Command} {r : Except ProposeError (ℕ × Effects)}
    (h : n.propose cmd = some (n', r)) (event : Event) : n.CallTold event n' := by
  cases propose_cases h with
  | refused => exact .refl _ _
  | accepted => exact .unnamed (settle_hint _ _ _)

theorem proposeConfigChange_told {n n' : RaftNode} {change : ConfigChange}
    {r : Except ConfigChangeError (ℕ × Effects)} (h : n.proposeConfigChange change = (n', r))
    (event : Event) : n.CallTold event n' := by
  cases proposeConfigChange_cases h with
  | refused => exact .refl _ _
  | accepted => exact .unnamed (settle_hint _ _ _)

theorem requestReadIndex_told (n : RaftNode) (event : Event) :
    n.CallTold event n.requestReadIndex.1 := by
  obtain ⟨core, role⟩ := n
  cases role with
  | leader l => exact .unnamed rfl
  | _ => exact .refl _ _

end RaftNode

namespace Cluster

/-- No delivery leaves a node with the name of a leader of another term. -/
def keepsHints (c : Cluster) : Input → Bool
  | .deliver msg => !(c.nodes msg.to).misled msg
  | _ => true

/-- The event an input is for the node that acts; the calls of the API other than a delivery name
nobody. -/
def eventOf : Input → Event
  | .deliver msg => .message msg
  | _ => .tick

/-- **A node learns of a leader from a leader's message**, and takes its term. -/
theorem call_told {c : Cluster} {input : Input} {r : RaftNode × Effects}
    (hkeeps : c.keepsHints input = true) (hr : c.call input = some r) :
    (c.nodes input.node).CallTold (eventOf input) r.1 := by
  cases input with
  | tick id =>
    cases hr
    exact (c.nodes id).stepEvent_told .tick fun msg h => by cases h
  | deliver msg =>
    simp only [call] at hr
    split_ifs at hr
    cases hr
    refine (c.nodes msg.to).stepEvent_told (.message msg) fun msg' h => ?_
    cases h
    simpa [keepsHints] using hkeeps
  | diskWriteComplete id index =>
    simp only [call] at hr
    split_ifs at hr
    cases hr
    intro x hx
    rcases (c.nodes id).stepEvent_told (.diskWriteComplete index)
      (fun msg h => by cases h) x hx with hkept | ⟨msg, h, -⟩
    · exact .inl hkept
    · cases h
  | propose id cmd =>
    obtain ⟨⟨n, res⟩, hres, rfl⟩ := Option.map_eq_some_iff.1 hr
    exact RaftNode.propose_told hres .tick
  | proposeConfigChange id change =>
    cases hr
    exact RaftNode.proposeConfigChange_told rfl .tick
  | requestReadIndex id =>
    cases hr
    exact (c.nodes id).requestReadIndex_told .tick
  | transferLeadership id target =>
    simp only [call] at hr
    split at hr <;>
    · cases hr
      exact .refl _ _
  | advance id appliedTo =>
    cases hr
    exact .refl _ _
  | restart id =>
    cases hr
    exact .unnamed rfl

/-- A node has led a term in a run, perhaps in its last state. -/
def Led (c₀ : Cluster) (ok : Cluster → Input → Bool) (inputs : List Input) (x : NodeId) (term : ℕ) :
    Prop :=
  ∃ past c, past <+: inputs ∧ c₀.run ok past = some c ∧ (c.nodes x).isLeader = true ∧
    (c.nodes x).term = term

section

variable {c₀ : Cluster} {ok : Cluster → Input → Bool}

theorem Led.mono {inputs inputs' : List Input} (hle : inputs <+: inputs') {x : NodeId} {term : ℕ}
    (h : c₀.Led ok inputs x term) : c₀.Led ok inputs' x term := by
  obtain ⟨past, c, hpast, hrun, hlead⟩ := h
  exact ⟨past, c, hpast.trans hle, hrun, hlead⟩

/-- After some inputs: what comes from leaders does, and the names are those of leaders of the
term. -/
structure Named (c₀ : Cluster) (ok : Cluster → Input → Bool) (past : List Input) (c : Cluster) :
    Prop where
  run : c₀.run ok past = some c
  shaped : c.Shaped
  sent : ∀ m ∈ c.sent, m.payload.isLeaders = true → c₀.Led ok past m.from m.term
  hint : ∀ id x, (c.nodes id).hint = some x → c₀.Led ok past x (c.nodes id).term

theorem Named.step {past : List Input} {c c' : Cluster} {input : Input}
    (h : Named c₀ keepsHints past c) (hok : c.keepsHints input = true)
    (hstep : c.step input = some c') : Named c₀ keepsHints (past ++ [input]) c' := by
  have hrun : c₀.run keepsHints (past ++ [input]) = some c' := runWhile_concat h.run hok hstep
  have hshaped := h.shaped.step hstep
  have hmono : past <+: past ++ [input] := List.prefix_append past [input]
  obtain ⟨r, hr, hr'⟩ := step_eq_some.1 hstep
  have hnode : c'.nodes input.node = r.1 := by
    rw [← hr']
    exact Function.update_self ..
  have hsent : c'.sent = c.sent ++ r.2.messages := by
    rw [← hr']
    rfl
  refine ⟨hrun, hshaped, fun m hm hleaders => ?_, fun id x hx => ?_⟩
  · rw [hsent] at hm
    rcases List.mem_append.1 hm with hm | hm
    · exact (h.sent m hm hleaders).mono hmono
    · -- the leader that sends is there before the step, or after it
      rcases call_speaks hr m hm with hspeaks | hspeaks
      · obtain ⟨hlead, hfrom, hterm⟩ := hspeaks hleaders
        rw [h.shaped.sound.ids input.node] at hfrom
        rw [hfrom, hterm]
        exact ⟨past, c, hmono, h.run, hlead, rfl⟩
      · rw [← hnode] at hspeaks
        obtain ⟨hlead, hfrom, hterm⟩ := hspeaks hleaders
        rw [hshaped.sound.ids input.node] at hfrom
        rw [hfrom, hterm]
        exact ⟨past ++ [input], c', List.prefix_rfl, hrun, hlead, rfl⟩
  · rcases eq_or_ne id input.node with rfl | hne
    · rw [hnode] at hx ⊢
      rcases call_told hok hr x hx with ⟨hkept, hterm⟩ | ⟨msg, hevent, hleaders, hfrom, hterm⟩
      · have := (h.hint input.node x hkept).mono hmono
        rwa [RaftNode.term, ← hterm] at this
      · cases input with
        | deliver msg' =>
          cases hevent
          have hmem : msg ∈ c.sent := by
            simp only [call] at hr
            split_ifs at hr with hmem
            exact hmem
          have := (h.sent msg hmem hleaders).mono hmono
          rwa [hfrom, hterm] at this
        | _ => cases hevent
    · have hsame : c'.nodes id = c.nodes id := by
        rw [← hr']
        exact Function.update_of_ne hne ..
      rw [hsame] at hx ⊢
      exact (h.hint id x hx).mono hmono

end

end Cluster

/-- **A follower names only a leader of its term**, in every run without a delivery that leaves a
node with an older name: the node it names has led that very term. -/
theorem hint_of_current_term (configs : NodeId → Config) (voters : List NodeId)
    {inputs : List Input} {c : Cluster}
    (hrun : (Cluster.init configs voters).run Cluster.keepsHints inputs = some c) {id x : NodeId}
    {f : Follower} (hrole : (c.nodes id).role = .follower f) (hleader : f.leader = some x) :
    ∃ past c', past <+: inputs ∧
      (Cluster.init configs voters).run Cluster.keepsHints past = some c' ∧
      (c'.nodes x).isLeader = true ∧ (c'.nodes x).term = (c.nodes id).term := by
  have hinit : Cluster.Named (Cluster.init configs voters) Cluster.keepsHints []
      (Cluster.init configs voters) := by
    refine ⟨rfl, Cluster.shaped_init configs voters, fun m hm => ?_, fun id x hx => ?_⟩
    · cases hm
    · cases hx
  have hnamed := runWhile_history (fun h hok hstep => Cluster.Named.step h hok hstep) hinit hrun
  have hhint : (c.nodes id).hint = some x := by
    rw [RaftNode.hint, hrole]
    exact hleader
  exact hnamed.hint id x hhint

/-- Node 1 of the trio hears from its leader. -/
def hearZero : List Input := electZero ++ [.deliver ⟨0, 1, 1, .appendRequest ⟨0, 0, [], 0⟩⟩]

theorem hint_of_current_term_trio : ∃ c f, trio.run Cluster.keepsHints hearZero = some c ∧
    (c.nodes 1).role = .follower f ∧ f.leader = some 0 ∧ ∃ past c', past <+: hearZero ∧
      trio.run Cluster.keepsHints past = some c' ∧ (c'.nodes 0).isLeader = true ∧
      (c'.nodes 0).term = (c.nodes 1).term := by
  have hrun : (trio.run Cluster.keepsHints hearZero).any (fun c =>
      decide ((c.nodes 1).hint = some 0)) = true := by
    decide +kernel
  obtain ⟨c, hc, hhint⟩ := (Option.any_eq_true _ _).1 hrun
  obtain ⟨f, hrole, hleader⟩ := RaftNode.exists_of_hint (of_decide_eq_true hhint)
  exact ⟨c, f, hc, hrole, hleader,
    hint_of_current_term (fun _ => quickConfig) [0, 1, 2] hc hrole hleader⟩

/-- Node 1 waits longer than the others before it campaigns. -/
def patientConfig (id : NodeId) : Config :=
  if id = 1 then { quickConfig with electionTimeout := slowTimeout } else quickConfig

/-- Node 1 hears from node 0, the leader of term 1. When it has not heard from it for a while, node
2 campaigns, for the second time, in term 2. -/
def campaignLater : List Input :=
  hearZero ++ [.tick 1, .tick 2, .tick 2, .deliver ⟨2, 1, 2, .voteRequest ⟨0, 0⟩⟩]

/-- **The name outlives its term**: node 1 votes in term 2 and still names node 0, which has never
led that term. -/
theorem hint_outlives_term : ∃ c f,
    (Cluster.init patientConfig [0, 1, 2]).run Cluster.fixed campaignLater = some c ∧
      (c.nodes 1).role = .follower f ∧ f.leader = some 0 ∧ (c.nodes 1).term = 2 ∧
      ∀ past c', past <+: campaignLater →
        (Cluster.init patientConfig [0, 1, 2]).run Cluster.fixed past = some c' →
        ¬((c'.nodes 0).isLeader = true ∧ (c'.nodes 0).term = 2) := by
  have hrun : ((Cluster.init patientConfig [0, 1, 2]).run Cluster.fixed campaignLater).any (fun c =>
      decide ((c.nodes 1).hint = some 0 ∧ (c.nodes 1).term = 2)) = true := by
    decide +kernel
  have hnever : ∀ k ≤ campaignLater.length,
      ((Cluster.init patientConfig [0, 1, 2]).run Cluster.fixed (campaignLater.take k)).all
        (fun c' => decide ¬((c'.nodes 0).isLeader = true ∧ (c'.nodes 0).term = 2)) = true := by
    decide +kernel
  obtain ⟨c, hc, hfacts⟩ := (Option.any_eq_true _ _).1 hrun
  obtain ⟨hhint, hterm⟩ := of_decide_eq_true hfacts
  obtain ⟨f, hrole, hleader⟩ := RaftNode.exists_of_hint hhint
  refine ⟨c, f, hc, hrole, hleader, hterm, fun past c' hpast hc' => ?_⟩
  have hall := hnever past.length hpast.length_le
  rw [← List.prefix_iff_eq_take.1 hpast, hc'] at hall
  exact of_decide_eq_true hall

end Cloud9
