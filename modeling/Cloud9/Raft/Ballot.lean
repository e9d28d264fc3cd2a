import Cloud9.Raft.Tenure
import Cloud9.Raft.Intact

/-!
# One vote a term

A node's `voted_for` is set, cleared and set to nothing on several paths through the roles, and read
back after a restart. What matters is the history: to whom the node has ever granted its vote of a
term. A `Ballot` records it, one candidate a term. Every call extends the ballot and agrees with it
on the present vote, and a change of term or vote is persisted (`Casts`), so a restart agrees with
it too.

**Theorem (`vote_once`).** Whatever a node receives, as long as its term does not overflow it never
falls, and all votes the node grants in a term go to one candidate. If it counts itself among the
votes of its own candidacy it grants none to others, unless someone claims to be the node: a node
that is no voter does not vote for itself, but takes a granted vote in its own name for one
(`forged_own_vote`, which also shows the term overflow).
-/

namespace Cloud9

/-! ## Granted votes -/

/-- The vote a message grants: the term and the candidate. -/
def Message.grant? (m : Message) : Option (ℕ × NodeId) :=
  match m.payload with
  | .voteResponse resp => if resp.granted then some (m.term, m.to) else none
  | _ => none

theorem Message.grant?_of_noise {m : Message} (h : m.payload.isNoise = true) : m.grant? = none := by
  unfold grant?
  split
  · next resp hp =>
    rw [hp] at h
    have hgranted : resp.granted = false := by simpa [Payload.isNoise] using h
    rw [hgranted]
    rfl
  · rfl

namespace Effects

def grants (e : Effects) : List (ℕ × NodeId) := e.messages.filterMap Message.grant?

@[simp] theorem grants_none : none.grants = [] := rfl

@[simp] theorem grants_withPersist (e : Effects) : e.withPersist.grants = e.grants := rfl

@[simp] theorem grants_merge (e f : Effects) : (e.merge f).grants = e.grants ++ f.grants :=
  List.filterMap_append ..

theorem grants_eq_nil {e : Effects} (h : ∀ m ∈ e.messages, m.grant? = Option.none) :
    e.grants = [] := List.filterMap_eq_nil_iff.2 h

theorem grants_of_noise {e : Effects} (h : ∀ m ∈ e.messages, m.payload.isNoise = true) :
    e.grants = [] := grants_eq_nil fun m hm => m.grant?_of_noise (h m hm)

end Effects

def Core.votedFor (core : Core) : Option NodeId := core.persistent.votedFor

/-! ## Ballots -/

/-- The votes of a node, by term. -/
abbrev Ballot := ℕ → Option NodeId

namespace Ballot

/-- No vote is taken back. -/
def Extends (b b' : Ballot) : Prop := ∀ t c, b t = some c → b' t = some c

theorem Extends.trans {b b' b'' : Ballot} (h : b.Extends b') (h' : b'.Extends b'') :
    b.Extends b'' := fun t c hc => h' t c (h t c hc)

/-- The node's vote is that of the ballot, which has none of later terms. -/
structure Holds (b : Ballot) (term : ℕ) (vote : Option NodeId) : Prop where
  now : b term = vote
  later : ∀ t, term < t → b t = none

variable {b : Ballot} {term : ℕ} {vote : Option NodeId}

/-- A new term starts with any vote. -/
theorem Holds.raise (h : b.Holds term vote) {term' : ℕ} (hlt : term < term')
    (vote' : Option NodeId) :
    b.Extends (Function.update b term' vote') ∧
      Holds (Function.update b term' vote') term' vote' := by
  refine ⟨fun t c hc => ?_, Function.update_self .., fun t ht => ?_⟩
  · rw [Function.update_of_ne]
    · exact hc
    · rintro rfl
      rw [h.later t hlt] at hc
      cases hc
  · rw [Function.update_of_ne (Nat.ne_of_gt ht)]
    exact h.later t (Nat.lt_trans hlt ht)

/-- A vote is cast for a candidate if there is none for another. -/
theorem Holds.cast (h : b.Holds term vote) {c : NodeId} (hfree : vote = none ∨ vote = some c) :
    b.Extends (Function.update b term (some c)) ∧
      Holds (Function.update b term (some c)) term (some c) := by
  refine ⟨fun t c' hc => ?_, Function.update_self .., fun t ht => ?_⟩
  · rcases eq_or_ne t term with rfl | hne
    · rw [h.now] at hc
      rw [Function.update_self]
      rcases hfree with hnone | hsome
      · rw [hnone] at hc
        cases hc
      · rw [← hsome, hc]
    · rw [Function.update_of_ne hne]
      exact hc
  · rw [Function.update_of_ne (Nat.ne_of_gt ht)]
    exact h.later t ht

end Ballot

/-- What a step does to the vote: the term does not fall, every ballot can be extended to one that
holds afterwards and contains the votes granted on the way, and what has changed is persisted. -/
structure Casts (core core' : Core) (e : Effects) : Prop where
  term : core.term ≤ core'.term
  ballot : ∀ b : Ballot, b.Holds core.term core.votedFor → ∃ b' : Ballot, b.Extends b' ∧
    b'.Holds core'.term core'.votedFor ∧ ∀ g ∈ e.grants, b' g.1 = some g.2
  saved : e.persist = false → core'.term = core.term ∧ core'.votedFor = core.votedFor

namespace Casts

variable {core core' core'' : Core} {e e' : Effects}

/-- Term and vote are kept, and no vote is granted. -/
theorem kept (hterm : core'.term = core.term) (hvote : core'.votedFor = core.votedFor)
    (he : e.grants = []) : Casts core core' e where
  term := Nat.le_of_eq hterm.symm
  ballot b hb := ⟨b, fun _ _ h => h, by rw [hterm, hvote]; exact hb, by rw [he]; exact nofun⟩
  saved _ := ⟨hterm, hvote⟩

/-- A later term is adopted. -/
theorem raised (hterm : core.term < core'.term) (he : e.grants = []) (hp : e.persist = true) :
    Casts core core' e where
  term := Nat.le_of_lt hterm
  ballot b hb :=
    ⟨_, (hb.raise hterm core'.votedFor).1, (hb.raise hterm core'.votedFor).2,
      by rw [he]; exact nofun⟩
  saved h := by rw [hp] at h; cases h

theorem merge (h : Casts core core' e) (h' : Casts core' core'' e') :
    Casts core core'' (e.merge e') where
  term := Nat.le_trans h.term h'.term
  ballot b hb := by
    obtain ⟨b', hext, hb', hgrants⟩ := h.ballot b hb
    obtain ⟨b'', hext', hb'', hgrants'⟩ := h'.ballot b' hb'
    refine ⟨b'', hext.trans hext', hb'', fun g hg => ?_⟩
    rw [Effects.grants_merge, List.mem_append] at hg
    rcases hg with hg | hg
    · exact hext' _ _ (hgrants g hg)
    · exact hgrants' g hg
  saved hp := by
    rw [Effects.merge_persist, Bool.or_eq_false_iff] at hp
    obtain ⟨hterm, hvote⟩ := h.saved hp.1
    obtain ⟨hterm', hvote'⟩ := h'.saved hp.2
    exact ⟨hterm'.trans hterm, hvote'.trans hvote⟩

theorem maybeUpdateTerm {term : ℕ} (h : core.term < term) :
    Casts core (core.maybeUpdateTerm term).2 Effects.none.withPersist := by
  have hup : core.maybeUpdateTerm term = (true, { core with persistent :=
      { core.persistent with term := term, votedFor := none } }) := if_pos h
  rw [hup]
  exact .raised h rfl rfl

/-- Only the clock and the random numbers have moved. -/
theorem talk {ticks : ℕ} {rng : UInt64} (he : ∀ m ∈ e.messages, m.payload.isNoise = true) :
    Casts core { core with ticks := ticks, rng := rng } e :=
  .kept rfl rfl (Effects.grants_of_noise he)

theorem silent {ticks : ℕ} {rng : UInt64} :
    Casts core { core with ticks := ticks, rng := rng } Effects.none := .talk Effects.noise_none

end Casts

/-! ## Roles -/

theorem PreCandidate.step_casts (p : PreCandidate) (core : Core) (event : Event) :
    Casts core (p.step core event).2.1 (p.step core event).2.2.effects := by
  cases event with
  | tick =>
    simp only [step, handleTick]
    split_ifs <;> exact .silent
  | diskWriteComplete index => exact .silent
  | message msg =>
    simp only [step, handleMessage]
    split
    · exact .talk (core.denyVote_noise msg)
    · split
      · next hterm => exact .maybeUpdateTerm hterm
      · unfold dispatch
        split
        · unfold handlePrevoteResponse
          dsimp only
          split_ifs with hterm
          · exact .maybeUpdateTerm hterm
          all_goals exact .silent
        · exact .silent
        · exact .talk (core.prevoteReply_noise _ _ _)
        · exact .talk (Effects.noise_withMessage rfl)
        · exact .silent
        · exact .silent

theorem Candidate.step_casts (c : Candidate) (core : Core) (event : Event) :
    Casts core (c.step core event).2.1 (c.step core event).2.2.effects := by
  cases event with
  | tick =>
    simp only [step, handleTick]
    split_ifs <;> exact .silent
  | diskWriteComplete index => exact .silent
  | message msg =>
    simp only [step, handleMessage]
    split
    · exact .talk (core.denyVote_noise msg)
    · split
      · exact .talk (core.prevoteReply_noise _ _ _)
      · split
        · next hterm => exact .maybeUpdateTerm hterm
        · split
          · exact .talk (core.rejectStale_noise msg)
          · unfold dispatch
            split
            · unfold handleVoteResponse
              dsimp only
              split_ifs <;> exact .silent
            · exact .silent
            · exact .talk (Effects.noise_withMessage rfl)
            · exact .silent
            · exact .silent

namespace Follower

theorem handleVoteRequest_casts (f : Follower) (core : Core) (sender : NodeId) (req : VoteRequest) :
    Casts core (f.handleVoteRequest core sender req).2.1
      (f.handleVoteRequest core sender req).2.2.effects := by
  unfold handleVoteRequest
  dsimp only
  split_ifs with hgranted
  · simp only [Bool.and_eq_true, Core.canVoteFor, Bool.or_eq_true, Option.isNone_iff_eq_none,
      beq_iff_eq] at hgranted
    have hfree : core.votedFor = none ∨ core.votedFor = some sender := hgranted.1.2
    refine ⟨Nat.le_refl _, fun b hb => ⟨_, (hb.cast hfree).1, (hb.cast hfree).2, ?_⟩, nofun⟩
    intro g hg
    have hg : g ∈ [(core.term, sender)] := hg
    obtain rfl := List.mem_singleton.1 hg
    exact Function.update_self ..
  · exact .talk (Effects.noise_withMessage rfl)

theorem handleAppendRequest_casts (f : Follower) (core : Core) (sender : NodeId)
    (req : AppendRequest) :
    Casts core (f.handleAppendRequest core sender req).2.1
      (f.handleAppendRequest core sender req).2.2.effects := by
  unfold handleAppendRequest
  dsimp only
  split_ifs with hprev hflag
  · exact .kept (by rw [Core.term, acceptAppend_persistent]; rfl)
      (by rw [Core.votedFor, acceptAppend_persistent]; rfl) rfl
  · exact .kept (by rw [Core.term, acceptAppend_persistent]; rfl)
      (by rw [Core.votedFor, acceptAppend_persistent]; rfl) rfl
  · exact .talk (Effects.noise_withMessage rfl)

theorem dispatch_casts (f : Follower) (core : Core) (msg : Message) :
    Casts core (f.dispatch core msg).2.1 (f.dispatch core msg).2.2.effects := by
  unfold dispatch
  split
  · exact f.handleVoteRequest_casts core msg.from _
  · exact f.handleAppendRequest_casts core msg.from _
  · exact .talk (Effects.noise_withMessage rfl)
  · unfold handleInstallSnapshot
    dsimp only
    split_ifs <;> exact .kept rfl rfl rfl
  · exact .silent
  · exact .silent

theorem step_casts (f : Follower) (core : Core) (event : Event) :
    Casts core (f.step core event).2.1 (f.step core event).2.2.effects := by
  cases event with
  | tick =>
    simp only [step, handleTick]
    split_ifs <;> exact .silent
  | diskWriteComplete index => exact .silent
  | message msg =>
    simp only [step, handleMessage]
    split
    · exact .talk (core.denyVote_noise msg)
    · split
      · exact .talk (core.prevoteReply_noise _ _ _)
      · rcases f.adoptTerm_cases core msg with ⟨-, hadopt⟩ | ⟨hterm, f', rng, hadopt⟩
        · rw [hadopt]
          simp only [Bool.false_eq_true, if_false]
          split_ifs
          · exact .talk (rejectStale_noise core msg)
          · exact f.dispatch_casts core msg
        · -- The adopted term is persisted together with whatever the handler does.
          rw [hadopt]
          have hnot : ¬msg.term < Core.term { core with
              persistent := { core.persistent with term := msg.term, votedFor := none }
              rng := rng } := Nat.lt_irrefl _
          have hraised : Casts core { core with
              persistent := { core.persistent with term := msg.term, votedFor := none }
              rng := rng } Effects.none.withPersist := .raised hterm rfl rfl
          simp only [if_neg hnot, if_true]
          exact hraised.merge (f'.dispatch_casts _ msg)

end Follower

namespace Leader

theorem sendAppendTo_grants (l : Leader) (core : Core) (peer : NodeId) :
    (l.sendAppendTo core peer).2.grants = [] := by
  unfold sendAppendTo
  dsimp only
  split_ifs <;> rfl

theorem broadcastAppend_grants (l : Leader) (core : Core) :
    (l.broadcastAppend core).2.grants = [] := by
  refine broadcastAppend_induct (I := fun _ e => e.grants = []) (fun l e peer he => ?_) rfl
  rw [Effects.grants_merge, he, sendAppendTo_grants, List.nil_append]

/-- The commit loop keeps term and vote, and grants nothing. -/
theorem maybeCommit_vote (l : Leader) (core : Core) :
    (l.maybeCommit core).2.1.term = core.term ∧
      (l.maybeCommit core).2.1.votedFor = core.votedFor ∧
      (l.maybeCommit core).2.2.1.grants = [] := by
  refine maybeCommit_induct (I := fun _ core' e => core'.term = core.term ∧
    core'.votedFor = core.votedFor ∧ e.grants = []) ?_ ?_ ?_ l ⟨rfl, rfl, rfl⟩
  · exact fun _ _ _ _ h _ _ => h
  · rintro l core' e cfg ⟨hterm, hvote, he⟩
    refine ⟨hterm, hvote, ?_⟩
    rw [Effects.grants_merge, he, Effects.grants_of_noise (l.tryAutoTransfer_noise core' cfg).2,
      List.nil_append]
  · rintro l core' e target ⟨hterm, hvote, he⟩
    refine ⟨hterm, hvote, ?_⟩
    rw [Effects.grants_merge, he, List.nil_append]
    exact broadcastAppend_grants _ _

theorem afterCommit_casts (l : Leader) (core : Core) :
    Casts core (afterCommit (l.maybeCommit core)).2.1
      (afterCommit (l.maybeCommit core)).2.2.effects := by
  obtain ⟨hterm, hvote, hgrants⟩ := l.maybeCommit_vote core
  unfold afterCommit
  dsimp only
  split_ifs <;> exact .kept hterm hvote hgrants

theorem step_casts (l : Leader) (core : Core) (event : Event) :
    Casts core (l.step core event).2.1 (l.step core event).2.2.effects := by
  have hstep := l.step_stepped core event
  generalize l.step core event = r at hstep
  cases hstep with
  | quiet _ _ _ _ _ _ he => exact .talk he
  | heartbeat l' ticks e _ _ he =>
    refine .kept rfl rfl ?_
    rw [StepResult.stay, Effects.grants_merge, broadcastAppend_grants, Effects.grants_of_noise he]
    rfl
  | adopt msg leader hterm => exact .maybeUpdateTerm hterm
  | retried => exact .kept rfl rfl (sendAppendTo_grants _ _ _)
  | disk | acked | installed => exact afterCommit_casts _ _

theorem new_grants (core : Core) : (Leader.new core).2.grants = [] := broadcastAppend_grants _ _

end Leader

namespace RaftNode

theorem becomeCandidate_casts (core : Core) (e : Effects) (he : e.grants = []) :
    Casts core (becomeCandidate core e).1.core (becomeCandidate core e).2 := by
  have hnew : core.term < (Candidate.new core).2.1.term ∧ (Candidate.new core).2.2.grants = [] ∧
      (Candidate.new core).2.2.persist = true := by
    unfold Candidate.new
    dsimp only
    split
    · exact ⟨Nat.lt_succ_self _, rfl, rfl⟩
    · refine ⟨Nat.lt_succ_self _, Effects.grants_eq_nil fun m hm => ?_, rfl⟩
      obtain ⟨peer, -, rfl⟩ := List.mem_map.1 hm
      rfl
  obtain ⟨hterm, hgrants, hpersist⟩ := hnew
  unfold becomeCandidate
  dsimp only
  split_ifs
  · refine .raised hterm ?_ (by simp [becomeLeader, hpersist])
    simp only [becomeLeader, Effects.grants_merge, he, hgrants, Leader.new_grants, List.append_nil]
  · refine .raised hterm ?_ (by simp [hpersist])
    rw [Effects.grants_merge, he, hgrants, List.append_nil]

theorem applyTransition_casts (n : RaftNode) (t : Transition) :
    Casts n.core (n.applyTransition t).1.core (n.applyTransition t).2 := by
  cases t with
  | stay => exact .silent
  | toFollower leader => exact .silent
  | toFollowerAfterContact leader => exact .silent
  | toPreCandidate =>
    have hnew : (PreCandidate.new n.core).2.1.persistent = n.core.persistent ∧
        (PreCandidate.new n.core).2.2.grants = [] := by
      unfold PreCandidate.new
      dsimp only
      split
      · exact ⟨rfl, rfl⟩
      · refine ⟨rfl, Effects.grants_eq_nil fun m hm => ?_⟩
        obtain ⟨peer, -, rfl⟩ := List.mem_map.1 hm
        rfl
    have hkept : Casts n.core (PreCandidate.new n.core).2.1 Effects.none :=
      .kept (congrArg Persistent.term hnew.1) (congrArg Persistent.votedFor hnew.1) rfl
    simp only [applyTransition]
    split_ifs
    · exact hkept.merge (becomeCandidate_casts _ _ hnew.2)
    · exact .kept (congrArg Persistent.term hnew.1) (congrArg Persistent.votedFor hnew.1) hnew.2
  | toCandidate => exact becomeCandidate_casts _ _ rfl
  | toLeader =>
    refine .kept rfl rfl ?_
    simp only [applyTransition, becomeLeader, Effects.grants_merge, Leader.new_grants]
    rfl

theorem stepEvent_casts (n : RaftNode) (event : Event) :
    Casts n.core (n.stepEvent event).1.core (n.stepEvent event).2 := by
  have hrole : Casts n.core (n.roleStep event).1.core (n.roleStep event).2.effects := by
    obtain ⟨core, role⟩ := n
    cases role with
    | follower f => exact f.step_casts core event
    | preCandidate p => exact p.step_casts core event
    | candidate c => exact c.step_casts core event
    | leader l => exact l.step_casts core event
  exact hrole.merge (applyTransition_casts _ _)

theorem publish_casts {core core' : Core} {l : Leader} (hterm : core'.term = core.term)
    (hvote : core'.votedFor = core.votedFor) (hconfig : core'.config = core.config) :
    Casts core (l.publish core').1.core (l.publish core').2 ∧
      (l.publish core').1.core.config = core.config := by
  obtain ⟨hterm', hvote', hgrants⟩ := l.maybeCommit_vote core'
  have hconfig' := l.maybeCommit_config core'
  have hsettle : ∀ down,
      (settle (l.maybeCommit core').2.1 ((l.maybeCommit core').1.broadcastAppend
        (l.maybeCommit core').2.1).1 down).core.persistent =
          (l.maybeCommit core').2.1.persistent ∧
      (settle (l.maybeCommit core').2.1
        ((l.maybeCommit core').1.broadcastAppend (l.maybeCommit core').2.1).1 down).core.config =
          (l.maybeCommit core').2.1.config := by
    intro down
    cases down <;> exact ⟨rfl, rfl⟩
  obtain ⟨hp, hc⟩ := hsettle (l.maybeCommit core').2.2.2
  refine ⟨.kept (((congrArg Persistent.term hp).trans hterm').trans hterm)
    (((congrArg Persistent.votedFor hp).trans hvote').trans hvote) ?_,
    (hc.trans hconfig').trans hconfig⟩
  simp only [Leader.publish, Effects.grants_merge, Effects.grants_withPersist,
    Leader.broadcastAppend_grants, hgrants, List.append_nil]

/-- **One call.** -/
theorem call_casts {n n' : RaftNode} {call : ApiCall} {e : Effects}
    (h : n.call call = some (n', e)) :
    Casts n.core n'.core e ∧ n'.core.config = n.core.config := by
  cases hn : n.isLeader with
  | true =>
    obtain ⟨core, role⟩ := n
    cases role with
    | leader l =>
      cases call_leader h with
      | event event =>
        exact ⟨stepEvent_casts ⟨core, .leader l⟩ event, stepEvent_config ⟨core, .leader l⟩ event⟩
      | command cmd => exact publish_casts rfl rfl rfl
      | change change core' _ hcore =>
        subst hcore
        exact publish_casts rfl rfl rfl
      | quiet _ _ _ _ _ _ he => exact ⟨.kept rfl rfl (Effects.grants_of_noise he), rfl⟩
    | _ => cases hn
  | false =>
    rcases call_other hn h with ⟨event, rfl⟩ | ⟨applied, rfl, rfl⟩
    · cases h
      exact ⟨n.stepEvent_casts event, n.stepEvent_config event⟩
    · exact ⟨.kept rfl rfl rfl, rfl⟩

end RaftNode

/-! ## The own vote -/

/-- The sender of a granted vote. -/
def Event.voter : Event → Option NodeId
  | .message msg =>
    match msg.payload with
    | .voteResponse resp => if resp.granted then some msg.from else none
    | _ => none
  | _ => none

/-- A candidate that stays keeps its vote, and counts only votes it receives. -/
theorem Candidate.step_votes (c : Candidate) (core : Core) (event : Event) :
    (c.step core event).2.2.transition = .stay →
      (c.step core event).2.1.votedFor = core.votedFor ∧
      ∀ id ∈ (c.step core event).1.votes, id ∈ c.votes ∨ event.voter = some id := by
  have hsame : ∀ core' : Core, core'.votedFor = core.votedFor →
      core'.votedFor = core.votedFor ∧ ∀ id ∈ c.votes, id ∈ c.votes ∨ event.voter = some id :=
    fun core' h => ⟨h, fun id hid => .inl hid⟩
  cases event with
  | tick =>
    simp only [step, handleTick]
    split_ifs <;> exact fun _ => hsame _ rfl
  | diskWriteComplete index => exact fun _ => hsame _ rfl
  | message msg =>
    simp only [step, handleMessage]
    split
    · exact fun _ => hsame _ rfl
    · split
      · exact fun _ => hsame _ rfl
      · split
        · exact fun h => by cases h
        · split
          · exact fun _ => hsame _ rfl
          · unfold dispatch
            split
            · next resp hresp =>
              unfold handleVoteResponse
              dsimp only
              split_ifs with hdenied
              · exact fun _ => hsame _ rfl
              · exact fun h => by cases h
              · have hvoter : (Event.message msg).voter = some msg.from := by
                  have hgranted : resp.granted = true := by simpa using hdenied
                  simp [Event.voter, hresp, hgranted]
                refine fun _ => ⟨rfl, fun id hid => ?_⟩
                rcases OrdSet.mem_insert.1 hid with rfl | hid
                · exact .inr hvoter
                · exact .inl hid
            · unfold handleAppendRequest
              exact fun h => by cases h
            · exact fun _ => hsame _ rfl
            · exact fun h => by cases h
            · exact fun _ => hsame _ rfl

namespace RaftNode

/-- A candidate that counts itself has voted for itself. -/
def Backed (n : RaftNode) : Prop :=
  ∀ c, n.role = .candidate c → n.id ∈ c.votes → n.core.votedFor = some n.id

theorem becomeCandidate_backed (core : Core) (e : Effects) : (becomeCandidate core e).1.Backed := by
  have hnew : core.id ∈ (Candidate.new core).1.votes →
      (Candidate.new core).2.1.votedFor = some core.id := by
    have hvotes : (Candidate.new core).1.votes =
        if core.isVoter then OrdSet.empty.insert core.id else OrdSet.empty := by
      unfold Candidate.new
      dsimp only
      split <;> rfl
    have hvoted :
        (Candidate.new core).2.1.votedFor = if core.isVoter then some core.id else none := by
      unfold Candidate.new
      dsimp only
      split <;> rfl
    rw [hvotes, hvoted]
    intro hid
    split_ifs at hid ⊢
    · rfl
    · exact absurd hid (OrdSet.not_mem_empty _)
  have hid : (Candidate.new core).2.1.id = core.id := by
    unfold Candidate.new
    dsimp only
    split <;> rfl
  unfold becomeCandidate
  dsimp only
  split_ifs
  · exact nofun
  · intro c hc hmem
    cases hc
    show (Candidate.new core).2.1.votedFor = some (Candidate.new core).2.1.id
    rw [hid]
    exact hnew (hid ▸ hmem)

theorem applyTransition_backed (n : RaftNode) {t : Transition} (h : t = .stay → n.Backed) :
    (n.applyTransition t).1.Backed := by
  cases t with
  | stay => exact h rfl
  | toPreCandidate =>
    simp only [applyTransition]
    split_ifs
    · exact becomeCandidate_backed _ _
    · exact fun _ hrole => by cases hrole
  | toCandidate => exact becomeCandidate_backed _ _
  | _ => exact fun _ hrole => by cases hrole

theorem stepEvent_backed {n : RaftNode} {event : Event} (h : n.Backed)
    (hvoter : event.voter ≠ some n.id) : (n.stepEvent event).1.Backed := by
  refine applyTransition_backed _ fun hstay => ?_
  obtain ⟨core, role⟩ := n
  cases role with
  | candidate c =>
    obtain ⟨hvote, hvotes⟩ := c.step_votes core event hstay
    have hid : (c.step core event).2.1.id = core.id :=
      congrArg Config.id (c.step_steady core event).config
    intro c' hc' hmem
    cases hc'
    show (c.step core event).2.1.votedFor = some (c.step core event).2.1.id
    rw [hvote, hid]
    refine h c rfl ?_
    have hmem : (c.step core event).2.1.id ∈ (c.step core event).1.votes := hmem
    rw [hid] at hmem
    exact (hvotes _ hmem).resolve_right hvoter
  | _ => exact nofun

theorem publish_backed (l : Leader) (core : Core) : (l.publish core).1.Backed := by
  unfold Leader.publish
  dsimp only
  cases (l.maybeCommit core).2.2.2 <;> exact nofun

end RaftNode

/-- The sender of a granted vote that a call delivers. -/
def ApiCall.voter : ApiCall → Option NodeId
  | .event ev => ev.voter
  | _ => none

theorem RaftNode.call_backed {n n' : RaftNode} {call : ApiCall} {e : Effects} (h : n.Backed)
    (hvoter : call.voter ≠ some n.id) (hcall : n.call call = some (n', e)) : n'.Backed := by
  cases hn : n.isLeader with
  | true =>
    obtain ⟨core, role⟩ := n
    cases role with
    | leader l =>
      cases call_leader hcall with
      | event event => exact stepEvent_backed h hvoter
      | command cmd => exact publish_backed _ _
      | change change core' _ hcore => exact publish_backed _ _
      | quiet => exact nofun
    | _ => cases hn
  | false =>
    rcases call_other hn hcall with ⟨event, rfl⟩ | ⟨applied, rfl, rfl⟩
    · cases hcall
      exact stepEvent_backed h hvoter
    · exact h

/-! ## The range of terms -/

/-- A term inside a payload that its receiver may adopt. -/
def Payload.term : Payload → ℕ
  | .preVoteResponse resp => resp.term
  | _ => 0

/-- The highest term that an event brings along. -/
def Event.term : Event → ℕ
  | .message msg => max msg.term msg.payload.term
  | _ => 0

theorem Core.maybeUpdateTerm_le (core : Core) {term limit : ℕ} (h : term ≤ limit) :
    (core.maybeUpdateTerm term).2.term ≤ max core.term limit := by
  unfold maybeUpdateTerm
  split_ifs
  · exact h.trans (Nat.le_max_right _ _)
  · exact Nat.le_max_left _ _

theorem PreCandidate.step_term_le (p : PreCandidate) (core : Core) (event : Event) :
    (p.step core event).2.1.term ≤ max core.term event.term := by
  cases event with
  | tick =>
    simp only [step, handleTick]
    split_ifs <;> exact Nat.le_max_left _ _
  | diskWriteComplete index => exact Nat.le_max_left _ _
  | message msg =>
    simp only [step, handleMessage]
    split
    · exact Nat.le_max_left _ _
    · split
      · exact core.maybeUpdateTerm_le (Nat.le_max_left _ _)
      · unfold dispatch
        split
        · next resp hresp =>
          have hle : resp.term ≤ (Event.message msg).term := by
            rw [Event.term, hresp]
            exact Nat.le_max_right _ _
          unfold handlePrevoteResponse
          dsimp only
          split_ifs
          · exact core.maybeUpdateTerm_le hle
          all_goals exact Nat.le_max_left _ _
        all_goals exact Nat.le_max_left _ _

theorem Candidate.step_term_le (c : Candidate) (core : Core) (event : Event) :
    (c.step core event).2.1.term ≤ max core.term event.term := by
  cases event with
  | tick =>
    simp only [step, handleTick]
    split_ifs <;> exact Nat.le_max_left _ _
  | diskWriteComplete index => exact Nat.le_max_left _ _
  | message msg =>
    simp only [step, handleMessage]
    split
    · exact Nat.le_max_left _ _
    · split
      · exact Nat.le_max_left _ _
      · split
        · exact core.maybeUpdateTerm_le (Nat.le_max_left _ _)
        · split
          · exact Nat.le_max_left _ _
          · unfold dispatch
            split
            · unfold handleVoteResponse
              dsimp only
              split_ifs <;> exact Nat.le_max_left _ _
            all_goals exact Nat.le_max_left _ _

theorem Follower.dispatch_term (f : Follower) (core : Core) (msg : Message) :
    (f.dispatch core msg).2.1.term = core.term := by
  unfold dispatch
  split
  · unfold handleVoteRequest
    dsimp only
    split_ifs <;> rfl
  · unfold handleAppendRequest
    dsimp only
    split_ifs
    · rw [Core.term, acceptAppend_persistent]
      rfl
    · rw [Core.term, acceptAppend_persistent]
      rfl
    · rfl
  · rfl
  · unfold handleInstallSnapshot
    dsimp only
    split_ifs <;> rfl
  · rfl
  · rfl

theorem Follower.step_term_le (f : Follower) (core : Core) (event : Event) :
    (f.step core event).2.1.term ≤ max core.term event.term := by
  cases event with
  | tick =>
    simp only [step, handleTick]
    split_ifs <;> exact Nat.le_max_left _ _
  | diskWriteComplete index => exact Nat.le_max_left _ _
  | message msg =>
    simp only [step, handleMessage]
    split
    · exact Nat.le_max_left _ _
    · split
      · exact Nat.le_max_left _ _
      · rcases f.adoptTerm_cases core msg with ⟨-, hadopt⟩ | ⟨-, f', rng, hadopt⟩
        · rw [hadopt]
          dsimp only
          split
          · exact Nat.le_max_left _ _
          · exact (Nat.le_of_eq (f.dispatch_term core msg)).trans (Nat.le_max_left _ _)
        · rw [hadopt]
          dsimp only
          have hle : msg.term ≤ max core.term (Event.message msg).term :=
            (Nat.le_max_left msg.term msg.payload.term).trans (Nat.le_max_right _ _)
          split
          · exact hle
          · exact (Nat.le_of_eq (f'.dispatch_term _ msg)).trans hle

theorem Leader.step_term_le (l : Leader) (core : Core) (event : Event) :
    (l.step core event).2.1.term ≤ max core.term event.term := by
  have hcommit : ∀ l : Leader,
      (afterCommit (l.maybeCommit core)).2.1.term ≤ max core.term event.term :=
    fun l => (Nat.le_of_eq (l.maybeCommit_vote core).1).trans (Nat.le_max_left _ _)
  have hstep := l.step_stepped core event
  generalize l.step core event = r at hstep
  cases hstep with
  | adopt msg leader hterm => exact core.maybeUpdateTerm_le (Nat.le_max_left _ _)
  | disk | acked | installed => exact hcommit _
  | quiet | heartbeat | retried => exact Nat.le_max_left _ _

namespace RaftNode

theorem becomeCandidate_term (core : Core) (e : Effects) :
    (becomeCandidate core e).1.term = core.term + 1 := by
  have hnew : (Candidate.new core).2.1.term = core.term + 1 := by
    unfold Candidate.new
    dsimp only
    split <;> rfl
  unfold becomeCandidate
  dsimp only
  split_ifs <;> exact hnew

/-- An election raises the term by one. -/
theorem applyTransition_term_le (n : RaftNode) (t : Transition) :
    (n.applyTransition t).1.term ≤ n.term + 1 := by
  have hnew : (PreCandidate.new n.core).2.1.term = n.term := by
    unfold PreCandidate.new
    dsimp only
    split <;> rfl
  cases t with
  | toPreCandidate =>
    simp only [applyTransition]
    split_ifs
    · rw [becomeCandidate_term, hnew]
    · exact (Nat.le_of_eq hnew).trans (Nat.le_succ _)
  | toCandidate => exact Nat.le_of_eq (becomeCandidate_term _ _)
  | _ => exact Nat.le_succ _

theorem stepEvent_term_le (n : RaftNode) (event : Event) :
    (n.stepEvent event).1.term ≤ max n.term event.term + 1 := by
  have hrole : (n.roleStep event).1.term ≤ max n.term event.term := by
    obtain ⟨core, role⟩ := n
    cases role with
    | follower f => exact f.step_term_le core event
    | preCandidate p => exact p.step_term_le core event
    | candidate c => exact c.step_term_le core event
    | leader l => exact l.step_term_le core event
  exact (applyTransition_term_le _ _).trans (Nat.succ_le_succ hrole)

end RaftNode

/-- The highest term that a call brings along. -/
def ApiCall.term : ApiCall → ℕ
  | .event ev => ev.term
  | _ => 0

theorem RaftNode.call_term_le {n n' : RaftNode} {call : ApiCall} {e : Effects}
    (h : n.call call = some (n', e)) : n'.term ≤ max n.term call.term + 1 := by
  have hkept : n'.term = n.term → n'.term ≤ max n.term call.term + 1 := fun h => by omega
  cases hn : n.isLeader with
  | true =>
    obtain ⟨core, role⟩ := n
    cases role with
    | leader l =>
      cases call_leader h with
      | event event => exact stepEvent_term_le ⟨core, .leader l⟩ event
      | command cmd => exact hkept (publish_term _ _)
      | change change core' _ hcore =>
        subst hcore
        exact hkept (publish_term _ _)
      | quiet => exact hkept rfl
    | _ => cases hn
  | false =>
    rcases call_other hn h with ⟨event, rfl⟩ | ⟨applied, rfl, rfl⟩
    · have hle := n.stepEvent_term_le event
      rw [Option.some.inj h] at hle
      exact hle
    · exact hkept rfl

/-! ## Lifetimes -/

namespace RaftNode

/-- The node is a candidate and counts itself among its votes. -/
def countsItself (n : RaftNode) : Bool :=
  match n.role with
  | .candidate c => c.votes.contains n.id
  | _ => false

/-- It counts itself, or has voted for itself: an election that is won at once leaves no candidate
behind. -/
def votesForItself (n : RaftNode) : Bool :=
  n.countsItself || decide (n.core.votedFor = some n.id)

theorem Backed.votedFor {n : RaftNode} (h : n.Backed) (hself : n.votesForItself = true) :
    n.core.votedFor = some n.id := by
  simp only [votesForItself, Bool.or_eq_true, decide_eq_true_eq] at hself
  rcases hself with hcounts | hvoted
  · unfold countsItself at hcounts
    split at hcounts
    · next c hc => exact h c hc (OrdSet.contains_eq_true.1 hcounts)
    · cases hcounts
  · exact hvoted

end RaftNode

/-- A node over its restarts, with the history of its votes. -/
structure Elector where
  node : RaftNode
  /-- The persistent state of the last call that asked to persist it. -/
  saved : Persistent
  /-- The votes granted so far: term and candidate. -/
  granted : List (ℕ × NodeId)
  /-- The terms in which the node voted for itself or counted itself. -/
  counted : List ℕ

/-- A call, or a crash followed by a restart. -/
inductive ElectorInput where
  | call (call : ApiCall)
  | restart

def ElectorInput.voter : ElectorInput → Option NodeId
  | .call c => c.voter
  | .restart => none

def ElectorInput.term : ElectorInput → ℕ
  | .call c => c.term
  | .restart => 0

namespace Elector

def start (config : Config) (persistent : Persistent) : Elector :=
  ⟨RaftNode.restore config persistent, persistent, [], []⟩

/-- The node goes on as `n`, with effects `e`. -/
def observe (s : Elector) (n : RaftNode) (e : Effects) : Elector where
  node := n
  saved := if e.persist then n.persistent else s.saved
  granted := s.granted ++ e.grants
  counted := if n.votesForItself then n.term :: s.counted else s.counted

def step (s : Elector) : ElectorInput → Option Elector
  | .call call => (s.node.call call).map fun (n, e) => s.observe n e
  | .restart => some (s.observe (RaftNode.restore s.node.core.config s.saved) Effects.none)

def run (s : Elector) (inputs : List ElectorInput) : Option Elector :=
  runWhile step (fun _ _ => true) s inputs

variable {s s' : Elector} {b : Ballot} {id : NodeId}

/-- The ballot agrees with the node, with what is saved, and with every vote granted so far. -/
structure Recorded (b : Ballot) (id : NodeId) (s : Elector) : Prop where
  id : s.node.id = id
  node : b.Holds s.node.term s.node.core.votedFor
  saved : s.saved.term = s.node.term ∧ s.saved.votedFor = s.node.core.votedFor
  granted : ∀ g ∈ s.granted, b g.1 = some g.2

theorem recorded_start (config : Config) (persistent : Persistent) :
    ∃ b, Recorded b config.id (start config persistent) := by
  refine ⟨fun t => if t = persistent.term then persistent.votedFor else none, rfl, ⟨if_pos rfl, ?_⟩,
    ⟨rfl, rfl⟩, nofun⟩
  exact fun t ht => if_neg (Nat.ne_of_gt ht)

/-- **One step of a lifetime.** -/
theorem Recorded.step (h : Recorded b id s) {input : ElectorInput} (hs : s.step input = some s') :
    s.node.term ≤ s'.node.term ∧ ∃ b' : Ballot, b.Extends b' ∧ Recorded b' id s' := by
  cases input with
  | call call =>
    obtain ⟨⟨n, e⟩, hcall, rfl⟩ := Option.map_eq_some_iff.1 hs
    obtain ⟨hcasts, hconfig⟩ := RaftNode.call_casts hcall
    obtain ⟨b', hext, hholds, hgrants⟩ := hcasts.ballot b h.node
    refine ⟨hcasts.term, b', hext, (congrArg Config.id hconfig).trans h.id, hholds, ?_, ?_⟩
    · show (if e.persist then n.persistent else s.saved).term = n.term ∧
        (if e.persist then n.persistent else s.saved).votedFor = n.core.votedFor
      cases hp : e.persist with
      | true => exact ⟨rfl, rfl⟩
      | false =>
        obtain ⟨hterm, hvote⟩ := hcasts.saved hp
        exact ⟨h.saved.1.trans hterm.symm, h.saved.2.trans hvote.symm⟩
    · intro g hg
      rcases List.mem_append.1 hg with hg | hg
      · exact hext _ _ (h.granted g hg)
      · exact hgrants g hg
  | restart =>
    cases hs
    have hholds := h.node
    rw [← h.saved.1, ← h.saved.2] at hholds
    refine ⟨Nat.le_of_eq h.saved.1.symm, b, fun _ _ h => h, h.id, hholds, ⟨rfl, rfl⟩, ?_⟩
    intro g hg
    rcases List.mem_append.1 hg with hg | hg
    · exact h.granted g hg
    · cases hg

theorem Recorded.backed_step (h : Recorded b id s) (hb : s.node.Backed) {input : ElectorInput}
    (hvoter : input.voter ≠ some id) (hs : s.step input = some s') :
    s'.node.Backed ∧ (s'.counted = s.counted ∨
      s'.node.votesForItself = true ∧ s'.counted = s'.node.term :: s.counted) := by
  have hcounted : ∀ n e, (s.observe n e).counted = s.counted ∨
      n.votesForItself = true ∧ (s.observe n e).counted = n.term :: s.counted := by
    intro n e
    unfold observe
    dsimp only
    split_ifs with hself
    · exact .inr ⟨hself, rfl⟩
    · exact .inl rfl
  cases input with
  | call call =>
    obtain ⟨⟨n, e⟩, hcall, rfl⟩ := Option.map_eq_some_iff.1 hs
    rw [← h.id] at hvoter
    exact ⟨RaftNode.call_backed hb hvoter hcall, hcounted n e⟩
  | restart =>
    cases hs
    exact ⟨nofun, hcounted _ _⟩

theorem Recorded.step_term_le (h : Recorded b id s) {input : ElectorInput}
    (hs : s.step input = some s') : s'.node.term ≤ max s.node.term input.term + 1 := by
  cases input with
  | call call =>
    obtain ⟨⟨n, e⟩, hcall, rfl⟩ := Option.map_eq_some_iff.1 hs
    exact RaftNode.call_term_le hcall
  | restart =>
    cases hs
    have hsaved : s.saved.term ≤ max s.node.term 0 + 1 := by
      rw [h.saved.1]
      omega
    exact hsaved

/-- The history of a run whose inputs are `past`: one step raises the term by at most one above the
terms seen so far; and if none of the inputs is a granted vote in the name of the node, the terms in
which it counted itself are terms in which it voted for itself. -/
def History (id : NodeId) (start : ℕ) (past : List ElectorInput) (s : Elector) : Prop :=
  ∃ b : Ballot, Recorded b id s ∧
    (∀ limit, start ≤ limit → (∀ input ∈ past, input.term ≤ limit) →
      s.node.term ≤ limit + past.length) ∧
    ((∀ input ∈ past, input.voter ≠ some id) →
      s.node.Backed ∧ ∀ t ∈ s.counted, b t = some id)

theorem History.step {start : ℕ} {past : List ElectorInput} {input : ElectorInput}
    (h : History id start past s) (hs : s.step input = some s') :
    History id start (past ++ [input]) s' := by
  obtain ⟨b, hrec, hterm, hown⟩ := h
  obtain ⟨-, b', hext, hrec'⟩ := hrec.step hs
  refine ⟨b', hrec', fun limit hstart hpast => ?_, fun hpast => ?_⟩
  · have hle := hterm limit hstart fun i hi => hpast i (List.mem_append_left _ hi)
    have hinput := hpast input (by simp)
    have hstep := hrec.step_term_le hs
    rw [List.length_append, List.length_singleton]
    omega
  obtain ⟨hb, hcounted⟩ := hown fun i hi => hpast i (List.mem_append_left _ hi)
  obtain ⟨hb', hcounted'⟩ := hrec.backed_step hb (hpast input (by simp)) hs
  refine ⟨hb', fun t ht => ?_⟩
  rcases hcounted' with heq | ⟨hself, heq⟩
  · exact hext _ _ (hcounted t (heq ▸ ht))
  · rw [heq] at ht
    rcases List.mem_cons.1 ht with rfl | ht
    · rw [hrec'.node.now, hb'.votedFor hself, hrec'.id]
    · exact hext _ _ (hcounted t ht)

end Elector

/-- `start_election` with its sum on `u64`. -/
def Core.startElection64 (c : Core) : Core :=
  { c with persistent :=
      { c.persistent with
        term := wrappingAdd c.persistent.term 1
        votedFor := if c.isVoter then some c.config.id else none } }

theorem Core.startElection64_eq {c : Core} (h : c.term + 1 < 2 ^ 64) :
    c.startElection64 = c.startElection := by
  have hterm : wrappingAdd c.persistent.term 1 = c.persistent.term + 1 := wrappingAdd_of_lt h
  rw [startElection64, hterm, startElection]

/-- **One vote a term.** Over every lifetime of a node, whatever calls are made and whatever
messages arrive, with any number of restarts from what was persisted: the term never falls, and the
votes granted in a term all go to one candidate. If no granted vote arrives in the node's own name,
a term in which it counts itself is one in which it grants its vote to nobody else.

Terms are `u64`, so this needs room: the terms that come from outside are at most `limit`, and each
input raises the term by at most one beyond them. Then no election of the run overflows the term. -/
theorem vote_once {config : Config} {persistent : Persistent} {inputs inputs' : List ElectorInput}
    {s s' : Elector} {limit : ℕ} (hrun : (Elector.start config persistent).run inputs = some s)
    (hrun' : s.run inputs' = some s') (hstart : persistent.term ≤ limit)
    (hterms : ∀ input ∈ inputs ++ inputs', input.term ≤ limit)
    (hroom : limit + (inputs ++ inputs').length + 1 < 2 ^ 64) :
    s.node.term ≤ s'.node.term ∧ s'.node.core.startElection64 = s'.node.core.startElection ∧
    (∀ t a b, (t, a) ∈ s'.granted → (t, b) ∈ s'.granted → a = b) ∧
    ((∀ input ∈ inputs ++ inputs', input.voter ≠ some config.id) →
      ∀ t a, t ∈ s'.counted → (t, a) ∈ s'.granted → a = config.id) := by
  obtain ⟨b₀, hrecorded⟩ := Elector.recorded_start config persistent
  have hinit : Elector.History config.id persistent.term [] (Elector.start config persistent) :=
    ⟨b₀, hrecorded, fun limit hle _ => hle, fun _ => ⟨nofun, nofun⟩⟩
  have hhist : Elector.History config.id persistent.term ([] ++ inputs) s :=
    runWhile_history (I := Elector.History config.id persistent.term) (fun h _ hs => h.step hs)
      hinit hrun
  have hhist' : Elector.History config.id persistent.term (inputs ++ inputs') s' :=
    runWhile_history (I := Elector.History config.id persistent.term) (fun h _ hs => h.step hs)
      hhist hrun'
  obtain ⟨b, hrec, -⟩ := hhist
  obtain ⟨b', hrec', hterm', hown'⟩ := hhist'
  have hle : s'.node.core.term ≤ limit + (inputs ++ inputs').length := hterm' limit hstart hterms
  refine ⟨?_, Core.startElection64_eq (by omega), fun t a a' ha ha' => ?_,
    fun hinputs t a ht ha => ?_⟩
  · suffices h : s.node.term ≤ s'.node.term ∧ ∃ b, Elector.Recorded b config.id s' from h.1
    refine runWhile_invariant (I := fun s' => s.node.term ≤ s'.node.term ∧
      ∃ b, Elector.Recorded b config.id s') ?_ ⟨Nat.le_refl _, b, hrec⟩ hrun'
    rintro s₁ input s₂ ⟨hle, b₁, h₁⟩ - hs
    obtain ⟨hstep, b₂, -, h₂⟩ := h₁.step hs
    exact ⟨Nat.le_trans hle hstep, b₂, h₂⟩
  · exact Option.some.inj ((hrec'.granted _ ha).symm.trans (hrec'.granted _ ha'))
  · exact Option.some.inj ((hrec'.granted _ ha).symm.trans ((hown' hinputs).2 t ht))

/-- A message to a node. -/
def ElectorInput.receive (sender target : NodeId) (term : ℕ) (payload : Payload) : ElectorInput :=
  .call (.event (.message ⟨sender, target, term, payload⟩))

/-- Node 0 votes for node 1, restarts, refuses node 2, and campaigns in the next term. -/
theorem vote_once_restart :
    let inputs : List ElectorInput := [.receive 1 0 1 (.voteRequest ⟨0, 0⟩), .restart]
    let inputs' : List ElectorInput :=
      [.receive 2 0 1 (.voteRequest ⟨0, 0⟩), .receive 1 0 1 .timeoutNow]
    ∃ s s', (Elector.start (Config.new 0) (Core.initialPersistent [0, 1, 2])).run inputs = some s ∧
      s.run inputs' = some s' ∧ s'.granted = [(1, 1)] ∧ s'.counted = [2] ∧
      s.node.term ≤ s'.node.term ∧
      (∀ t a b, (t, a) ∈ s'.granted → (t, b) ∈ s'.granted → a = b) ∧
      ∀ t a, t ∈ s'.counted → (t, a) ∈ s'.granted → a = 0 := by
  intro inputs inputs'
  have hrun : ((Elector.start (Config.new 0) (Core.initialPersistent [0, 1, 2])).run inputs).any
      (fun s => (s.run inputs').any fun s' =>
        decide (s'.granted = [(1, 1)] ∧ s'.counted = [2])) = true := by decide +kernel
  obtain ⟨s, hs, hrest⟩ := (Option.any_eq_true _ _).1 hrun
  obtain ⟨s', hs', hfacts⟩ := (Option.any_eq_true _ _).1 hrest
  obtain ⟨hgranted, hcounted⟩ := of_decide_eq_true hfacts
  obtain ⟨hterm, -, hunique, hown⟩ := @vote_once _ _ _ _ _ _ 1 hs hs' (by decide) (by decide)
    (by decide)
  exact ⟨s, s', hs, hs', hgranted, hcounted, hterm, hunique, hown (by decide)⟩

/-- **A vote in the node's own name is counted.** Node 3 is no voter, so it campaigns without a vote
of its own. A granted vote that claims to come from node 3 itself is counted all the same; after a
restart the node votes for another candidate of that term. And **the term can wrap around**: a
message takes node 0 to the last but one term there is, and after one election more the next one is
of term 0. -/
theorem forged_own_vote :
    let campaign : List ElectorInput :=
      [.receive 0 3 0 .timeoutNow, .receive 3 3 1 (.voteResponse ⟨true⟩)]
    let vote : List ElectorInput := [.restart, .receive 0 3 1 (.voteRequest ⟨0, 0⟩)]
    let lastTerms : List ElectorInput := [.receive 1 0 (u64Max - 1) (.appendRequest ⟨0, 0, [], 0⟩),
      .receive 1 0 (u64Max - 1) .timeoutNow]
    (∃ s s', (Elector.start (Config.new 3) (Core.initialPersistent [0, 1, 2])).run campaign =
      some s ∧ s.node.id = 3 ∧ s.node.term = 1 ∧ s.node.countsItself = true ∧
      s.run vote = some s' ∧ s'.granted = [(1, 0)]) ∧
    ∃ s, (Elector.start (Config.new 0) (Core.initialPersistent [0, 1, 2])).run lastTerms = some s ∧
      s.node.term = u64Max ∧ s.node.core.startElection64.term = 0 := by
  intro campaign vote lastTerms
  have hrun : ((Elector.start (Config.new 3) (Core.initialPersistent [0, 1, 2])).run campaign).any
      (fun s => decide (s.node.id = 3 ∧ s.node.term = 1 ∧ s.node.countsItself = true) &&
        (s.run vote).any fun s' => decide (s'.granted = [(1, 0)])) = true := by decide +kernel
  have hlast : ((Elector.start (Config.new 0) (Core.initialPersistent [0, 1, 2])).run lastTerms).any
      (fun s => decide (s.node.term = u64Max ∧ s.node.core.startElection64.term = 0)) = true := by
    decide +kernel
  obtain ⟨s, hs, hrest⟩ := (Option.any_eq_true _ _).1 hrun
  obtain ⟨hfacts, hvote⟩ := Bool.and_eq_true_iff.1 hrest
  obtain ⟨s', hs', hgranted⟩ := (Option.any_eq_true _ _).1 hvote
  obtain ⟨hid, hterm, hcounts⟩ := of_decide_eq_true hfacts
  obtain ⟨s₀, hs₀, hwraps⟩ := (Option.any_eq_true _ _).1 hlast
  exact ⟨⟨s, s', hs, hid, hterm, hcounts, hs', of_decide_eq_true hgranted⟩, s₀, hs₀,
    of_decide_eq_true hwraps⟩

end Cloud9
