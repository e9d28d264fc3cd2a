import Cloud9.Raft.Intact

/-!
# Pre-vote

With pre-vote enabled a node is meant to raise its own term only after a quorum has said that it
would vote for it, so that a node cut off from the others does not inflate its term.

A pre-candidate does so: `PreVoted` says that its pre-votes are answers it received in its term. But
a candidate whose election times out starts the next one at once, without another pre-vote
(`term_inflation`). In runs in which no candidate times out, every election is justified
(`elections_prevoted`).
-/

namespace Cloud9

/-- The sender of a granted answer to a pre-vote of this term. -/
def Event.grantor (term : ℕ) : Event → Option NodeId
  | .message msg =>
    match msg.payload with
    | .preVoteResponse resp => if resp.granted && resp.term == term then some msg.from else none
    | _ => none
  | _ => none

def Event.isTimeoutNow : Event → Bool
  | .message msg => decide (msg.payload = .timeoutNow)
  | _ => false

/-- The tick at which the election of a candidate times out. -/
def RaftNode.candidateExpires (n : RaftNode) (event : Event) : Bool :=
  match n.role, event with
  | .candidate c, .tick =>
    let core := { n.core with ticks := n.core.ticks + 1 }
    !c.recentlyHeardFromLeader core && decide (core.ticks ≥ c.electionDeadline)
  | _, _ => false

/-! ## Roles -/

namespace PreCandidate

/-- What a step makes of the pre-votes: only granted answers of the own term are added, and only a
quorum of pre-votes or `TimeoutNow` leads to an election. -/
structure Polls (p : PreCandidate) (core : Core) (event : Event)
    (r : PreCandidate × Core × StepResult) : Prop where
  votes : ∀ id ∈ r.1.preVotes, id ∈ p.preVotes ∨ event.grantor core.term = some id
  term : r.2.2.transition = .stay ∨ r.2.2.transition = .toCandidate → r.2.1.term = core.term
  candidate : r.2.2.transition = .toCandidate →
    event.isTimeoutNow = true ∨ r.1.hasQuorum core = true ∧ event ≠ .tick
  preCandidate : r.2.2.transition = .toPreCandidate → event = .tick ∧ r.2.1.term = core.term

theorem Polls.unchanged {p : PreCandidate} {core : Core} {event : Event}
    {r : PreCandidate × Core × StepResult} (hvotes : r.1.preVotes = p.preVotes)
    (hterm : r.2.1.term = core.term) (hstay : r.2.2.transition = .stay) : p.Polls core event r where
  votes id hid := .inl (hvotes ▸ hid)
  term _ := hterm
  candidate hc := by rw [hstay] at hc; cases hc
  preCandidate hc := by rw [hstay] at hc; cases hc

theorem Polls.follower {p : PreCandidate} {core : Core} {event : Event}
    {r : PreCandidate × Core × StepResult} (hvotes : r.1.preVotes = p.preVotes)
    (hstay : (∃ leader, r.2.2.transition = .toFollower leader) ∨
      ∃ leader, r.2.2.transition = .toFollowerAfterContact leader) : p.Polls core event r := by
  refine ⟨fun id hid => .inl (hvotes ▸ hid), ?_, ?_, ?_⟩
  all_goals
    intro hc
    rcases hstay with ⟨leader, htr⟩ | ⟨leader, htr⟩ <;> simp [htr] at hc

theorem dispatch_polls (p : PreCandidate) (core : Core) (msg : Message) :
    p.Polls core (.message msg) (p.dispatch core msg) := by
  unfold dispatch
  split
  · next resp hresp =>
    unfold handlePrevoteResponse
    split_ifs with hhigh hlow hgranted
    · exact .follower rfl (.inl ⟨none, rfl⟩)
    · exact .unchanged rfl rfl rfl
    · exact .unchanged rfl rfl rfl
    · have hgrant : (Event.message msg).grantor core.term = some msg.from := by
        have hterm : resp.term = core.term := by omega
        have hgranted : resp.granted = true := by simpa using hgranted
        simp [Event.grantor, hresp, hterm, hgranted]
      have hvotes : ∀ id ∈ p.preVotes.insert msg.from,
          id ∈ p.preVotes ∨ (Event.message msg).grantor core.term = some id := by
        intro id hid
        rcases OrdSet.mem_insert.1 hid with rfl | hid
        · exact .inr hgrant
        · exact .inl hid
      dsimp only
      split
      · next hq =>
        exact ⟨hvotes, fun _ => rfl, fun _ => .inr ⟨hq, nofun⟩, nofun⟩
      · exact ⟨hvotes, fun _ => rfl, nofun, nofun⟩
  · exact .follower rfl (.inr ⟨_, rfl⟩)
  · exact .unchanged rfl rfl rfl
  · exact .unchanged rfl rfl rfl
  · next hnow =>
    have hnow' : (Event.message msg).isTimeoutNow = true := by simp [Event.isTimeoutNow, hnow]
    exact ⟨fun id hid => .inl hid, fun _ => rfl, fun _ => .inl hnow', nofun⟩
  · exact .unchanged rfl rfl rfl

theorem step_polls (p : PreCandidate) (core : Core) (event : Event) :
    p.Polls core event (p.step core event) := by
  cases event with
  | tick =>
    simp only [step, handleTick]
    split_ifs
    · exact .unchanged rfl rfl rfl
    · exact ⟨fun id hid => .inl hid, fun _ => rfl, (fun hc => by cases hc), fun _ => ⟨rfl, rfl⟩⟩
    · exact .unchanged rfl rfl rfl
  | diskWriteComplete index => exact .unchanged rfl rfl rfl
  | message msg =>
    simp only [step, handleMessage]
    split
    · exact .unchanged rfl rfl rfl
    · split
      · exact .follower rfl (.inl ⟨_, rfl⟩)
      · exact p.dispatch_polls core msg

/-- A new pre-candidate has at most its own vote. -/
theorem new_preVotes (core : Core) {id : NodeId} (h : id ∈ (new core).1.preVotes) :
    id = core.id ∧ core.isVoter = true := by
  have hvotes : (new core).1.preVotes =
      if core.isVoter then OrdSet.empty.insert core.id else OrdSet.empty := by
    unfold new
    dsimp only
    split <;> rfl
  rw [hvotes] at h
  split_ifs at h with hvoter
  · rw [OrdSet.mem_insert] at h
    exact ⟨h.resolve_right (OrdSet.not_mem_empty _), hvoter⟩
  · exact absurd h (OrdSet.not_mem_empty _)

theorem new_core (core : Core) : (new core).2.1 = core.randomElectionTimeout.2 := by
  unfold new
  dsimp only
  split <;> rfl

end PreCandidate

theorem Follower.dispatch_candidate (f : Follower) (core : Core) (msg : Message)
    (h : (f.dispatch core msg).2.2.transition ≠ .stay) : msg.payload = .timeoutNow := by
  unfold dispatch at h
  split at h
  case h_5 hnow => exact hnow
  case h_1 =>
    unfold handleVoteRequest at h
    dsimp only at h
    split at h <;> exact absurd rfl h
  case h_2 =>
    unfold handleAppendRequest at h
    dsimp only at h
    split at h <;> exact absurd rfl h
  case h_4 =>
    unfold handleInstallSnapshot at h
    dsimp only at h
    split_ifs at h <;> exact absurd rfl h
  all_goals exact absurd rfl h

/-- A follower leaves its role at a tick, for a pre-election if pre-vote is on, or at
`TimeoutNow`. -/
theorem Follower.step_transition (f : Follower) (core : Core) (event : Event) :
    (f.step core event).2.2.transition = .stay ∨
    (event = .tick ∧ (f.step core event).2.1 = { core with ticks := core.ticks + 1 } ∧
      (core.config.prevote = true → (f.step core event).2.2.transition = .toPreCandidate)) ∨
    event.isTimeoutNow = true := by
  cases event with
  | tick =>
    simp only [step, handleTick]
    split_ifs with hdue hpre
    · exact .inr (.inl ⟨trivial, rfl, fun _ => rfl⟩)
    · exact .inr (.inl ⟨trivial, rfl, fun h => absurd h hpre⟩)
    · exact .inl rfl
  | diskWriteComplete index => exact .inl rfl
  | message msg =>
    simp only [step, handleMessage]
    split
    · exact .inl rfl
    · split
      · exact .inl rfl
      · split
        · exact .inl rfl
        · by_cases hstay : ((f.adoptTerm core msg).2.1.dispatch (f.adoptTerm core msg).2.2
              msg).2.2.transition = .stay
          · exact .inl hstay
          · have hnow := dispatch_candidate _ _ msg hstay
            exact .inr (.inr (by simp [Event.isTimeoutNow, hnow]))

theorem Transition.no_election {t : Transition} {p : Prop}
    (hpre : decide (t = .toPreCandidate) = false) (hcand : decide (t = .toCandidate) = false) :
    t ≠ .toPreCandidate ∧ (t = .toCandidate → p) :=
  ⟨of_decide_eq_false hpre, fun h => absurd h (of_decide_eq_false hcand)⟩

/-- A candidate starts another election when its election times out, or at `TimeoutNow`. -/
theorem Candidate.step_transition (c : Candidate) (core : Core) (event : Event) :
    (c.step core event).2.2.transition ≠ .toPreCandidate ∧
    ((c.step core event).2.2.transition = .toCandidate → event.isTimeoutNow = true ∨
      (⟨core, .candidate c⟩ : RaftNode).candidateExpires event = true) := by
  cases event with
  | tick =>
    simp only [step, handleTick, RaftNode.candidateExpires]
    split_ifs with hheard hdue
    · exact Transition.no_election rfl rfl
    · exact ⟨(fun h => by cases h), fun _ => .inr (by simpa [hheard] using hdue)⟩
    · exact Transition.no_election rfl rfl
  | diskWriteComplete index => exact Transition.no_election rfl rfl
  | message msg =>
    simp only [step, handleMessage]
    split
    · exact Transition.no_election rfl rfl
    · split
      · exact Transition.no_election rfl rfl
      · split
        · exact Transition.no_election rfl rfl
        · split
          · exact Transition.no_election rfl rfl
          · unfold dispatch
            split
            · unfold handleVoteResponse
              dsimp only
              split_ifs <;> exact Transition.no_election rfl rfl
            · exact Transition.no_election rfl rfl
            · exact Transition.no_election rfl rfl
            · next hnow =>
              exact ⟨(fun h => by cases h), fun _ => .inl (by simp [Event.isTimeoutNow, hnow])⟩
            · exact Transition.no_election rfl rfl

namespace RaftNode

/-- The state after some events. -/
def after (n : RaftNode) (events : List Event) : RaftNode :=
  events.foldl (fun n event => (n.stepEvent event).1) n

/-- The nodes whose granted pre-votes of a term were received while the node's term was this. -/
def grantors (term : ℕ) (n : RaftNode) : List Event → List NodeId
  | [] => []
  | event :: events => (if n.term = term then (event.grantor term).toList else []) ++
      grantors term (n.stepEvent event).1 events

/-- The event makes the node start an election: the role's own step is followed by a transition
that raises the term. -/
def startsElection (n : RaftNode) (event : Event) : Bool :=
  decide ((n.roleStep event).1.term < (n.stepEvent event).1.term)

/-- The node itself, if it is a voter. -/
def ownVote (n : RaftNode) (id : NodeId) : Bool := decide (id = n.id) && n.core.isVoter

theorem grantors_concat {term : ℕ} {events : List Event} {event : Event} : ∀ {n : RaftNode},
    n.grantors term (events ++ [event]) = n.grantors term events ++
      (if (n.after events).term = term then (event.grantor term).toList else []) := by
  induction events with
  | nil =>
    intro n
    simp only [List.nil_append, grantors, List.append_nil]
    rfl
  | cons e events ih =>
    intro n
    simp only [List.cons_append, grantors, ih, List.append_assoc]
    rfl

theorem mem_grantors_concat {term : ℕ} {n : RaftNode} {events : List Event} {event : Event}
    {id : NodeId} (h : id ∈ n.grantors term events) : id ∈ n.grantors term (events ++ [event]) := by
  rw [grantors_concat]
  exact List.mem_append_left _ h

/-! ## Steps -/

theorem becomeCandidate_role (core : Core) (effects : Effects) (p : PreCandidate) :
    (becomeCandidate core effects).1.role ≠ .preCandidate p := by
  unfold becomeCandidate becomeLeader
  dsimp only
  split <;> simp

/-- A transition raises the term only by an election. -/
theorem applyTransition_term (n : RaftNode) (t : Transition) :
    (n.applyTransition t).1.term = n.term ∨ t = .toCandidate ∨
      t = .toPreCandidate ∧
        n.core.effectiveConfig.hasQuorum (PreCandidate.new n.core).1.preVotes.contains = true := by
  cases t with
  | stay => exact .inl rfl
  | toFollower leader => exact .inl rfl
  | toFollowerAfterContact leader => exact .inl rfl
  | toLeader => exact .inl rfl
  | toCandidate => exact .inr (.inl rfl)
  | toPreCandidate =>
    have hcore := PreCandidate.new_core n.core
    simp only [applyTransition]
    split
    · next hq =>
      refine .inr (.inr ⟨trivial, ?_⟩)
      rw [PreCandidate.hasQuorum, hcore] at hq
      exact hq
    · refine .inl ?_
      simp only [RaftNode.term, hcore]
      rfl

/-- How a node comes to be a pre-candidate: newly, or by staying one, in the same term. -/
theorem stepEvent_preCandidate {n : RaftNode} {event : Event} {p' : PreCandidate}
    (h : (n.stepEvent event).1.role = .preCandidate p') :
    (∀ id ∈ p'.preVotes, (n.stepEvent event).1.ownVote id = true) ∨
    ∃ p, n.role = .preCandidate p ∧ (n.stepEvent event).1.term = n.term ∧
      n.core.Steady (n.stepEvent event).1.core ∧
      ∀ id ∈ p'.preVotes, id ∈ p.preVotes ∨ event.grantor n.term = some id := by
  unfold stepEvent at h ⊢
  dsimp only at h ⊢
  cases htr : (n.roleStep event).2.transition with
  | toFollower leader => rw [htr] at h; cases h
  | toFollowerAfterContact leader => rw [htr] at h; cases h
  | toLeader => rw [htr] at h; cases h
  | toCandidate =>
    rw [htr] at h
    exact absurd h (becomeCandidate_role _ _ p')
  | toPreCandidate =>
    rw [htr] at h
    simp only [applyTransition] at h ⊢
    split at h
    · exact absurd h (becomeCandidate_role _ _ p')
    · next hq =>
      cases h
      refine .inl fun id hid => ?_
      have hown := PreCandidate.new_preVotes _ hid
      rw [if_neg hq]
      simp only [ownVote, PreCandidate.new_core, Bool.and_eq_true, decide_eq_true_eq]
      exact hown
  | stay =>
    rw [htr] at h
    simp only [applyTransition] at h ⊢
    obtain ⟨core, role⟩ := n
    cases role with
    | follower f => cases h
    | candidate c => cases h
    | leader l => cases h
    | preCandidate p =>
      cases h
      have hpolls := p.step_polls core event
      exact .inr ⟨p, rfl, hpolls.term (.inl htr), p.step_steady core event, hpolls.votes⟩

/-- An election starts in the transition that follows the role's step. -/
theorem transition_of_startsElection {n : RaftNode} {event : Event}
    (h : n.startsElection event = true) :
    (n.roleStep event).2.transition = .toCandidate ∨
      (n.roleStep event).2.transition = .toPreCandidate ∧
        (n.roleStep event).1.core.effectiveConfig.hasQuorum
          (PreCandidate.new (n.roleStep event).1.core).1.preVotes.contains = true := by
  have hlt : (n.roleStep event).1.term < (n.stepEvent event).1.term := by
    simpa [startsElection] using h
  have hstep : (n.stepEvent event).1 =
      ((n.roleStep event).1.applyTransition (n.roleStep event).2.transition).1 := rfl
  refine (applyTransition_term _ _).resolve_left fun hterm => ?_
  rw [← hstep] at hterm
  omega

/-- If a pre-election is won as it starts, the own vote is a quorum. -/
theorem ownVote_quorum {n : RaftNode} {core : Core} (hs : n.core.Steady core)
    (hq : core.effectiveConfig.hasQuorum (PreCandidate.new core).1.preVotes.contains = true) :
    n.core.effectiveConfig.hasQuorum n.ownVote = true := by
  rw [hs.toAlike.effectiveConfig] at hq
  refine Configuration.hasQuorum_mono (fun id hid => ?_) hq
  have hown := PreCandidate.new_preVotes core (OrdSet.contains_eq_true.1 hid)
  have hid' : core.id = n.id := congrArg Config.id hs.config
  simp only [Core.isVoter, hs.toAlike.effectiveConfig, hs.config] at hown
  simp only [ownVote, Bool.and_eq_true, decide_eq_true_eq]
  exact ⟨hown.1.trans hid', hown.2⟩

/-- **What makes a node start an election**: `TimeoutNow`, the timeout of the election before, a
quorum of pre-votes that an answer completes, or a tick of a node that is a quorum by itself. -/
theorem startsElection_cases {n : RaftNode} {event : Event} (hpre : n.core.config.prevote = true)
    (h : n.startsElection event = true) :
    event.isTimeoutNow = true ∨ n.candidateExpires event = true ∨
    (n.roleStep event).1.term = n.term ∧
      ((event ≠ .tick ∧ ∃ p votes, n.role = .preCandidate p ∧
        n.core.effectiveConfig.hasQuorum (OrdSet.contains votes) = true ∧
        ∀ id ∈ votes, id ∈ p.preVotes ∨ event.grantor n.term = some id) ∨
      event = .tick ∧ n.core.effectiveConfig.hasQuorum n.ownVote = true) := by
  have htr := transition_of_startsElection h
  obtain ⟨core, role⟩ := n
  cases role with
  | leader l =>
    obtain ⟨hstay | ⟨leader, hfollow⟩, -⟩ := l.step_kept core event
    · have : ((⟨core, .leader l⟩ : RaftNode).roleStep event).2.transition = .stay := hstay
      simp [this] at htr
    · have : ((⟨core, .leader l⟩ : RaftNode).roleStep event).2.transition = .toFollower leader :=
        hfollow
      simp [this] at htr
  | candidate c =>
    obtain ⟨hnot, hcand⟩ := c.step_transition core event
    rcases htr with htr | ⟨htr, -⟩
    · rcases hcand htr with hnow | hexp
      · exact .inl hnow
      · exact .inr (.inl hexp)
    · exact absurd htr hnot
  | preCandidate p =>
    have hpolls := p.step_polls core event
    rcases htr with htr | ⟨htr, hq⟩
    · rcases hpolls.candidate htr with hnow | ⟨hq, hevent⟩
      · exact .inl hnow
      · exact .inr (.inr ⟨hpolls.term (.inr htr), .inl ⟨hevent, p, _, rfl, hq, hpolls.votes⟩⟩)
    · obtain ⟨htick, hterm⟩ := hpolls.preCandidate htr
      exact .inr (.inr ⟨hterm, .inr ⟨htick, ownVote_quorum (p.step_steady core event) hq⟩⟩)
  | follower f =>
    rcases f.step_transition core event with hstay | ⟨htick, hcore, hprecand⟩ | hnow
    · have : ((⟨core, .follower f⟩ : RaftNode).roleStep event).2.transition = .stay := hstay
      simp [this] at htr
    · have hto : ((⟨core, .follower f⟩ : RaftNode).roleStep event).2.transition = .toPreCandidate :=
        hprecand hpre
      have hcore' : ((⟨core, .follower f⟩ : RaftNode).roleStep event).1.core =
          { core with ticks := core.ticks + 1 } := hcore
      rcases htr with htr | ⟨-, hq⟩
      · rw [hto] at htr
        cases htr
      · rw [hcore'] at hq
        refine .inr (.inr ⟨?_, .inr ⟨htick, ownVote_quorum (.ticks core _) hq⟩⟩)
        rw [RaftNode.term, hcore']
        rfl
    · exact .inl hnow

end RaftNode

/-! ## Runs -/

namespace RaftNode

/-- The pre-votes of a pre-candidate are its own and those it received in its term. -/
structure PreVoted (start : RaftNode) (past : List Event) (n : RaftNode) : Prop where
  eq : n = start.after past
  prevote : n.core.config.prevote = true
  votes : ∀ {p : PreCandidate} {id : NodeId}, n.role = .preCandidate p → id ∈ p.preVotes →
    id ∈ start.grantors n.term past ∨ n.ownVote id = true

theorem PreVoted.step {start n : RaftNode} {past : List Event} (h : PreVoted start past n)
    (event : Event) : PreVoted start (past ++ [event]) (n.stepEvent event).1 := by
  refine ⟨?_, ?_, fun {p' id} hrole hid => ?_⟩
  · rw [h.eq, after, after, List.foldl_append]
    rfl
  · rw [stepEvent_config]
    exact h.prevote
  · rcases stepEvent_preCandidate hrole with hnew | ⟨p, hp, hterm, hs, hvotes⟩
    · exact .inr (hnew id hid)
    · rw [hterm]
      rcases hvotes id hid with hold | hgrant
      · rcases h.votes hp hold with hmem | hown
        · exact .inl (mem_grantors_concat hmem)
        · refine .inr ?_
          have hid' : (n.stepEvent event).1.id = n.id := congrArg Config.id hs.config
          simp only [ownVote, Core.isVoter, hs.toAlike.effectiveConfig, hs.config, hid'] at hown ⊢
          exact hown
      · refine .inl ?_
        rw [grantors_concat, ← h.eq]
        simp [hgrant]

theorem preVoted_restore {config : Config} (hpre : config.prevote = true)
    (persistent : Persistent) :
    PreVoted (restore config persistent) [] (restore config persistent) :=
  ⟨rfl, hpre, fun hrole => by cases hrole⟩

end RaftNode

/-- **With pre-vote, elections are backed by a quorum**, in runs in which no candidate's election
times out: a node starts an election because of `TimeoutNow`, or after receiving, in the term it
leaves, granted pre-votes of this term that form a quorum together with its own vote. Ticks alone
make a node start an election only if it is a quorum by itself. -/
theorem elections_prevoted {config : Config} {persistent : Persistent} {events : List Event}
    {n : RaftNode} {event : Event} (hpre : config.prevote = true)
    (hrun : (RaftNode.restore config persistent).runEvents
      (fun n event => !n.candidateExpires event) events = some n)
    (hok : n.candidateExpires event = false) (helect : n.startsElection event = true) :
    let term := (n.roleStep event).1.term
    let grantors := (RaftNode.restore config persistent).grantors term (events ++ [event])
    (event.isTimeoutNow = true ∨
      n.core.effectiveConfig.hasQuorum (fun id => decide (id ∈ grantors) || n.ownVote id) = true) ∧
    (event = .tick → n.core.effectiveConfig.hasQuorum n.ownVote = true) := by
  intro term grantors
  have h : RaftNode.PreVoted (RaftNode.restore config persistent) events n := by
    have := runWhile_history (I := RaftNode.PreVoted (RaftNode.restore config persistent)) ?_
      (RaftNode.preVoted_restore hpre persistent) hrun
    · simpa using this
    · intro past n event n' hn _ hn'
      cases hn'
      exact hn.step event
  rcases RaftNode.startsElection_cases h.prevote helect with hnow | hexp | ⟨hterm, hrest⟩
  · exact ⟨.inl hnow, fun htick => by subst htick; cases hnow⟩
  · rw [hok] at hexp
    cases hexp
  · rcases hrest with ⟨hne, p, votes, hrole, hq, hvotes⟩ | ⟨htick, hq⟩
    · refine ⟨.inr (Configuration.hasQuorum_mono (fun id hid => ?_) hq), fun h => absurd h hne⟩
      have hgrantors : grantors = (RaftNode.restore config persistent).grantors n.term
          (events ++ [event]) := by
        simp only [grantors, term, hterm]
      rw [Bool.or_eq_true, decide_eq_true_eq, hgrantors]
      rcases hvotes id (OrdSet.contains_eq_true.1 hid) with hold | hgrant
      · exact (h.votes hrole hold).imp RaftNode.mem_grantors_concat fun hown => hown
      · refine .inl ?_
        rw [RaftNode.grantors_concat, ← h.eq]
        simp [hgrant]
    · refine ⟨.inr (Configuration.hasQuorum_mono (fun id hid => ?_) hq), fun _ => hq⟩
      rw [hid, Bool.or_true]

/-- Node 0 of three voters, with pre-vote and elections that time out after one tick. -/
def hastyStart : RaftNode :=
  .restore { Config.new 0 with electionTimeout := ⟨1, 2, Nat.one_lt_two⟩ }
    (Core.initialPersistent [0, 1, 2])

/-- Node 1 grants node 0 a pre-vote of term 0. -/
def preVoteGranted : Event := .message ⟨1, 0, 0, .preVoteResponse ⟨0, true⟩⟩

/-- The first election of node 0 is backed by the pre-vote of node 1. -/
theorem elections_prevoted_trio :
    let n := (hastyStart.stepEvent .tick).1
    n.startsElection preVoteGranted = true ∧
      (preVoteGranted.isTimeoutNow = true ∨ n.core.effectiveConfig.hasQuorum (fun id =>
        decide (id ∈ hastyStart.grantors (n.roleStep preVoteGranted).1.term
          ([.tick] ++ [preVoteGranted])) || n.ownVote id) = true) := by
  intro n
  have hrun : hastyStart.runEvents (fun n event => !n.candidateExpires event) [.tick] = some n :=
    runWhile_cons.2 ⟨by decide +kernel, n, rfl, rfl⟩
  have helect : n.startsElection preVoteGranted = true := by decide +kernel
  exact ⟨helect, (elections_prevoted rfl hrun (by decide +kernel) helect).1⟩

/-- **A candidate that hears from nobody inflates its term.** After one pre-vote round node 0 is a
candidate of term 1. From then on every timeout starts another election, without any pre-vote of the
term it leaves. -/
theorem term_inflation :
    ∃ events n, hastyStart.runEvents (fun _ _ => true) events = some n ∧
      n.startsElection .tick = true ∧
      n.core.effectiveConfig.hasQuorum (fun id =>
        decide (id ∈ hastyStart.grantors (n.roleStep .tick).1.term (events ++ [.tick])) ||
          n.ownVote id) = false ∧
      (n.after [.tick, .tick, .tick]).term = n.term + 3 := by
  refine ⟨[.tick, preVoteGranted], _, rfl, ?_, ?_, ?_⟩
  all_goals decide +kernel

end Cloud9
