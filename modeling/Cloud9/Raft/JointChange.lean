import Cloud9.Raft.Leadership
import Cloud9.Raft.Safety
import Cloud9.Raft.Script

/-!
# Joint configuration changes

A joint configuration is to be followed by its target as soon as it is committed, and
`Leader.maybeCommit` is the only place where this is done: the leader that moves its commit index
past a joint entry appends the target. Two things can go wrong, and both start with an election.

* The commit index of a new leader may lie far behind its log. When it moves, joint configurations
  of completed changes are passed once more, and the target of the first of them is appended again,
  on top of the changes made since (`membership_rewritten`).
* The commit index of a new leader may have passed the joint entry already, when it was a follower.
  No leader appends the target any more (`joint_change_stuck`).

Without such elections the first does not happen (`membership_kept`), and the second does not if no
follower's commit index is taken past a joint entry at the end of its log (`joint_completable`).
-/

namespace Cloud9

open Log

/-- Every joint configuration above `k` is the newest configuration. -/
def Log.Settled (es : List Entry) (k : ℕ) : Prop :=
  ∀ idx cfg, k < idx → entryConfig es idx = some cfg → cfg.transitionTarget ≠ none →
    Newest es idx cfg

/-- There is no joint configuration above `k`. -/
def Log.Quiet (es : List Entry) (k : ℕ) : Prop :=
  ∀ idx cfg, k < idx → entryConfig es idx = some cfg → cfg.transitionTarget = none

/-- If the newest configuration is joint, it lies above `k`. -/
def Log.Completable (es : List Entry) (k : ℕ) : Prop :=
  ∀ idx cfg, Newest es idx cfg → cfg.transitionTarget ≠ none → k < idx

namespace Log

variable {es : List Entry} {e : Entry} {k : ℕ}

theorem Settled.mono {k' : ℕ} (h : Settled es k) (hk : k ≤ k') : Settled es k' :=
  fun idx cfg hidx => h idx cfg (by omega)

theorem Settled.concat_command (h : Settled es k) (he : e.payload.asConfig = none) :
    Settled (es ++ [e]) k := by
  intro idx cfg hidx hcfg hjoint
  rw [newest_concat_command he]
  rw [entryConfig_concat] at hcfg
  split_ifs at hcfg
  · rw [he] at hcfg
    cases hcfg
  · exact h idx cfg hidx hcfg hjoint

theorem Quiet.settled (h : Quiet es k) : Settled es k :=
  fun idx cfg hidx hcfg hjoint => absurd (h idx cfg hidx hcfg) hjoint

/-- A target is appended when the newest configuration has been passed. -/
theorem Quiet.concat_target {idx : ℕ} {cfg target : Configuration} (hnewest : Newest es idx cfg)
    (hk : idx ≤ k) (he : e.payload.asConfig = some target)
    (htarget : target.transitionTarget = none) : Quiet (es ++ [e]) k := by
  intro idx' cfg' hidx' hcfg
  rw [entryConfig_concat] at hcfg
  split_ifs at hcfg
  · rw [← Option.some.inj (he.symm.trans hcfg)]
    exact htarget
  · rw [hnewest.2 idx' (by omega)] at hcfg
    cases hcfg

/-- Any configuration may be appended when there is no joint one above `k`. -/
theorem Settled.concat_config {cfg : Configuration} (he : e.payload.asConfig = some cfg)
    (h : Quiet es k) : Settled (es ++ [e]) k := by
  intro idx cfg' hidx hcfg hjoint
  rw [entryConfig_concat] at hcfg
  split_ifs at hcfg with hlast
  · obtain rfl : cfg = cfg' := Option.some.inj (he.symm.trans hcfg)
    rw [hlast]
    exact newest_concat_config he
  · exact absurd (h idx cfg' hidx hcfg) hjoint

theorem Completable.concat_command (h : Completable es k) (he : e.payload.asConfig = none) :
    Completable (es ++ [e]) k :=
  fun idx cfg hnew => h idx cfg ((newest_concat_command he).1 hnew)

theorem Completable.concat_config {cfg : Configuration} (he : e.payload.asConfig = some cfg)
    (h : cfg.transitionTarget = none ∨ k ≤ es.length) : Completable (es ++ [e]) k := by
  intro idx cfg' hnew hjoint
  obtain ⟨rfl, rfl⟩ := hnew.unique (newest_concat_config he)
  rcases h with hsimple | hk
  · exact absurd hsimple hjoint
  · omega

end Log

theorem Core.effectiveConfig_of_newest {core : Core} (hplain : core.log.Plain) {idx : ℕ}
    {cfg : Configuration} (h : Newest core.log.entries idx cfg) : core.effectiveConfig = cfg := by
  rw [Core.effectiveConfig_eq hplain, lastConfig_eq_some_iff.2 ⟨idx, h⟩, Option.getD_some]

theorem Leader.plain_appendEntry {core : Core} (h : core.log.Plain) (payload : EntryPayload) :
    (Leader.appendEntry core payload).log.Plain :=
  h.append (congrArg (· + 1) h.lastIndex)

theorem Leader.targetAt_eq_some {core : Core} (h : core.log.Plain) {idx : ℕ}
    {target : Configuration} (ht : targetAt core idx = some target) :
    ∃ cfg, entryConfig core.log.entries idx = some cfg ∧ cfg.transitionTarget = some target := by
  rw [targetAt_eq h] at ht
  exact Option.bind_eq_some_iff.1 ht

/-! ## Committing keeps the membership -/

/-- Committing leaves the effective configuration, or puts the target of a joint one in effect. -/
def Leader.KeepsMembership (l : Leader) (core : Core) : Prop :=
  (l.maybeCommit core).2.1.effectiveConfig = core.effectiveConfig ∨
    core.effectiveConfig.transitionTarget = some (l.maybeCommit core).2.1.effectiveConfig

instance (l : Leader) (core : Core) : Decidable (l.KeepsMembership core) := by
  unfold Leader.KeepsMembership
  infer_instance

theorem Leader.maybeCommit_settled (l : Leader) {core : Core} (hplain : core.log.Plain)
    (h : Settled core.log.entries core.commitIndex) :
    Settled (l.maybeCommit core).2.1.log.entries (l.maybeCommit core).2.1.commitIndex ∧
      l.KeepsMembership core := by
  -- Before a turn the log is the old one, or the target of its newest configuration was appended
  -- and there is no joint configuration above the commit index any more.
  let I : Core → Prop := fun core' => core'.log.Plain ∧
    Settled core'.log.entries core'.commitIndex ∧
    (core'.log = core.log ∧
        core'.persistent.bootstrapConfig = core.persistent.bootstrapConfig ∨
      core.effectiveConfig.transitionTarget = some core'.effectiveConfig ∧
        Quiet core'.log.entries core'.commitIndex)
  let Q : Core → Bool → Prop := fun core' _ => Settled core'.log.entries core'.commitIndex ∧
    (core'.effectiveConfig = core.effectiveConfig ∨
      core.effectiveConfig.transitionTarget = some core'.effectiveConfig)
  have hQ : ∀ core' k flag, I core' → core'.commitIndex ≤ k → Q (core'.setCommitIndex k) flag := by
    rintro core' k - ⟨hplain', hsettled, hlog⟩ hk
    refine ⟨hsettled.mono hk, hlog.imp ?_ fun hjoint => hjoint.1⟩
    rintro ⟨hlog, hboot⟩
    have heff : core'.effectiveConfig = core.effectiveConfig := by
      rw [Core.effectiveConfig_eq hplain', Core.effectiveConfig_eq hplain, hlog, hboot]
    exact heff
  refine maybeCommit_rule (fun core' k hI hk _ _ => hQ core' k false hI hk)
    (fun core' k hI hk _ => hQ core' k true hI hk) ?_ l
    (show I core from ⟨hplain, h, .inl ⟨rfl, rfl⟩⟩)
  rintro core' k idx target ⟨hplain', hsettled, hlog⟩ hidx hk - htarget
  obtain ⟨cfg, hcfg, hjoint⟩ := targetAt_eq_some hplain' htarget
  have hjoint' : cfg.transitionTarget ≠ none := by rw [hjoint]; nofun
  have hnewest := hsettled idx cfg hidx hcfg hjoint'
  rcases hlog with ⟨hlog, -⟩ | ⟨-, hquiet⟩
  · have hplain₂ : (appendEntry (core'.setCommitIndex k) (.config target)).log.Plain :=
      plain_appendEntry hplain' _
    have hnew : Newest (appendEntry (core'.setCommitIndex k) (.config target)).log.entries
        (core'.log.entries.length + 1) target := newest_concat_config rfl
    have hquiet : Quiet (appendEntry (core'.setCommitIndex k) (.config target)).log.entries k :=
      .concat_target hnewest hk rfl (Configuration.transitionTarget_target hjoint)
    refine ⟨hplain₂, hquiet.settled, .inr ⟨?_, hquiet⟩⟩
    rw [Core.effectiveConfig_of_newest hplain₂ hnew,
      Core.effectiveConfig_of_newest hplain (hlog ▸ hnewest), hjoint]
  · exact absurd (hquiet idx cfg hidx hcfg) hjoint'

/-- Committing never leaves the newest configuration joint and committed, unless the leader steps
down. -/
theorem Leader.maybeCommit_completable (l : Leader) {core : Core} (hplain : core.log.Plain)
    (h : Completable core.log.entries core.commitIndex)
    (hflag : (l.maybeCommit core).2.2.2 = false) :
    Completable (l.maybeCommit core).2.1.log.entries (l.maybeCommit core).2.1.commitIndex := by
  let I : Core → Prop := fun core => core.log.Plain ∧ Completable core.log.entries core.commitIndex
  let Q : Core → Bool → Prop := fun core flag => flag = false →
    Completable core.log.entries core.commitIndex
  suffices hQ : Q (l.maybeCommit core).2.1 (l.maybeCommit core).2.2.2 from hQ hflag
  refine maybeCommit_rule ?_ (fun _ _ _ _ _ hdown => by cases hdown) ?_ l
    (show I core from ⟨hplain, h⟩)
  · rintro core k ⟨hplain, h⟩ - - hnone - idx cfg hnewest hjoint
    have hidx := h idx cfg hnewest hjoint
    rcases Nat.lt_or_ge k idx with hlt | hge
    · exact hlt
    · have hcfg : entryConfig core.log.entries idx = some cfg := hnewest.1
      have htarget := hnone idx hidx hge
      rw [targetAt_eq hplain, hcfg, Option.bind_some] at htarget
      exact absurd htarget hjoint
  · rintro core k idx target ⟨hplain, -⟩ - - - htarget
    obtain ⟨cfg, -, hjoint⟩ := targetAt_eq_some hplain htarget
    exact ⟨plain_appendEntry hplain _,
      .concat_config rfl (.inl (Configuration.transitionTarget_target hjoint))⟩

/-! ## Where leaders commit -/

theorem Core.quiet_of_not_pending {core : Core} (hplain : core.log.Plain)
    (h : core.hasPendingConfig = false) : Quiet core.log.entries core.commitIndex := by
  intro idx cfg hidx hcfg
  obtain ⟨e, he, hpayload⟩ := Option.bind_eq_some_iff.1 hcfg
  have hpos := (entryConfig_bounds hcfg).1
  rw [entryAt, if_neg (by omega)] at he
  have heidx := hplain.indexed.index_eq he
  refine absurd ?_ (Core.not_config_of_not_pending h (List.mem_of_getElem? he) (by omega))
  cases hp : e.payload with
  | command cmd =>
    rw [hp] at hpayload
    cases hpayload
  | config cfg => rfl

namespace CommitSite

variable {id : NodeId} {core core₁ : Core} {input : Input}

theorem plain (hsite : CommitSite id core input core₁) (hplain : core.log.Plain) :
    core₁.log.Plain := by
  cases hsite with
  | now => exact hplain
  | command => exact Leader.plain_appendEntry hplain _
  | change => exact Leader.plain_appendEntry hplain _

theorem settled (hsite : CommitSite id core input core₁) (hplain : core.log.Plain)
    (h : Settled core.log.entries core.commitIndex) :
    Settled core₁.log.entries core₁.commitIndex := by
  cases hsite with
  | now => exact h
  | command => exact h.concat_command rfl
  | change l change hcheck =>
    exact .concat_config rfl
      (Core.quiet_of_not_pending hplain (Leader.checkConfigChange_ok hcheck).2.2)

theorem completable (hsite : CommitSite id core input core₁) (hplain : core.log.Plain)
    (h : Completable core.log.entries core.commitIndex)
    (hlast : ∀ change, input = .proposeConfigChange id change →
      core.commitIndex ≤ core.log.lastIndex) :
    Completable core₁.log.entries core₁.commitIndex := by
  cases hsite with
  | now => exact h
  | command => exact h.concat_command rfl
  | change l change hcheck =>
    refine .concat_config rfl (.inr ?_)
    have := hlast change rfl
    rw [hplain.lastIndex] at this
    exact this

end CommitSite

/-! ## Elections -/

/-- The input makes its node a leader. -/
def Cluster.elects (c : Cluster) (input : Input) : Bool :=
  !(c.nodes input.node).isLeader && (c.call input).any fun r => r.1.isLeader

theorem Cluster.elects_of_step {c c' : Cluster} {input : Input} (hstep : c.step input = some c')
    {id : NodeId} (hn : (c.nodes id).isLeader = false) (hlead : (c'.nodes id).isLeader = true) :
    id = input.node ∧ c.elects input = true := by
  obtain ⟨r, hr, rfl⟩ := step_eq_some.1 hstep
  simp only [apply] at hlead
  rcases eq_or_ne id input.node with rfl | hid
  · rw [Function.update_self] at hlead
    refine ⟨rfl, ?_⟩
    rw [elects, hn, hr]
    exact hlead
  · rw [Function.update_of_ne hid, hn] at hlead
    cases hlead

/-- Every joint configuration above the commit index is the latest configuration entry there. -/
def Core.settled (core : Core) : Bool :=
  (List.range' (core.commitIndex + 1) (core.log.lastIndex - core.commitIndex)).all fun idx =>
    (Leader.targetAt core idx).isNone || decide (core.pendingConfigIndex = some idx)

theorem Core.settled_log {core : Core} (hplain : core.log.Plain) (h : core.settled = true) :
    Settled core.log.entries core.commitIndex := by
  intro idx cfg hidx hcfg hjoint
  have hle := (entryConfig_bounds hcfg).2
  rw [← hplain.lastIndex] at hle
  have hall := List.all_eq_true.1 h idx (by rw [List.mem_range'_1]; omega)
  rw [Leader.targetAt_eq hplain, hcfg, Option.bind_some, Bool.or_eq_true, decide_eq_true_iff,
    Option.isNone_iff_eq_none] at hall
  obtain ⟨-, cfg', hnewest⟩ := hplain.pendingConfigIndex_eq_some_iff.1 (hall.resolve_left hjoint)
  obtain rfl : cfg' = cfg := Option.some.inj (hnewest.1.symm.trans hcfg)
  exact hnewest

/-- The effective configuration is joint, and the commit index has passed its entry. -/
def Core.stuck (core : Core) : Bool :=
  core.effectiveConfig.isJoint &&
    (core.log.pendingConfigIndex 0).any fun idx => decide (idx ≤ core.commitIndex)

theorem Core.not_stuck_iff {core : Core} (hplain : core.log.Plain) :
    core.stuck = false ↔ Completable core.log.entries core.commitIndex := by
  have hjoint : ∀ cfg : Configuration, cfg.isJoint = true ↔ cfg.transitionTarget ≠ none := by
    intro cfg
    cases cfg <;> simp [Configuration.isJoint, Configuration.transitionTarget]
  rw [← Bool.not_eq_true, stuck, Bool.and_eq_true, Option.any_eq_true]
  constructor
  · intro h idx cfg hnewest hcfg
    have hpending : core.log.pendingConfigIndex 0 = some idx :=
      hplain.pendingConfigIndex_eq_some_iff.2 ⟨(entryConfig_bounds hnewest.1).1, cfg, hnewest⟩
    rw [Core.effectiveConfig_of_newest hplain hnewest, hjoint] at h
    exact Nat.lt_of_not_le fun hle => h ⟨hcfg, idx, hpending, decide_eq_true hle⟩
  · rintro h ⟨heff, idx, hpending, hle⟩
    obtain ⟨-, cfg, hnewest⟩ := hplain.pendingConfigIndex_eq_some_iff.1 hpending
    rw [Core.effectiveConfig_of_newest hplain hnewest, hjoint] at heff
    have := h idx cfg hnewest heff
    have := of_decide_eq_true hle
    omega

/-! ## Membership in runs -/

/-- A node is elected only if every joint configuration above its commit index is the latest one. -/
def Cluster.electsSettled (c : Cluster) (input : Input) : Bool :=
  !c.elects input || (c.nodes input.node).core.settled

/-- **Committing never rewrites the membership**, in runs in which nodes are elected only with
settled logs: wherever a leader calls `maybeCommit`, the effective configuration stays, or the
target of a joint one takes effect. -/
theorem membership_kept (configs : NodeId → Config) (voters : List NodeId) {inputs : List Input}
    {c : Cluster} (hrun : (Cluster.init configs voters).run Cluster.electsSettled inputs = some c)
    {id : NodeId} (hlead : (c.nodes id).isLeader = true) {input : Input} {core : Core}
    (hsite : CommitSite id (c.nodes id).core input core) (l : Leader) : l.KeepsMembership core := by
  have hplain := fun id => ((Cluster.shaped_run hrun).nodes id).plain
  let J : Core → Prop := fun core => Settled core.log.entries core.commitIndex
  have hsettled : J (c.nodes id).core := by
    refine Cluster.leaders_invariant ?_ ?_ ?_ hrun hlead
    · intro core core' halike hJ
      simp only [J, halike.log, halike.commitIndex]
      exact hJ
    · intro c input c' id hok hstep hplain hn hl
      obtain ⟨rfl, helects⟩ := Cluster.elects_of_step hstep hn hl
      rw [Cluster.electsSettled, helects] at hok
      exact Core.settled_log hplain hok
    · intro c input id l core₁ _ _ hplain hJ hsite _
      exact (l.maybeCommit_settled (hsite.plain hplain) (hsite.settled hplain hJ)).1
  exact (l.maybeCommit_settled (hsite.plain (hplain id)) (hsite.settled (hplain id) hsettled)).2

/-- The member set with these voters and no learners. -/
def Members.ofVoters (voters : List NodeId) : Members :=
  ⟨OrdSet.ofList voters, OrdSet.empty, fun _ _ h => by cases h⟩

/-- As the trio, with joint changes and few entries in a request; nodes 2, 3, ... are slow to
campaign. -/
def jointConfig (id : NodeId) : Config :=
  { quickConfig with
    electionTimeout := if id ≤ 1 then quickConfig.electionTimeout else slowTimeout
    maxEntriesPerMsg := 1
    membershipMode := .jointConsensus }

/-- Node 0 is elected by node 1 and starts to remove it. -/
def startRemoval : List Move :=
  [.input (.tick 0), .relay 0 1, .relay 1 0,
    .input (.proposeConfigChange 0 (.setMembers (.ofVoters [0])))]

theorem membership_kept_removal : ∃ inputs c,
    (Cluster.init jointConfig [0, 1]).run Cluster.electsSettled inputs = some c ∧
    (c.nodes 0).isLeader = true ∧ (c.nodes 0).core.effectiveConfig.isJoint = true ∧
    ∀ l : Leader, l.KeepsMembership (c.nodes 0).core := by
  have hplay : ((Cluster.init jointConfig [0, 1]).play Cluster.electsSettled startRemoval).any
      (fun c => decide ((c.nodes 0).isLeader = true ∧
        (c.nodes 0).core.effectiveConfig.isJoint = true)) = true := by
    decide +kernel
  obtain ⟨inputs, c, hrun, hfacts⟩ := Cluster.exists_run_of_play hplay
  obtain ⟨hlead, hjoint⟩ := of_decide_eq_true hfacts
  exact ⟨inputs, c, hrun, hlead, hjoint, fun l =>
    membership_kept jointConfig [0, 1] hrun hlead (.now (.tick 0)) l⟩

/-- The removal is completed, node 1 comes back as a learner, and node 0 restarts and is elected
again, with commit index 0. -/
def removeAndReturn : List Move :=
  startRemoval ++ [.relay 0 1, .relay 1 0, .input (.proposeConfigChange 0 (.addLearner 1)),
    .input (.restart 0), .input (.tick 0)]

/-- **Committing rewrites the membership**: node 1 is a learner and the configuration is not joint,
but the commit of the new leader's first command appends the target of the old joint configuration
again, and node 1 is gone. -/
theorem membership_rewritten : ∃ inputs c l,
    (Cluster.init jointConfig [0, 1]).run (fun _ _ => true) inputs = some c ∧
    (c.nodes 0).role = .leader l ∧
    (c.nodes 0).core.effectiveConfig = .simple (OrdSet.ofList [0]) (OrdSet.ofList [1]) ∧
    ((c.step (.propose 0 [])).map fun c' => (c'.nodes 0).core.effectiveConfig) =
      some (.simple (OrdSet.ofList [0]) OrdSet.empty) ∧
    ¬(l.recordOwnMatch (Leader.appendEntry (c.nodes 0).core (.command []))
      ((c.nodes 0).core.log.lastIndex + 1)).KeepsMembership
        (Leader.appendEntry (c.nodes 0).core (.command [])) := by
  have hplay : ((Cluster.init jointConfig [0, 1]).play (fun _ _ => true) removeAndReturn).any
      (fun c => (c.nodes 0).leads fun l => decide (
          (c.nodes 0).core.effectiveConfig = .simple (OrdSet.ofList [0]) (OrdSet.ofList [1]) ∧
          ((c.step (.propose 0 [])).map fun c' => (c'.nodes 0).core.effectiveConfig) =
            some (.simple (OrdSet.ofList [0]) OrdSet.empty) ∧
          ¬(l.recordOwnMatch (Leader.appendEntry (c.nodes 0).core (.command []))
            ((c.nodes 0).core.log.lastIndex + 1)).KeepsMembership
              (Leader.appendEntry (c.nodes 0).core (.command [])))) = true := by
    decide +kernel
  obtain ⟨inputs, c, hrun, hleads⟩ := Cluster.exists_run_of_play hplay
  obtain ⟨l, hl, hfacts⟩ := RaftNode.exists_of_leads hleads
  exact ⟨inputs, c, l, hrun, hl, of_decide_eq_true hfacts⟩

/-! ## Joint changes are completed -/

/-- A leader is asked for a configuration change only if its commit index lies within its log. -/
def Cluster.changesWithinLog (c : Cluster) : Input → Bool
  | .proposeConfigChange id _ => !(c.nodes id).isLeader ||
    decide ((c.nodes id).core.commitIndex ≤ (c.nodes id).core.log.lastIndex)
  | _ => true

/-- The input takes the leadership from its node. -/
def Cluster.deposes (c : Cluster) (input : Input) : Bool :=
  (c.nodes input.node).isLeader && (c.call input).any fun r => !r.1.isLeader

/-- The input leaves a core that is not stuck, if it is an append request that a follower accepts or
a call that takes the leadership from a node; and changes are proposed within the log. -/
def Cluster.staysCompletable (c : Cluster) (input : Input) : Bool :=
  (!(c.accepts input || c.deposes input) || (c.call input).all fun r => !r.1.core.stuck) &&
    c.changesWithinLog input

theorem Log.completable_zero (es : List Entry) : Completable es 0 :=
  fun _ _ hnewest _ => (entryConfig_bounds hnewest.1).1

/-- **One call** leaves a joint change that can be completed. -/
theorem Cluster.call_completable {c : Cluster} (hshaped : c.Shaped) {input : Input}
    {r : RaftNode × Effects} (hr : c.call input = some r)
    (hok : c.staysCompletable input = true) (hplain : r.1.core.log.Plain)
    (h : Completable (c.nodes input.node).core.log.entries (c.nodes input.node).core.commitIndex) :
    Completable r.1.core.log.entries r.1.core.commitIndex := by
  obtain ⟨hstays, hwithin⟩ := Bool.and_eq_true_iff.1 hok
  have halike : (c.nodes input.node).core.Alike r.1.core →
      Completable r.1.core.log.entries r.1.core.commitIndex := by
    intro halike
    rw [halike.log, halike.commitIndex]
    exact h
  have hfree : c.accepts input = true ∨ c.deposes input = true →
      Completable r.1.core.log.entries r.1.core.commitIndex := by
    intro hor
    rw [Bool.or_eq_true_iff.2 hor, hr] at hstays
    exact (Core.not_stuck_iff hplain).1 (by simpa using hstays)
  cases hn : (c.nodes input.node).isLeader with
  | false =>
    rcases call_follower hshaped.sound hr hn with hsame | haccepts | hzero
    · exact halike hsame
    · exact hfree (.inl haccepts)
    · rw [hzero]
      exact completable_zero _
  | true =>
    cases hlead : r.1.isLeader with
    | false =>
      refine hfree (.inr ?_)
      rw [deposes, hn, hr, Option.any_some, hlead]
      rfl
    | true =>
      rcases (call_leader hr hlead).2 hn with hsame | ⟨l, core₁, hsite, hflag, hcore⟩
      · exact halike hsame
      · have hold := (hshaped.nodes input.node).plain
        rw [hcore]
        refine l.maybeCommit_completable (hsite.plain hold) (hsite.completable hold h ?_) hflag
        intro change hinput
        rw [hinput] at hwithin
        simpa [changesWithinLog, hn] using hwithin

/-- **A joint change can be completed**, in runs in which no accepted append request leaves its
follower stuck, no leader is stuck when it loses the leadership, and leaders that are asked for a
change have their commit index within their log: no node's effective configuration is a joint one
that its commit index has passed, whether it leads or may still be elected. -/
theorem joint_completable (configs : NodeId → Config) (voters : List NodeId) {inputs : List Input}
    {c : Cluster}
    (hrun : (Cluster.init configs voters).run Cluster.staysCompletable inputs = some c)
    (id : NodeId) : (c.nodes id).core.stuck = false := by
  have hplain : (c.nodes id).core.log.Plain := ((Cluster.shaped_run hrun).nodes id).plain
  refine (Core.not_stuck_iff hplain).2 ?_
  let I : Cluster → Prop := fun c => c.Shaped ∧
    ∀ id, Completable (c.nodes id).core.log.entries (c.nodes id).core.commitIndex
  have hinit : I (Cluster.init configs voters) :=
    ⟨Cluster.shaped_init configs voters, fun _ => completable_zero _⟩
  refine (runWhile_invariant ?_ hinit hrun).2 id
  rintro c input c' ⟨hshaped, hI⟩ hok hstep
  have hshaped' := hshaped.step hstep
  refine ⟨hshaped', fun id => ?_⟩
  obtain ⟨r, hr, rfl⟩ := Cluster.step_eq_some.1 hstep
  rcases eq_or_ne id input.node with rfl | hid
  · have hplain := (hshaped'.nodes input.node).plain
    simp only [Cluster.apply, Function.update_self] at hplain ⊢
    exact Cluster.call_completable hshaped hr hok hplain (hI input.node)
  · simp only [Cluster.apply, Function.update_of_ne hid]
    exact hI id

theorem joint_completable_removal : ∃ inputs c,
    (Cluster.init jointConfig [0, 1]).run Cluster.staysCompletable inputs = some c ∧
    (c.nodes 0).isLeader = true ∧ (c.nodes 0).core.effectiveConfig.isJoint = true ∧
    (c.nodes 0).core.stuck = false := by
  have hplay : ((Cluster.init jointConfig [0, 1]).play Cluster.staysCompletable startRemoval).any
      (fun c => decide ((c.nodes 0).isLeader = true ∧
        (c.nodes 0).core.effectiveConfig.isJoint = true)) = true := by
    decide +kernel
  obtain ⟨inputs, c, hrun, hfacts⟩ := Cluster.exists_run_of_play hplay
  obtain ⟨hlead, hjoint⟩ := of_decide_eq_true hfacts
  exact ⟨inputs, c, hrun, hlead, hjoint, joint_completable jointConfig [0, 1] hrun 0⟩

/-- While the effective configuration is joint, every change is refused. -/
theorem RaftNode.proposeConfigChange_of_joint {n : RaftNode} (hlead : n.isLeader = true)
    (hjoint : n.core.effectiveConfig.isJoint = true) (change : ConfigChange) :
    (n.proposeConfigChange change).2 = .error .changeInProgress := by
  obtain ⟨core, role⟩ := n
  cases role with
  | leader l =>
    have hvalid : change.validate core.effectiveConfig core.config.membershipMode =
        .error .changeInProgress := by
      cases hcfg : core.effectiveConfig with
      | simple voters learners =>
        rw [hcfg] at hjoint
        cases hjoint
      | joint old new learners => rfl
    simp only [proposeConfigChange, Leader.proposeConfigChange, Leader.checkConfigChange, hvalid]
    rfl
  | _ => cases hlead

/-- Node 0 is elected by node 2, appends a command and starts to replace itself by node 3. Nodes 2
and 3 hold the joint configuration, so it is committed, and node 0 appends its target. Node 1 has
missed everything: the next request brings it up to the joint entry, with a commit index that
includes it. Then node 1 is elected by node 2. -/
def lateVoter : List Move :=
  [.input (.tick 0), .relay 0 2, .relay 2 0, .input (.propose 0 [7]),
    .input (.proposeConfigChange 0 (.setMembers (.ofVoters [1, 2, 3]))),
    .relay 0 2, .relay 2 0, .relay 0 2, .relay 2 0, .relay 0 3, .relay 3 0, .relay 0 3, .relay 3 0,
    .relay 0 1, .relay 1 0, .relay 0 1,
    .input (.tick 1), .input (.tick 2), .relay 1 2, .relay 2 1]

/-- **A joint change can get stuck**: node 1 leads, its configuration is joint and committed, and it
refuses every change. All accepted append requests in the run are verified. -/
theorem joint_change_stuck : ∃ inputs c,
    (Cluster.init jointConfig [0, 1, 2]).run (fun c input => c.verified input || !input.isFixed)
      inputs = some c ∧
    (c.nodes 1).isLeader = true ∧ (c.nodes 1).core.effectiveConfig.isJoint = true ∧
    (c.nodes 1).core.log.pendingConfigIndex 0 = some 2 ∧ (c.nodes 1).commitIndex = 2 ∧
    ∀ change, ((c.nodes 1).proposeConfigChange change).2 = .error .changeInProgress := by
  have hplay : ((Cluster.init jointConfig [0, 1, 2]).play
      (fun c input => c.verified input || !input.isFixed) lateVoter).any (fun c =>
        decide ((c.nodes 1).isLeader = true ∧ (c.nodes 1).core.effectiveConfig.isJoint = true ∧
          (c.nodes 1).core.log.pendingConfigIndex 0 = some 2 ∧
          (c.nodes 1).commitIndex = 2)) = true := by
    decide +kernel
  obtain ⟨inputs, c, hrun, hfacts⟩ := Cluster.exists_run_of_play hplay
  obtain ⟨hlead, hjoint, hidx, hcommit⟩ := of_decide_eq_true hfacts
  exact ⟨inputs, c, hrun, hlead, hjoint, hidx, hcommit,
    RaftNode.proposeConfigChange_of_joint hlead hjoint⟩

end Cloud9
