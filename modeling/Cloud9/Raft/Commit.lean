import Cloud9.Raft.Action

/-!
# Committing and the configurations it passes

`Leader.maybeCommit` moves the commit index and looks at the configuration entries it passes: a
configuration without the leader makes it step down, a joint one makes it append its target and
look again.

Main result: `maybeCommit_loop`, the rule for proving something about the loop turn by turn, with
the forms `maybeCommit_rule` and `maybeCommit_induct`.
-/

namespace Cloud9

namespace Leader

/-- The target of the joint configuration at an index. -/
def targetAt (core : Core) (idx : ℕ) : Option Configuration :=
  ((core.log.get idx).bind fun e => e.payload.asConfig).bind Configuration.transitionTarget

theorem targetAt_eq {core : Core} (h : core.log.Plain) (idx : ℕ) :
    targetAt core idx =
      (Log.entryConfig core.log.entries idx).bind Configuration.transitionTarget := by
  rw [targetAt, h.get, Log.entryConfig]

/-! ## One turn -/

theorem mem_commitCandidates {core : Core} {k : ℕ} (h : k ∈ commitCandidates core) :
    core.commitIndex < k ∧ k ≤ core.log.lastIndex := by
  rw [commitCandidates, List.mem_reverse, List.mem_range'_1] at h
  omega

/-- The commit index can go to `k`: it stays, or a quorum has the entry there. -/
def Advances (l : Leader) (core : Core) (k : ℕ) : Prop :=
  k = core.commitIndex ∨
    core.commitIndex < k ∧ k ≤ core.log.lastIndex ∧ l.committable core k = true

theorem Advances.le {l : Leader} {core : Core} {k : ℕ} (h : l.Advances core k) :
    core.commitIndex ≤ k := by
  rcases h with rfl | ⟨hlt, -⟩
  · exact le_rfl
  · exact Nat.le_of_lt hlt

theorem Advances.within {l : Leader} {core : Core} {k : ℕ} (h : l.Advances core k) :
    k = core.commitIndex ∨ k ≤ core.log.lastIndex :=
  h.imp_right fun h => h.2.1

theorem advanceCommitIndex_spec (l : Leader) (core : Core) :
    ∃ k, l.advanceCommitIndex core = core.setCommitIndex k ∧ l.Advances core k := by
  unfold advanceCommitIndex
  split
  · next k hfind =>
    have hk := mem_commitCandidates (List.mem_of_find?_eq_some hfind)
    exact ⟨k, rfl, .inr ⟨hk.1, hk.2, List.find?_some hfind⟩⟩
  · exact ⟨core.commitIndex, rfl, .inl rfl⟩

theorem tryAutoTransfer_noise (l : Leader) (core : Core) (cfg : Configuration) :
    (l.tryAutoTransfer core cfg).persist = false ∧
      ∀ m ∈ (l.tryAutoTransfer core cfg).messages, m.payload.isNoise = true := by
  unfold tryAutoTransfer
  split
  · split_ifs
    · refine ⟨rfl, fun m hm => ?_⟩
      simp only [Effects.withMessage_messages, Effects.none_messages, List.nil_append,
        List.mem_singleton] at hm
      subst hm
      rfl
    · exact ⟨rfl, fun m hm => by simp at hm⟩
  · exact ⟨rfl, fun m hm => by simp at hm⟩

/-- The configuration at an index, if there is a configuration entry. -/
def configEntry (core : Core) (idx : ℕ) : Option Configuration :=
  (core.log.get idx).bind fun e => e.payload.asConfig

/-- The commit loop passes over this index: there is no configuration, or a simple one in which the
leader is a voter. -/
def passes (core : Core) (idx : ℕ) : Prop :=
  ∀ cfg, configEntry core idx = some cfg →
    cfg.isVoter core.id = true ∧ cfg.transitionTarget = none

/-- The committed configurations are looked at in turn, up to the first one that does not include
the leader or is joint. -/
theorem processConfigs_split (l : Leader) (core : Core) (idxs : List ℕ) :
    (l.processConfigs core idxs = (l, core, .done) ∧ ∀ idx ∈ idxs, passes core idx) ∨
    ∃ before idx after cfg, idxs = before ++ idx :: after ∧ (∀ i ∈ before, passes core i) ∧
      configEntry core idx = some cfg ∧
      (cfg.isVoter core.id = false ∧
          l.processConfigs core idxs = (l, core, .stepDown (l.tryAutoTransfer core cfg)) ∨
        cfg.isVoter core.id = true ∧ ∃ target, cfg.transitionTarget = some target ∧
          l.processConfigs core idxs = ((l.appendTransitionTarget core target).1,
            (l.appendTransitionTarget core target).2.1,
            .continue (l.appendTransitionTarget core target).2.2)) := by
  induction idxs with
  | nil => exact .inl ⟨rfl, nofun⟩
  | cons idx rest ih =>
    have hskip : passes core idx → l.processConfigs core (idx :: rest) =
        l.processConfigs core rest := by
      intro hpass
      rw [processConfigs]
      split
      · rfl
      · next cfg hcfg =>
        obtain ⟨hvoter, htarget⟩ := hpass cfg hcfg
        simp [hvoter, htarget]
    by_cases hpass : passes core idx
    · rw [hskip hpass]
      rcases ih with ⟨hr, hrest⟩ | ⟨before, i, after, cfg, hsplit, hbefore, hcfg, hr⟩
      · exact .inl ⟨hr, List.forall_mem_cons.2 ⟨hpass, hrest⟩⟩
      · exact .inr ⟨idx :: before, i, after, cfg, by rw [hsplit, List.cons_append],
          List.forall_mem_cons.2 ⟨hpass, hbefore⟩, hcfg, hr⟩
    · unfold passes at hpass
      push Not at hpass
      obtain ⟨cfg, hcfg, hstop⟩ := hpass
      have hget : ((core.log.get idx).bind fun e => e.payload.asConfig) = some cfg := hcfg
      refine .inr ⟨[], idx, rest, cfg, rfl, nofun, hcfg, ?_⟩
      rw [processConfigs, hget]
      cases hvoter : cfg.isVoter core.id with
      | false => exact .inl ⟨rfl, by simp [hvoter]⟩
      | true =>
        obtain ⟨target, htarget⟩ := Option.ne_none_iff_exists'.1 (hstop hvoter)
        exact .inr ⟨rfl, target, htarget, by simp [hvoter, htarget]⟩

/-- The same between two commit indices. -/
theorem processCommittedConfigs_split (l : Leader) (core : Core) (k : ℕ) :
    (l.processCommittedConfigs (core.setCommitIndex k) core.commitIndex =
        (l, core.setCommitIndex k, .done) ∧
      ∀ idx, core.commitIndex < idx → idx ≤ k → passes core idx) ∨
    ∃ idx cfg, core.commitIndex < idx ∧ idx ≤ k ∧ configEntry core idx = some cfg ∧
      (cfg.isVoter core.id = false ∧
          l.processCommittedConfigs (core.setCommitIndex k) core.commitIndex =
            (l, core.setCommitIndex k, .stepDown (l.tryAutoTransfer (core.setCommitIndex k) cfg)) ∨
        cfg.isVoter core.id = true ∧ ∃ target, cfg.transitionTarget = some target ∧
          l.processCommittedConfigs (core.setCommitIndex k) core.commitIndex =
            ((l.appendTransitionTarget (core.setCommitIndex k) target).1,
              (l.appendTransitionTarget (core.setCommitIndex k) target).2.1,
              .continue (l.appendTransitionTarget (core.setCommitIndex k) target).2.2)) := by
  have hrange : ∀ idx, idx ∈ List.range' (core.commitIndex + 1) (k - core.commitIndex) ↔
      core.commitIndex < idx ∧ idx ≤ k := by
    intro idx
    rw [List.mem_range'_1]
    omega
  rw [processCommittedConfigs]
  rcases l.processConfigs_split (core.setCommitIndex k) (List.range' (core.commitIndex + 1)
      ((core.setCommitIndex k).commitIndex - core.commitIndex)) with
    ⟨hr, hpass⟩ | ⟨before, idx, after, cfg, hsplit, -, hcfg, hstop⟩
  · exact .inl ⟨hr, fun idx hlo hhi => hpass idx ((hrange idx).2 ⟨hlo, hhi⟩)⟩
  · have hmem : idx ∈ List.range' (core.commitIndex + 1) (k - core.commitIndex) :=
      hsplit ▸ List.mem_append_right _ List.mem_cons_self
    exact .inr ⟨idx, cfg, ((hrange idx).1 hmem).1, ((hrange idx).1 hmem).2, hcfg, hstop⟩

/-! ## The loop -/

/-- **The rule of the commit loop.** `I` holds before every turn and `Q` of the result, the flag
included. The last turn moves the commit index past configurations that need nothing done, or meets
one without the leader, which tells another voter to campaign and steps down. Any other turn meets a
joint configuration and appends its target. -/
theorem maybeCommit_loop {I : Leader → Core → Effects → Prop}
    {Q : Leader → Core → Effects → Bool → Prop}
    (hdone : ∀ l core e k, I l core e → l.Advances core k →
      (∀ idx, core.commitIndex < idx → idx ≤ k → passes core idx) →
      Q l (core.setCommitIndex k) e false)
    (hdown : ∀ l core e k cfg, I l core e → l.Advances core k →
      Q l (core.setCommitIndex k) (e.merge (l.tryAutoTransfer (core.setCommitIndex k) cfg)) true)
    (hjoint : ∀ l core e k idx cfg target, I l core e → l.Advances core k →
      core.commitIndex < idx → idx ≤ k → configEntry core idx = some cfg →
      cfg.transitionTarget = some target →
      I (l.appendTransitionTarget (core.setCommitIndex k) target).1
        (l.appendTransitionTarget (core.setCommitIndex k) target).2.1
        (e.merge (l.appendTransitionTarget (core.setCommitIndex k) target).2.2))
    (l : Leader) {core : Core} (h : I l core Effects.none) :
    Q (l.maybeCommit core).1 (l.maybeCommit core).2.1 (l.maybeCommit core).2.2.1
      (l.maybeCommit core).2.2.2 := by
  suffices hloop : ∀ fuel (l : Leader) (core : Core) (e : Effects), I l core e →
      Q (maybeCommitLoop fuel l core e).1 (maybeCommitLoop fuel l core e).2.1
        (maybeCommitLoop fuel l core e).2.2.1 (maybeCommitLoop fuel l core e).2.2.2 from
    hloop _ l core _ h
  intro fuel
  induction fuel with
  | zero =>
    exact fun l core e h => hdone l core e core.commitIndex h (.inl rfl) fun _ _ _ => by omega
  | succ fuel ih =>
    intro l core e h
    obtain ⟨k, hadv, hk⟩ := l.advanceCommitIndex_spec core
    unfold maybeCommitLoop
    simp only [hadv]
    split_ifs with hsame
    · refine hdone l core e k h hk fun idx hlo hhi => ?_
      have : k = core.commitIndex := hsame
      omega
    · rcases l.processCommittedConfigs_split core k with
        ⟨hr, hpass⟩ | ⟨idx, cfg, hlo, hhi, hcfg, ⟨-, hr⟩ | ⟨-, target, htarget, hr⟩⟩
      · rw [hr]
        exact hdone l core e k h hk hpass
      · rw [hr]
        exact hdown l core e k cfg h hk
      · rw [hr]
        exact ih _ _ _ (hjoint l core e k idx cfg target h hk hlo hhi hcfg htarget)

/-- The rule for what the loop does to the core. -/
theorem maybeCommit_rule {I : Core → Prop} {Q : Core → Bool → Prop}
    (hdone : ∀ core k, I core → core.commitIndex ≤ k →
      (k = core.commitIndex ∨ k ≤ core.log.lastIndex) →
      (∀ idx, core.commitIndex < idx → idx ≤ k → targetAt core idx = none) →
      Q (core.setCommitIndex k) false)
    (hdown : ∀ core k, I core → core.commitIndex ≤ k →
      (k = core.commitIndex ∨ k ≤ core.log.lastIndex) → Q (core.setCommitIndex k) true)
    (hjoint : ∀ core k idx target, I core → core.commitIndex < idx → idx ≤ k →
      k ≤ core.log.lastIndex → targetAt core idx = some target →
      I (appendEntry (core.setCommitIndex k) (.config target)))
    (l : Leader) {core : Core} (h : I core) :
    Q (l.maybeCommit core).2.1 (l.maybeCommit core).2.2.2 := by
  refine maybeCommit_loop (I := fun _ core _ => I core) (Q := fun _ core _ down => Q core down)
    ?_ (fun _ core _ k _ h hk => hdown core k h hk.le hk.within) ?_ l h
  · intro _ core _ k h hk hpass
    exact hdone core k h hk.le hk.within fun idx hlo hhi =>
      Option.bind_eq_none_iff.2 fun cfg hcfg => (hpass idx hlo hhi cfg hcfg).2
  · intro _ core _ k idx cfg target h hk hlo hhi hcfg htarget
    have hle : k ≤ core.log.lastIndex := hk.within.resolve_left (by omega)
    exact hjoint core k idx target h hlo hhi hle (Option.bind_eq_some_iff.2 ⟨cfg, hcfg, htarget⟩)

/-- The rule for an invariant of the leader, the core and the effects: it is kept by moving the
commit index, by the hand-over to another voter, and by the append of a joint configuration's target
with the messages that announce it. -/
theorem maybeCommit_induct {I : Leader → Core → Effects → Prop}
    (hset : ∀ l core effects k, I l core effects → core.commitIndex ≤ k →
      (k = core.commitIndex ∨ k ≤ core.log.lastIndex) → I l (core.setCommitIndex k) effects)
    (hdown : ∀ l core effects cfg, I l core effects →
      I l core (effects.merge (l.tryAutoTransfer core cfg)))
    (hjoint : ∀ l core effects target, I l core effects →
      I (l.appendTransitionTarget core target).1 (l.appendTransitionTarget core target).2.1
        (effects.merge (l.appendTransitionTarget core target).2.2))
    (l : Leader) {core : Core} (h : I l core Effects.none) :
    I (l.maybeCommit core).1 (l.maybeCommit core).2.1 (l.maybeCommit core).2.2.1 :=
  maybeCommit_loop (Q := fun l core e _ => I l core e)
    (fun l core e k h hk _ => hset l core e k h hk.le hk.within)
    (fun l _ e k cfg h hk => hdown l _ e cfg (hset l _ e k h hk.le hk.within))
    (fun l _ e k _ _ target h hk _ _ _ _ => hjoint l _ e target (hset l _ e k h hk.le hk.within))
    l h

end Leader

end Cloud9
