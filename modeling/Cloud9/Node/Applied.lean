import Cloud9.Node.WriteAhead

/-!
# Committed commands are applied once and in order

A process applies the commands of its log from index 1 on, one after the other. `last_applied` moves
only on commands, and only after the command was applied, so what has been applied is at any moment
the commands up to `last_applied` (`Runtime.Applies`): also when a call is dropped half way, and
again from the beginning after a restart.

The invariant survives a step of the node if the step leaves alone what is committed and the log
keeps its entries at their indices. When `handle_effects` ends there is no command between
`last_applied` and the commit index (`applied_in_order`). A request that skips indices makes the
loop skip commands (`skipped_command`).
-/

namespace Cloud9

/-! ## The commands of a log -/

namespace Log

/-- The command at an index, as `committed` lists it. -/
def committedAt (l : Log) (idx : ℕ) : Option CommittedEntry :=
  (l.get idx).bind fun e =>
    match e.payload with
    | .command cmd => some ⟨e.index, e.term, cmd⟩
    | .config _ => none

/-- The command at an index, with the index. -/
def commandAt (l : Log) (idx : ℕ) : Option (ℕ × Command) :=
  (l.get idx).bind fun e =>
    match e.payload with
    | .command cmd => some (idx, cmd)
    | .config _ => none

/-- The commands at the indices 1 to `k`. -/
def commandsTo (l : Log) (k : ℕ) : List (ℕ × Command) := (List.range' 1 k).filterMap l.commandAt

theorem Contiguous.commandAt {l : Log} (h : l.Contiguous) (idx : ℕ) :
    l.commandAt idx = (l.committedAt idx).map fun c => (c.index, c.command) := by
  unfold Log.commandAt committedAt
  cases hget : l.get idx with
  | none => rfl
  | some e =>
    have hindex := h.get_index hget
    cases hpayload : e.payload with
    | command cmd => simp [hpayload, hindex]
    | config c => simp [hpayload]

theorem Contiguous.filterMap_commandAt {l : Log} (h : l.Contiguous) (idxs : List ℕ) :
    idxs.filterMap l.commandAt =
      (idxs.filterMap l.committedAt).map fun c => (c.index, c.command) := by
  rw [List.map_filterMap]
  exact List.filterMap_congr fun idx _ => h.commandAt idx

theorem commandsTo_congr {l l' : Log} {k : ℕ} (h : ∀ i ≤ k, l'.get i = l.get i) :
    l'.commandsTo k = l.commandsTo k := by
  refine List.filterMap_congr fun i hi => ?_
  rw [commandAt, h i (by rw [List.mem_range'_1] at hi; omega)]
  rfl

theorem commandsTo_split (l : Log) {i k : ℕ} (hle : i ≤ k) :
    l.commandsTo k = l.commandsTo i ++ (List.range' (i + 1) (k - i)).filterMap l.commandAt := by
  rw [commandsTo, commandsTo, ← List.filterMap_append, Nat.add_comm i 1, List.range'_append_1,
    Nat.add_sub_cancel' hle]

end Log

/-- The first index of a range at which a function is defined. -/
theorem exists_of_head?_filterMap_range' {α : Type*} {g : ℕ → Option α} {n : ℕ} : ∀ {a : ℕ} {x : α},
    ((List.range' a n).filterMap g).head? = some x →
      ∃ i, a ≤ i ∧ i < a + n ∧ g i = some x ∧ (List.range' a (i - a)).filterMap g = [] := by
  induction n with
  | zero =>
    intro a x h
    cases h
  | succ n ih =>
    intro a x h
    rw [List.range'_succ] at h
    cases hg : g a with
    | some y =>
      rw [List.filterMap_cons_some hg] at h
      cases h
      exact ⟨a, Nat.le_refl a, by omega, hg, by rw [Nat.sub_self]; rfl⟩
    | none =>
      rw [List.filterMap_cons_none hg] at h
      obtain ⟨i, hlo, hhi, hi, hnone⟩ := ih h
      refine ⟨i, by omega, by omega, hi, ?_⟩
      rw [show i - a = (i - (a + 1)) + 1 by omega, List.range'_succ, List.filterMap_cons_none hg]
      exact hnone

/-! ## The node keeps what is committed -/

/-- An intact core without snapshot that has kept, unaltered, what another one has committed, and
has applied nothing. -/
structure Core.Extends (core core' : Core) : Prop where
  intact : core'.Intact
  snapshot : core'.log.snapshotIndex = 0
  commitIndex : core.commitIndex ≤ core'.commitIndex
  lastApplied : core'.lastApplied = core.lastApplied
  get : ∀ i ≤ core.commitIndex, core'.log.get i = core.log.get i

theorem Core.Intact.advance {core : Core} (h : core.Intact) (k : ℕ) :
    ({ core with lastApplied := k } : Core).Intact := ⟨h.contiguous, h.snapshot, h.commit⟩

/-- Without snapshots, what is kept is kept in place. -/
theorem Core.Continues.get {core core' : Core} (hcontinues : core.Continues core')
    (h : core.Intact) (hsnap : core.log.snapshotIndex = 0) (hsnap' : core'.log.snapshotIndex = 0)
    {i : ℕ} (hi : i ≤ core.commitIndex) : core'.log.get i = core.log.get i := by
  rcases Nat.eq_zero_or_pos i with rfl | hpos
  · rfl
  · obtain ⟨e, he⟩ := h.contiguous.get_isSome (i := i) (by omega) (Nat.le_trans hi h.commit)
    rcases hcontinues.2.entries hi he with hget | hcovered
    · rw [hget, he]
    · omega

theorem Leader.maybeCommit_frame (l : Leader) (core : Core) :
    (l.maybeCommit core).2.1.lastApplied = core.lastApplied ∧
      (l.maybeCommit core).2.1.log.snapshotIndex = core.log.snapshotIndex :=
  let same := fun core' : Core => core'.lastApplied = core.lastApplied ∧
    core'.log.snapshotIndex = core.log.snapshotIndex
  maybeCommit_rule (I := same) (Q := fun core' _ => same core') (fun _ _ h _ _ _ => h)
    (fun _ _ h _ _ => h) (fun _ _ _ _ h _ _ _ _ => h) l ⟨rfl, rfl⟩

namespace RaftNode

theorem stepEvent_extends {n : RaftNode} (h : n.core.Intact) (hsnap : n.core.log.snapshotIndex = 0)
    {event : Event} (hgap : n.gapless event = true)
    (hsnap' : (n.stepEvent event).1.core.log.snapshotIndex = 0)
    (hkeep : ∀ i ≤ n.core.commitIndex,
      (n.stepEvent event).1.core.log.get i = n.core.log.get i) :
    n.core.Extends (n.stepEvent event).1.core := by
  have hcont := stepEvent_contiguous h.contiguous hsnap hgap
  have hsteady : ∀ {core : Core}, n.core.Continues core → core.lastApplied = n.core.lastApplied →
      core.Steady (n.stepEvent event).1.core → n.core.Extends (n.stepEvent event).1.core := by
    intro core hcontinues hlast hs
    have hall := hcontinues.steady hs
    exact ⟨hall.1, hsnap', hall.2.commitIndex, hs.lastApplied.trans hlast, hkeep⟩
  cases n.stepEvent_core event with
  | steady hs => exact hsteady (.refl h) rfl hs
  | commit _ l hs =>
    exact hsteady ((Core.Continues.refl h).maybeCommit l) (l.maybeCommit_frame n.core).1 hs
  | accept msg req hev hreq hacc hs =>
    -- The commit index cannot fall below the entries that were kept.
    have hlast : n.core.commitIndex ≤ (n.stepEvent event).1.core.log.lastIndex := by
      rcases Nat.eq_zero_or_pos n.core.commitIndex with hzero | hpos
      · omega
      · obtain ⟨e, he⟩ := h.contiguous.get_isSome (i := n.core.commitIndex) (by omega) h.commit
        exact hcont.le_lastIndex ((hkeep _ (Nat.le_refl _)).trans he)
    have hcommit := hs.commitIndex.trans (Follower.acceptAppend_commitIndex n.core req)
    rw [← Follower.acceptAppend_log, ← hs.log] at hcommit
    refine ⟨⟨hcont, by omega, ?_⟩, hsnap', ?_, hs.lastApplied.trans ?_, hkeep⟩
    · rw [hcommit]
      split <;> omega
    · rw [hcommit]
      split <;> omega
    · unfold Follower.acceptAppend
      dsimp only
      split <;> rfl
  | snapshot msg hev hmsg =>
    subst hev
    rcases n.stepEvent_installs hmsg with hs | ⟨l, hs⟩ | ⟨req, hinst, hs⟩
    · exact hsteady (.refl h) rfl hs
    · exact hsteady ((Core.Continues.refl h).maybeCommit l) (l.maybeCommit_frame n.core).1 hs
    · -- An installed snapshot leaves the log with one.
      have hindex :
          (Follower.acceptSnapshot n.core req).log.snapshotIndex = req.lastIncludedIndex :=
        Log.Contiguous.installSnapshot_snapshotIndex hinst.1 _ _
      have hlog : (n.stepEvent (.message msg)).1.core.log = _ := hs.log
      rw [hlog, hindex] at hsnap'
      have := hinst.1
      omega

theorem propose_extends {n n' : RaftNode} (h : n.core.Intact) (hsnap : n.core.log.snapshotIndex = 0)
    {cmd : Command} {r : Except ProposeError (ℕ × Effects)} (hp : n.propose cmd = some (n', r)) :
    n.core.Extends n'.core := by
  have hcontinues := propose_continues h hp
  have hframe : n'.core.lastApplied = n.core.lastApplied ∧ n'.core.log.snapshotIndex = 0 := by
    rcases propose_core hp with ⟨e, -, rfl⟩ | ⟨effects, -, l, hs⟩
    · exact ⟨rfl, hsnap⟩
    · have hcommit := l.maybeCommit_frame (Leader.appendEntry n.core (.command cmd))
      rw [hs.log]
      exact ⟨hs.lastApplied.trans hcommit.1, hcommit.2.trans hsnap⟩
  exact ⟨hcontinues.1, hframe.2, hcontinues.2.commitIndex, hframe.1,
    fun i hi => hcontinues.get h hsnap hframe.2 hi⟩

/-- The assertion of the admission check holds, and reading the uncommitted entries does not
panic. -/
theorem propose_ne_none {n : RaftNode} (h : n.core.Intact) (cmd : Command) :
    n.propose cmd ≠ none := by
  have hlimit : n.core.proposalLimitExceeded cmd ≠ none := by
    rw [Core.proposalLimitExceeded, Core.uncommitted, if_pos h.commit,
      Log.slice?_eq h.contiguous.lastIndex]
    exact nofun
  unfold propose
  split
  · split
    · next hnone => exact absurd hnone hlimit
    · exact nofun
    · exact nofun
  · exact nofun

end RaftNode

/-! ## The loop -/

/-- The key-value state after some commands; what cannot be decoded is passed over. -/
def replayCommands (f : Formats) (commands : List Command) : KvState :=
  commands.foldl (fun state command => (Runtime.applyCommand f state command).1) KvState.new

/-- What an applied entry shows. -/
def Applied.command (a : Applied) : ℕ × Command := (a.entry.index, a.entry.command)

namespace Runtime

variable {f : Formats} {r : Runtime} {applied : List Applied}

/-- The entries applied so far are the commands up to `last_applied`, in order, and the key-value
state is what they make. -/
structure Applies (f : Formats) (applied : List Applied) (r : Runtime) : Prop where
  intact : r.node.core.Intact
  snapshot : r.node.core.log.snapshotIndex = 0
  bound : r.node.core.lastApplied ≤ r.node.core.commitIndex
  commands : applied.map Applied.command = r.node.core.log.commandsTo r.node.core.lastApplied
  state : r.state = replayCommands f (applied.map fun a => a.entry.command)

/-- The next entry to apply is the next command of the log. -/
theorem Applies.head (h : r.Applies f applied) {entry : CommittedEntry}
    (hhead : r.node.committed.head? = some entry) :
    r.node.core.lastApplied < entry.index ∧ entry.index ≤ r.node.core.commitIndex ∧
      r.node.core.log.commandsTo entry.index =
        r.node.core.log.commandsTo r.node.core.lastApplied ++ [(entry.index, entry.command)] := by
  obtain ⟨i, hlo, hhi, hat, hnone⟩ := exists_of_head?_filterMap_range' hhead
  have hat : r.node.core.log.committedAt i = some entry := hat
  have hcommand := h.intact.contiguous.commandAt i
  rw [hat, Option.map_some] at hcommand
  have hindex : entry.index = i := by
    unfold Log.commandAt at hcommand
    obtain ⟨e, -, he⟩ := Option.bind_eq_some_iff.1 hcommand
    split at he
    · exact (Prod.mk.inj (Option.some.inj he)).1.symm
    · cases he
  subst hindex
  refine ⟨hlo, by omega, ?_⟩
  have hrange : List.range' (r.node.core.lastApplied + 1) (entry.index - r.node.core.lastApplied) =
      List.range' (r.node.core.lastApplied + 1) (entry.index - (r.node.core.lastApplied + 1)) ++
        [entry.index] := by
    rw [show entry.index - r.node.core.lastApplied =
      entry.index - (r.node.core.lastApplied + 1) + 1 by omega, List.range'_1_concat,
      Nat.add_sub_cancel' hlo]
  have hskip := h.intact.contiguous.filterMap_commandAt
    (List.range' (r.node.core.lastApplied + 1) (entry.index - (r.node.core.lastApplied + 1)))
  rw [show List.filterMap r.node.core.log.committedAt _ = [] from hnone, List.map_nil] at hskip
  rw [Log.commandsTo_split _ (Nat.le_of_lt hlo), hrange, List.filterMap_append, hskip,
    List.nil_append, List.filterMap_cons_some hcommand, List.filterMap_nil]

theorem Applies.applyEntry (h : r.Applies f applied) {entry : CommittedEntry}
    (hhead : r.node.committed.head? = some entry) :
    (r.applyEntry f entry).1.Applies f (applied ++ [(r.applyEntry f entry).2]) := by
  obtain ⟨-, hbound, hcommands⟩ := h.head hhead
  refine ⟨h.intact.advance _, h.snapshot, hbound, ?_, ?_⟩
  · show _ = r.node.core.log.commandsTo entry.index
    rw [hcommands, ← h.commands, List.map_append]
    rfl
  · show (applyCommand f r.state entry.command).1 = _
    rw [h.state, replayCommands, replayCommands, List.map_append, List.foldl_append]
    rfl

/-- Every turn moves `last_applied`, so the loop ends, and then nothing is left to apply unless the
call was dropped. -/
theorem Applies.applyLoop_outcome {fuel : ℕ} : ∀ {cancelAt : Option ℕ} {applied : List Applied}
    {r : Runtime}, r.Applies f applied →
    r.node.core.commitIndex - r.node.core.lastApplied ≤ fuel →
    (applyLoop f fuel cancelAt r).2.2 = .cancelled ∨
      (applyLoop f fuel cancelAt r).2.2 = .done ∧
        (applyLoop f fuel cancelAt r).1.node.committed = [] := by
  induction fuel with
  | zero =>
    intro cancelAt applied r h hfuel
    unfold applyLoop
    split
    · next hhead => exact .inr ⟨rfl, List.head?_eq_none_iff.1 hhead⟩
    · next entry hhead =>
      have := h.head hhead
      omega
  | succ fuel ih =>
    intro cancelAt applied r h hfuel
    unfold applyLoop
    split
    · next hhead => exact .inr ⟨rfl, List.head?_eq_none_iff.1 hhead⟩
    · next entry hhead =>
      have hlt := (h.head hhead).1
      have hfuel' : (r.applyEntry f entry).1.node.core.commitIndex -
          (r.applyEntry f entry).1.node.core.lastApplied ≤ fuel := by
        show r.node.core.commitIndex - entry.index ≤ fuel
        omega
      dsimp only
      split_ifs
      · exact .inl rfl
      all_goals exact ih (h.applyEntry hhead) hfuel'

/-- Where nothing is left to apply, everything that is committed has been applied. -/
theorem Applies.all (h : r.Applies f applied) (hnone : r.node.committed = []) :
    applied.map Applied.command = r.node.core.log.commandsTo r.node.core.commitIndex := by
  have hrest := h.intact.contiguous.filterMap_commandAt (List.range' (r.node.core.lastApplied + 1)
    (r.node.core.commitIndex - r.node.core.lastApplied))
  rw [show List.filterMap r.node.core.log.committedAt _ = [] from hnone, List.map_nil] at hrest
  rw [h.commands, Log.commandsTo_split _ h.bound, hrest, List.append_nil]

/-! ## Calls -/

/-- A step of the node that keeps what is committed. -/
theorem Applies.extend {r₀ : Runtime} (h : r.Applies f applied)
    (hnode : r.node.core.Extends r₀.node.core) (hstate : r₀.state = r.state) :
    r₀.Applies f applied := by
  refine ⟨hnode.intact, hnode.snapshot, ?_, ?_, hstate.trans h.state⟩
  · rw [hnode.lastApplied]
    exact Nat.le_trans h.bound hnode.commitIndex
  · rw [hnode.lastApplied, h.commands]
    exact (Log.commandsTo_congr fun i hi => hnode.get i (Nat.le_trans hi h.bound)).symm

/-- No entry at or below the commit index is altered. -/
def keepsCommitted (r : Runtime) (input : RuntimeInput) : Bool :=
  (r.event? input).all fun event => (List.range (r.node.core.commitIndex + 1)).all fun i =>
    decide ((r.node.stepEvent event).1.core.log.get i = r.node.core.log.get i)

/-- The append requests the node accepts skip no index, its log stays without snapshot, and nothing
committed is altered. -/
def orderly (r : Runtime) (input : RuntimeInput) : Bool :=
  r.gapless input && r.snapshotFree input && r.keepsCommitted input

theorem Applies.begins {r₀ : Runtime} {input : RuntimeInput} {effects : Effects}
    {ticket : Option Ticket} (h : r.Applies f applied) (hok : r.orderly input = true)
    (hbegins : Begins f r input r₀ effects ticket) : r₀.Applies f applied := by
  cases hbegins with
  | event hevent =>
    simp only [orderly, gapless, snapshotFree, keepsCommitted, hevent, Option.all_some,
      Bool.and_eq_true, decide_eq_true_eq, List.all_eq_true, List.mem_range] at hok
    obtain ⟨⟨hgap, hsnap⟩, hkeep⟩ := hok
    exact h.extend (RaftNode.stepEvent_extends h.intact h.snapshot hgap hsnap
      fun i hi => hkeep i (Nat.lt_succ_of_le hi)) rfl
  | propose _ _ _ hpropose =>
    exact h.extend (RaftNode.propose_extends h.intact h.snapshot hpropose) rfl

theorem Applies.store (h : r.Applies f applied) (store : RaftStore) :
    ({ r with store := store } : Runtime).Applies f applied :=
  ⟨h.intact, h.snapshot, h.bound, h.commands, h.state⟩

theorem Applies.handleEffects (h : r.Applies f applied) {effects : Effects} {env : CallEnv}
    {out : Runtime × List Handover × List Applied × Outcome}
    (hout : r.handleEffects f effects env = out) :
    out.1.Applies f (applied ++ out.2.2.1) ∧ out.2.2.2 ≠ .spinning ∧
      (out.2.2.2 = .done → out.1.node.committed = []) := by
  refine ⟨handleEffects_rule (I := fun applied r => r.Applies f applied)
    (fun store h => h.store store) (fun h hhead => h.applyEntry hhead) h hout, ?_⟩
  have hhandles := r.handleEffects_handles f effects env
  rw [hout] at hhandles
  cases hhandles with
  | unsaved store e => exact ⟨nofun, nofun⟩
  | stopped store handed e _ _ => exact ⟨nofun, nofun⟩
  | applied store handed _ _ =>
    rcases @Applies.applyLoop_outcome f _ env.cancelAt _ _ (h.store store) (Nat.le_refl _) with
      hcancelled | ⟨hdone, hnone⟩
    · exact ⟨fun hspin => absurd (hcancelled.symm.trans hspin) nofun,
        fun hdone => absurd (hcancelled.symm.trans hdone) nofun⟩
    · exact ⟨fun hspin => absurd (hdone.symm.trans hspin) nofun, fun _ => hnone⟩

/-! ## Calls return -/

theorem drive_isSome {input : RuntimeInput} {event : Event} {env : CallEnv}
    (hevent : (r.ensureHealthy env).isOk = true → env.dropped = false →
      r.event? input = some event)
    (h : ∀ {r₀ effects ticket}, Begins f r input r₀ effects ticket →
      (r₀.handleEffects f effects env).2.2.2 ≠ .spinning) :
    (r.drive f event env).isSome = true := by
  unfold drive
  split
  · rfl
  · next hhealthy =>
    split
    · rfl
    · next hdropped =>
      have hspin := h (.event (hevent (ensureHealthy_isOk hhealthy) (Bool.eq_false_iff.2 hdropped)))
      dsimp only
      split
      · rfl
      · rfl
      · rfl
      · next heq => exact absurd heq hspin

theorem propose_isSome {command : KvCommand} {env : CallEnv}
    (hassert : ∀ bytes, r.node.propose bytes ≠ none)
    (h : ∀ {r₀ effects ticket}, Begins f r (.propose command env) r₀ effects ticket →
      (r₀.handleEffects f effects env).2.2.2 ≠ .spinning) :
    (r.propose f command env).isSome = true := by
  unfold propose
  split
  · rfl
  · split
    · rfl
    · next next hnext =>
      dsimp only
      split
      · rfl
      · next bytes hbytes =>
        split
        · rfl
        · split
          · next hnone => exact absurd hnone (hassert bytes)
          · rfl
          · next node index effects hpropose =>
            have hspin := h (.propose rfl hbytes hnext hpropose)
            split
            · rfl
            · rfl
            · rfl
            · next heq => exact absurd heq hspin

end Runtime

namespace Journal

variable {f : Formats} {j j' : Journal} {input : RuntimeInput} {r' : Runtime} {report : Report}

theorem applies_start {config : NodeConfig} {d d' : Dir} {r : Runtime}
    (h : Runtime.open f config d = (d', .ok r)) : r.Applies f [] := by
  obtain ⟨hr, hplain⟩ := Runtime.open_start h
  rw [hr]
  exact ⟨⟨hplain.contiguous, Nat.le_of_eq hplain.snapshotIndex, Nat.zero_le _⟩,
    hplain.snapshotIndex, Nat.le_refl _, rfl, rfl⟩

/-- **One input.** -/
theorem applies_call (h : j.runtime.Applies f j.applied) (hok : j.runtime.orderly input = true)
    (hcall : Runtime.Call f j.runtime input r' report) :
    r'.Applies f (j.next input r' report).applied ∧
      (report.outcome = some .done → r'.node.committed = []) := by
  have hrest : ∀ {r₁ : Runtime} {applied : List Applied}, r₁.Applies f applied → r₁.Rests r' →
      r'.Applies f applied := by
    rintro r₁ applied ⟨hintact, hsnap, hbound, hcommands, hstate⟩ hrests
    rw [← hrests.node] at hintact hsnap hbound hcommands
    exact ⟨hintact, hsnap, hbound, hcommands, hrests.state.trans hstate⟩
  cases hcall with
  | idle hrests _ happlied _ houtcome hlive =>
    rw [next_of_live hlive, record, happlied, List.append_nil, houtcome]
    exact ⟨hrest h hrests, nofun⟩
  | handled hbegins hhandles hrests houtcome hlive =>
    obtain ⟨happlies, -, hdone⟩ := (h.begins hok hbegins).handleEffects hhandles
    rw [next_of_live hlive, houtcome]
    refine ⟨hrest happlies hrests, fun heq => ?_⟩
    rw [hrests.node]
    exact hdone (Option.some.inj heq)
  | restart hinput hopen houtcome =>
    subst hinput
    rw [houtcome]
    exact ⟨applies_start hopen, nofun⟩

theorem applies_step (h : j.runtime.Applies f j.applied) (hok : j.runtime.orderly input = true)
    (hstep : j.step f input = some j') : j'.runtime.Applies f j'.applied := by
  obtain ⟨⟨r', report⟩, hcall, rfl⟩ := Option.map_eq_some_iff.1 hstep
  have hruntime : (j.next input r' report).runtime = r' := by cases input <;> rfl
  rw [hruntime]
  exact (applies_call h hok (call_spec hcall)).1

/-- A call returns if its proposals pass the assertion of the node and its apply loop ends. -/
theorem call_isSome_of_begins (hassert : ∀ bytes, j.runtime.node.propose bytes ≠ none)
    (hspin : ∀ {r₀ effects ticket env}, Runtime.Begins f j.runtime input r₀ effects ticket →
      (r₀.handleEffects f effects env).2.2.2 ≠ .spinning)
    (hlive : ∀ d, input ≠ .restart d) : (j.call f input).isSome = true := by
  cases input with
  | tick env =>
    simp only [call, Runtime.tickOnce]
    refine @Runtime.drive_isSome f j.runtime (.tick env) .tick env (fun hhealthy hdropped => ?_)
      fun hbegins => hspin hbegins
    simp [Runtime.event?, hhealthy, hdropped]
  | receive message env =>
    simp only [call, Runtime.receive]
    split
    · rfl
    · next hvalid =>
      have hvalid : (j.runtime.validateMessage message).isOk = true := by rw [hvalid]; rfl
      refine @Runtime.drive_isSome f j.runtime (.receive message env) _ env
        (fun hhealthy hdropped => ?_) fun hbegins => hspin hbegins
      simp [Runtime.event?, hvalid, hhealthy, hdropped]
  | propose command env =>
    exact Runtime.propose_isSome hassert fun hbegins => hspin hbegins
  | giveUp index id => rfl
  | restart d => exact absurd rfl (hlive d)

/-- Every call returns. -/
theorem call_isSome (h : j.runtime.Applies f j.applied) (hok : j.runtime.orderly input = true)
    (hlive : ∀ d, input ≠ .restart d) : (j.call f input).isSome = true :=
  call_isSome_of_begins (RaftNode.propose_ne_none h.intact)
    (fun hbegins => ((h.begins hok hbegins).handleEffects rfl).2.1) hlive

end Journal

/-- **Committed commands are applied once and in order.** Take any state of a run, with ticks,
messages, proposals, dropped calls and restarts, in which accepted append requests skip no index,
the log is without snapshot and nothing committed is altered. Then the next call returns. If its
`handle_effects` completes, the process has applied exactly the commands at the indices up to the
commit index, in the order of the indices, and its key-value state is what they make of a new
one. -/
theorem applied_in_order {f : Formats} {config : NodeConfig} {d d' : Dir} {r : Runtime}
    {inputs : List RuntimeInput} {j : Journal} {input : RuntimeInput}
    (hopen : Runtime.open f config d = (d', .ok r))
    (hrun : (Journal.start r).run f (fun j input => j.runtime.orderly input) inputs = some j)
    (hok : j.runtime.orderly input = true) (hlive : ∀ d, input ≠ .restart d) :
    ∃ r' report, j.call f input = some (r', report) ∧ (report.outcome = some .done →
      (j.next input r' report).applied.map Applied.command =
        r'.node.core.log.commandsTo r'.node.commitIndex ∧
      r'.state = replayCommands f
        ((r'.node.core.log.commandsTo r'.node.commitIndex).map Prod.snd)) := by
  have h : j.runtime.Applies f j.applied :=
    runWhile_invariant (I := fun j => j.runtime.Applies f j.applied)
      (fun h hok hstep => Journal.applies_step h hok hstep) (Journal.applies_start hopen) hrun
  obtain ⟨⟨r', report⟩, hcall⟩ := Option.isSome_iff_exists.1 (Journal.call_isSome h hok hlive)
  obtain ⟨happlies, hdone⟩ := Journal.applies_call h hok (Journal.call_spec hcall)
  refine ⟨r', report, hcall, fun houtcome => ?_⟩
  have hall := happlies.all (hdone houtcome)
  refine ⟨hall, ?_⟩
  rw [happlies.state, show r'.node.commitIndex = r'.node.core.commitIndex from rfl, ← hall,
    List.map_map]
  rfl

/-- Two registrations, both committed. The call is dropped after it has applied the first. -/
def droppedDelivery : RuntimeInput :=
  .receive ⟨1, 0, 1, .appendRequest
    ⟨0, 0, [⟨1, 1, .command KvCommand.registerSession.toJson⟩,
      ⟨1, 2, .command KvCommand.registerSession.toJson⟩], 2⟩⟩ { cancelAt := some 1 }

/-- The next tick applies the second registration and nothing twice. -/
theorem applied_in_order_dropped : ∃ d r j r' report,
    Runtime.open jsonFormats (trioConfig (Config.new 0) 0) Dir.empty = (d, .ok r) ∧
    (Journal.start r).run jsonFormats (fun j input => j.runtime.orderly input)
      [droppedDelivery] = some j ∧
    j.runtime.state.nextClientId = 2 ∧ j.call jsonFormats (.tick {}) = some (r', report) ∧
    r'.state = replayCommands jsonFormats
      ((r'.node.core.log.commandsTo r'.node.commitIndex).map Prod.snd) ∧
    r'.state.nextClientId = 3 := by
  obtain ⟨d, r, j, hopen, hrun, hfacts⟩ := @Journal.exists_of_runFresh jsonFormats
    (trioConfig (Config.new 0) 0) (fun j input => j.runtime.orderly input) [droppedDelivery]
    (fun j => decide (j.runtime.state.nextClientId = 2 ∧ j.runtime.orderly (.tick {}) = true ∧
      (j.call jsonFormats (.tick {})).all (fun out =>
        decide (out.2.outcome = some .done ∧ out.1.state.nextClientId = 3)) = true))
    (by decide +kernel)
  obtain ⟨hbefore, hok, hafter⟩ := of_decide_eq_true hfacts
  obtain ⟨r', report, hcall, happlied⟩ :=
    @applied_in_order _ _ _ _ _ _ _ (.tick {}) hopen hrun hok fun _ heq => by cases heq
  rw [hcall, Option.all_some] at hafter
  obtain ⟨hdone, hnext⟩ := of_decide_eq_true hafter
  exact ⟨d, r, j, r', report, hopen, hrun, hbefore, hcall, (happlied hdone).2, hnext⟩

/-- The log is replaced by registrations with the indices 1, 9 and 10, all committed. -/
def skippingDelivery : RuntimeInput :=
  requestFrom 2 [⟨2, 1, .command KvCommand.registerSession.toJson⟩,
    ⟨1, 9, .command KvCommand.registerSession.toJson⟩,
    ⟨1, 10, .command KvCommand.registerSession.toJson⟩] 10

/-- **A request that skips indices makes the loop skip a command.** The entry of index 9 is in the
second place. After it was applied, the loop goes on at index 10, where the log ends; the entry in
the third place is never applied. -/
theorem skipped_command : ∃ d r j r' report,
    Runtime.open jsonFormats (trioConfig (Config.new 0) 0) Dir.empty = (d, .ok r) ∧
    (Journal.start r).run jsonFormats
      (fun j input => j.runtime.snapshotFree input && j.runtime.keepsCommitted input)
      [threeEntries] = some j ∧
    (j.runtime.snapshotFree skippingDelivery && j.runtime.keepsCommitted skippingDelivery) = true ∧
    j.call jsonFormats skippingDelivery = some (r', report) ∧ report.outcome = some .done ∧
    (j.next skippingDelivery r' report).applied.length = 2 ∧
    (r'.node.core.log.commandsTo r'.node.commitIndex).length = 3 ∧
    r'.state ≠ replayCommands jsonFormats
      ((r'.node.core.log.commandsTo r'.node.commitIndex).map Prod.snd) := by
  obtain ⟨d, r, j, hopen, hrun, hfacts⟩ := @Journal.exists_of_runFresh jsonFormats
    (trioConfig (Config.new 0) 0)
    (fun j input => j.runtime.snapshotFree input && j.runtime.keepsCommitted input) [threeEntries]
    (fun j => (j.runtime.snapshotFree skippingDelivery &&
      j.runtime.keepsCommitted skippingDelivery) &&
      (j.call jsonFormats skippingDelivery).any fun out : Runtime × Report =>
        decide (out.2.outcome = some .done ∧
          (j.next skippingDelivery out.1 out.2).applied.length = 2 ∧
          (out.1.node.core.log.commandsTo out.1.node.commitIndex).length = 3 ∧
          out.1.state.nextClientId ≠ (replayCommands jsonFormats
            ((out.1.node.core.log.commandsTo out.1.node.commitIndex).map Prod.snd)).nextClientId))
    (by decide +kernel)
  obtain ⟨hok, hafter⟩ := Bool.and_eq_true_iff.1 hfacts
  obtain ⟨⟨r', report⟩, hcall, hwrong⟩ := (Option.any_eq_true _ _).1 hafter
  obtain ⟨hdone, happlied, hcommands, hstate⟩ := of_decide_eq_true hwrong
  exact ⟨d, r, j, r', report, hopen, hrun, hok, hcall, hdone, happlied, hcommands,
    fun heq => hstate (congrArg KvState.nextClientId heq)⟩

end Cloud9
