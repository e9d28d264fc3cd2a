import Cloud9.Node.Replicas
import Cloud9.Raft.Reach

/-!
# Runtimes that do not fail

A runtime that fails refuses every later call until the process is restarted. Of the ways in which
`handle_effects` can end, three would be errors of the program: the node asks for a snapshot to be
sent, it sends a message to a node that is no peer, or the loop of `apply_committed` does not end.
In a cluster in which accepted append requests are verified none of them happens: a call fails only
if its save does, and a process whose saves succeed never fails (`runtime_robust`).

Whom a node talks to is `Cloud9.Raft.Reach`; that every entry carries its own index, so that the
loop ends, is part of `Fleet.Agrees`.
-/

namespace Cloud9

open World

/-! ## The failed flag -/

namespace Runtime

variable {f : Formats} {r r' : Runtime} {effects : Effects} {env : CallEnv}

theorem handleEffects_failed {out : Runtime × List Handover × List Applied × Outcome}
    (hout : r.handleEffects f effects env = out) : out.1.failed = r.failed :=
  @handleEffects_rule f r effects env (fun _ r' => r'.failed = r.failed) (fun _ h => h)
    (fun h _ => h) [] rfl out hout

theorem removePending_failed (r : Runtime) (index : ℕ) (id : UInt64) :
    (r.removePending index id).failed = r.failed := by
  unfold removePending
  split <;> rfl

/-- A process has failed if it had before, or if the call reports it. -/
def Fails (r r' : Runtime) (report : Report) : Prop :=
  r'.failed = true → r.failed = true ∨ ∃ e, report.outcome = some (.failed e)

theorem drive_fails {event : Event} {report : Report}
    (h : r.drive f event env = some (r', report)) : r.Fails r' report := by
  unfold drive at h
  split at h
  · cases h
    exact .inl
  · split at h
    · cases h
      exact .inl
    · dsimp only at h
      generalize hout : ({ r with node := (r.node.stepEvent event).1 } : Runtime).handleEffects f
        (r.node.stepEvent event).2 env = out at h
      have hfailed := handleEffects_failed hout
      obtain ⟨r₁, handed, applied, outcome⟩ := out
      cases outcome with
      | done =>
        cases h
        exact fun hf => .inl (hfailed.symm.trans hf)
      | failed e =>
        cases h
        exact fun _ => .inr ⟨e, rfl⟩
      | cancelled =>
        cases h
        exact fun hf => .inl (hfailed.symm.trans hf)
      | spinning => cases h

theorem propose_fails {command : KvCommand} {report : Report}
    (h : r.propose f command env = some (r', report)) : r.Fails r' report := by
  unfold propose at h
  split at h
  · cases h
    exact .inl
  · split at h
    · cases h
      exact .inl
    · next next hnext =>
      dsimp only at h
      split at h
      · cases h
        exact .inl
      · next bytes hbytes =>
        split at h
        · cases h
          exact .inl
        · split at h
          · cases h
          · cases h
            exact .inl
          · next node index effects hpropose =>
            generalize hout : ({ r with
              nextProposalId := next
              node := node
              waiters := Function.update r.waiters index (some ⟨r.nextProposalId, bytes⟩) } :
                Runtime).handleEffects f effects env = out at h
            have hfailed := handleEffects_failed hout
            obtain ⟨r₁, handed, applied, outcome⟩ := out
            cases outcome with
            | done =>
              cases h
              exact fun hf => .inl (hfailed.symm.trans hf)
            | failed e =>
              cases h
              exact fun _ => .inr ⟨e, rfl⟩
            | cancelled =>
              cases h
              exact fun hf => .inl (hfailed.symm.trans ((removePending_failed ..).symm.trans hf))
            | spinning => cases h

end Runtime

theorem Journal.call_fails {f : Formats} {j : Journal} {input : RuntimeInput} {r' : Runtime}
    {report : Report} (h : j.call f input = some (r', report)) : j.runtime.Fails r' report := by
  cases input with
  | tick env =>
    simp only [call, Runtime.tickOnce] at h
    exact Runtime.drive_fails h
  | receive message env =>
    simp only [call, Runtime.receive] at h
    split at h
    · cases h
      exact .inl
    · exact Runtime.drive_fails h
  | propose command env =>
    simp only [call] at h
    exact Runtime.propose_fails h
  | giveUp index id =>
    cases h
    exact fun hf => .inl ((Runtime.removePending_failed ..).symm.trans hf)
  | restart d =>
    simp only [call] at h
    split at h
    · cases h
    · next d' r hopen =>
      cases h
      rw [(Runtime.open_start hopen).1]
      intro hf
      cases hf

/-! ## Effects that can be carried out -/

/-- An end of `handle_effects` that is no error of the program. -/
def Outcome.Clean : Outcome → Prop
  | .done | .cancelled | .failed (.store _) => True
  | _ => False

namespace Runtime

variable {f : Formats} {r : Runtime} {effects : Effects} {env : CallEnv}

theorem sendMessages_ok (r : Runtime) {messages : List Message}
    (h : ∀ m ∈ messages, r.canSend m.to = true) : (r.sendMessages messages).2 = .ok () := by
  induction messages with
  | nil => rfl
  | cons message rest ih =>
    rw [sendMessages, if_pos (h message List.mem_cons_self)]
    exact ih fun m hm => h m (List.mem_cons_of_mem _ hm)

/-- Messages to peers and no snapshots leave only the save to fail. -/
theorem handleEffects_clean {applied : List Applied} (h : r.Applies f applied)
    (hwithin : effects.Within fun id => r.canSend id = true) :
    (r.handleEffects f effects env).2.2.2.Clean := by
  unfold handleEffects
  split
  · trivial
  · next r' hpersist =>
    obtain ⟨store, rfl, -⟩ := persist_ok hpersist
    rw [if_neg (not_not.2 hwithin.snapshots)]
    have hsend := ({ r with store := store } : Runtime).sendMessages_ok hwithin.messages
    split
    · next handed e heq =>
      rw [heq] at hsend
      cases hsend
    · show Outcome.Clean (applyLoop f _ _ _).2.2
      rcases @Applies.applyLoop_outcome f _ env.cancelAt _ _ (h.store store) (Nat.le_refl _) with
        hcancelled | ⟨hdone, -⟩
      · rw [hcancelled]
        trivial
      · rw [hdone]
        trivial

/-- Only peers are heard. -/
theorem canSend_sender {input : RuntimeInput} {event : Event} (hevent : r.event? input = some event)
    {id : NodeId} (hsender : event.Sender id) : r.canSend id = true := by
  obtain ⟨msg, rfl, rfl⟩ := hsender
  cases input with
  | receive message env =>
    simp only [event?] at hevent
    split_ifs at hevent with hok
    cases hevent
    simp only [Bool.and_eq_true, validateMessage] at hok
    by_cases hto : msg.to ≠ r.config.nodeId
    · rw [if_pos hto] at hok
      cases hok.1.1
    · rw [if_neg hto] at hok
      by_cases hself : msg.from = r.config.nodeId
      · rw [if_pos hself] at hok
        cases hok.1.1
      · rw [if_neg hself] at hok
        by_cases hpeer : msg.from ∉ r.config.peers
        · rw [if_pos hpeer] at hok
          cases hok.1.1
        · exact decide_eq_true ⟨not_not.1 hpeer, hself⟩
  | tick env =>
    simp only [event?] at hevent
    split_ifs at hevent
    cases hevent
  | propose command env => cases hevent
  | giveUp index pid => cases hevent
  | restart d => cases hevent

end Runtime

/-! ## The invariant -/

namespace Deployment

theorem canSend_of_replicationPeers (D : Deployment) {r : Runtime} {id peer : NodeId}
    (hconfig : r.config = D.config id) (h : peer ∈ D.boot.replicationPeers id) :
    r.canSend peer = true := by
  simp only [Configuration.replicationPeers, Configuration.allNodes, boot, Configuration.simpleOf,
    Configuration.voters, Configuration.learners, List.mem_filter, List.mem_append,
    decide_eq_true_eq] at h
  obtain ⟨hpeer | hlearner, hne⟩ := h
  · rw [Runtime.canSend, hconfig]
    exact decide_eq_true ⟨OrdSet.mem_ofList.1 hpeer, hne⟩
  · cases hlearner

end Deployment

namespace Fleet

variable {D : Deployment} {f : Formats} {w w' : History} {l l' : List Entry} {fl fl' : Fleet}
  {id : NodeId} {input : RuntimeInput}

/-- No node waits for an index before the first, and no leader for a read of other members. -/
structure Sound (D : Deployment) (f : Formats) (fl : Fleet) : Prop where
  agrees : ∃ w l, fl.Agrees D f w l
  onward : ∀ id, (fl.nodes id).runtime.node.Onward D.boot

theorem sound_init (D : Deployment) (f : Formats) : (Fleet.init D).Sound D f :=
  ⟨⟨_, _, agrees_init D f⟩, fun _ => RaftNode.onward_of_not_leader rfl⟩

namespace Sound

variable (h : fl.Sound D f)
include h

/-- What a call begins with keeps to the peers. -/
theorem begins (hposs : fl.possible f id input = true) (hok : fl.verified (id, input) = true)
    {r₀ : Runtime} {effects : Effects} {ticket : Option Ticket}
    (hbegins : Runtime.Begins f (fl.nodes id).runtime input r₀ effects ticket) :
    r₀.Applies f (fl.nodes id).applied ∧ r₀.node.Onward D.boot ∧
      effects.Within fun peer => r₀.canSend peer = true := by
  obtain ⟨w, l, hagrees⟩ := h.agrees
  obtain ⟨c, ht, href⟩ := hagrees.refines
  obtain ⟨w', c', -, ht', hnodes, -⟩ := href.begins ht hposs (fun _ => hok) hbegins
  have hself : c'.nodes id = r₀.node := by rw [hnodes, Function.update_self]
  have hchange : ¬(D.setting True).change := fun hfalse => hfalse
  have hfixed : (fl.nodes id).runtime.node.core.Fixed D.boot := by
    rw [href.node id]
    exact ht.fixed hchange id
  have hfixed' : r₀.node.core.Fixed D.boot := by
    rw [← hself]
    exact ht'.fixed hchange id
  have hid : (fl.nodes id).runtime.node.core.id = id := by
    rw [href.node id]
    exact (ht.node id).core_id
  have hpeers : ∀ peer, peer ∈ D.boot.replicationPeers (fl.nodes id).runtime.node.core.id →
      r₀.canSend peer = true := by
    intro peer hpeer
    rw [hid] at hpeer
    exact D.canSend_of_replicationPeers (hbegins.config.trans (href.config id)) hpeer
  refine ⟨(hagrees.begins ht href hposs ht' hself hbegins).1, ?_⟩
  cases hbegins with
  | event hevent =>
    obtain ⟨honward, hwithin⟩ := RaftNode.stepEvent_within hfixed (h.onward id) hfixed'
    exact ⟨honward, hwithin.mono fun peer hreach =>
      hreach.elim (hpeers peer) (Runtime.canSend_sender hevent)⟩
  | propose _ _ _ hpropose =>
    obtain ⟨honward, hwithin⟩ := RaftNode.propose_within hfixed (h.onward id) hpropose
    exact ⟨honward, (hwithin rfl).mono hpeers⟩

/-- **The next call** returns, and no error of the program ends it. -/
theorem call (hposs : fl.possible f id input = true) (hok : fl.verified (id, input) = true)
    (hlive : ∀ d, input ≠ .restart d) : ∃ r report, (fl.nodes id).call f input = some (r, report) ∧
      ∀ outcome, report.outcome = some outcome → outcome.Clean := by
  obtain ⟨w, l, hagrees⟩ := h.agrees
  have hreturns := Journal.call_isSome_of_begins
    (RaftNode.propose_ne_none (hagrees.applies id).intact)
    (fun hbegins => ((h.begins hposs hok hbegins).1.handleEffects rfl).2.1) hlive
  obtain ⟨⟨r, report⟩, hcall⟩ := Option.isSome_iff_exists.1 hreturns
  refine ⟨r, report, hcall, fun outcome houtcome => ?_⟩
  cases Journal.call_spec hcall with
  | idle _ _ _ _ hnone _ =>
    rw [hnone] at houtcome
    cases houtcome
  | @handled r₀ r₁ _ effects env _ _ hbegins hhandles _ hsome _ =>
    rw [hsome] at houtcome
    cases houtcome
    obtain ⟨happlies, -, hwithin⟩ := h.begins hposs hok hbegins
    have hclean := @Runtime.handleEffects_clean f r₀ effects env _ happlies hwithin
    rw [hhandles] at hclean
    exact hclean
  | restart hinput => exact absurd hinput (hlive _)

theorem step (hok : fl.verified (id, input) = true) (hstep : fl.step f (id, input) = some fl') :
    fl'.Sound D f := by
  obtain ⟨w, l, hagrees⟩ := h.agrees
  obtain ⟨w', l', -, -, hagrees'⟩ := hagrees.step hok hstep
  refine ⟨⟨w', l', hagrees'⟩, ?_⟩
  obtain ⟨hposs, r', report, hcall, rfl⟩ := step_eq_some.1 hstep
  have hself : r'.node.Onward D.boot := by
    cases Journal.call_spec hcall with
    | idle hrests =>
      rw [hrests.node]
      exact h.onward id
    | handled hbegins hhandles hrests =>
      obtain ⟨-, ⟨k, hnode⟩, -⟩ := Runtime.handleEffects_frame hhandles
      rw [hrests.node, hnode]
      exact (h.begins hposs hok hbegins).2.1
    | restart _ hopen =>
      rw [(Runtime.open_start hopen).1]
      exact RaftNode.onward_of_not_leader rfl
  intro other
  rcases eq_or_ne other id with rfl | hne
  · have hnext : ((fl.nodes other).next input r' report).runtime = r' := by
      cases input <;> rfl
    simp only [Fleet.next, Function.update_self, hnext]
    exact hself
  · simpa only [Fleet.next, Function.update_of_ne hne] using h.onward other

end Sound

/-- Accepted append requests are verified, and the saves of one node succeed. -/
def steady (f : Formats) (id : NodeId) (fl : Fleet) (act : NodeId × RuntimeInput) : Bool :=
  fl.verified act && (decide (act.1 ≠ id) || (fl.nodes id).saves f act.2)

/-- A node whose save succeeds does not fail. -/
theorem Sound.healthy (h : fl.Sound D f) {act : NodeId × RuntimeInput}
    (hhealthy : (fl.nodes id).runtime.failed = false) (hok : fl.steady f id act = true)
    (hstep : fl.step f act = some fl') : (fl'.nodes id).runtime.failed = false := by
  obtain ⟨actor, input⟩ := act
  rw [steady, Bool.and_eq_true] at hok
  obtain ⟨hverified, hsaves⟩ := hok
  obtain ⟨hposs, r', report, hcall, rfl⟩ := step_eq_some.1 hstep
  rcases eq_or_ne id actor with rfl | hne
  · simp only [ne_eq, not_true_eq_false, decide_false, Bool.false_or, Journal.saves, hcall,
      Option.all_some] at hsaves
    have hnext : ((fl.nodes id).next input r' report).runtime = r' := by
      cases input <;> rfl
    simp only [Fleet.next, Function.update_self, hnext]
    -- a failure would be reported, and only that of a save can be
    by_contra hfailed
    rw [Bool.not_eq_false] at hfailed
    rcases Journal.call_fails hcall hfailed with hbefore | ⟨e, he⟩
    · rw [hhealthy] at hbefore
      cases hbefore
    · have hlive : ∀ d, input ≠ .restart d := by
        rintro d rfl
        cases Journal.call_spec hcall with
        | idle _ _ _ _ _ hlive => exact hlive d rfl
        | handled _ _ _ _ hlive => exact hlive d rfl
        | restart _ _ hnone =>
          rw [hnone] at he
          cases he
      obtain ⟨r, report', hcall', hclean⟩ := h.call hposs hverified hlive
      obtain ⟨rfl, rfl⟩ := Prod.mk.inj (Option.some.inj (hcall'.symm.trans hcall))
      have hstore := hclean _ he
      simp only [Report.saved, he] at hsaves
      cases e with
      | store s => cases hsaves
      | _ => exact hstore
  · simpa only [Fleet.next, Function.update_of_ne hne] using hhealthy

end Fleet

/-- **Runtimes do not fail by themselves.** Take any run of a cluster, with lost, repeated and
reordered messages, dropped calls and restarts, in which accepted append requests are verified and
no process restarts whose failed save has left less than it had in memory. Every call a node can be
given next returns, and its `handle_effects` can only fail in the save. A node whose own saves have
succeeded has not failed, whatever the saves of the others did. -/
theorem runtime_robust (D : Deployment) (f : Formats) (id : NodeId)
    {acts : List (NodeId × RuntimeInput)} {fl : Fleet}
    (h : (Fleet.init D).run f (Fleet.steady f id) acts = some fl) :
    (fl.nodes id).runtime.failed = false ∧
      ∀ other input, (∀ d, input ≠ .restart d) → fl.possible f other input = true →
        fl.verified (other, input) = true →
        ∃ r report, (fl.nodes other).call f input = some (r, report) ∧
          ∀ e, report.outcome = some (.failed e) → ∃ s, e = .store s := by
  have hinv : fl.Sound D f ∧ (fl.nodes id).runtime.failed = false :=
    runWhile_invariant (I := fun fl : Fleet => fl.Sound D f ∧ (fl.nodes id).runtime.failed = false)
      (fun h hok hstep => ⟨h.1.step (Bool.and_eq_true_iff.1 hok).1 hstep,
        h.1.healthy h.2 hok hstep⟩) ⟨Fleet.sound_init D f, rfl⟩ h
  refine ⟨hinv.2, fun other input hlive hposs hok => ?_⟩
  obtain ⟨r, report, hcall, hclean⟩ := hinv.1.call hposs hok hlive
  refine ⟨r, report, hcall, fun e he => ?_⟩
  have hstore := hclean _ he
  cases e with
  | store s => exact ⟨s, rfl⟩
  | _ => exact hstore.elim

/-- The disk of node 1 fails when it votes. -/
def failingVote : NodeId × RuntimeInput :=
  (1, .receive ⟨0, 1, 1, .voteRequest ⟨0, 0⟩⟩ { saveFaults := { sync := true } })

/-- Node 1 has failed and node 0, which leads, has not. A proposal whose save fails is answered. -/
theorem runtime_robust_trio : ∃ fl, (Fleet.init trioDeployment).run jsonFormats
      (Fleet.steady jsonFormats 0) (registerZero ++ failingVote :: replicateBoth) = some fl ∧
    (fl.nodes 1).runtime.failed = true ∧ (fl.nodes 0).runtime.failed = false ∧
    ∃ r report e, (fl.nodes 0).call jsonFormats
        (.propose .registerSession { saveFaults := { sync := true } }) = some (r, report) ∧
      report.outcome = some (.failed e) ∧ ∃ s, e = .store s := by
  have hrun : ((Fleet.init trioDeployment).run jsonFormats (Fleet.steady jsonFormats 0)
      (registerZero ++ failingVote :: replicateBoth)).any (fun fl =>
        (fl.nodes 1).runtime.failed && ((fl.nodes 0).call jsonFormats
          (.propose .registerSession { saveFaults := { sync := true } })).any fun out =>
            !out.2.saved) = true := by
    decide +kernel
  obtain ⟨fl, hfl, hfacts⟩ := (Option.any_eq_true _ _).1 hrun
  obtain ⟨hone, hcall⟩ := Bool.and_eq_true_iff.1 hfacts
  obtain ⟨hzero, hnext⟩ := runtime_robust trioDeployment jsonFormats 0 hfl
  obtain ⟨r, report, hreturns, hstore⟩ := hnext 0
    (.propose .registerSession { saveFaults := { sync := true } }) (fun d hd => by cases hd) rfl rfl
  simp only [hreturns, Option.any_some, Report.saved] at hcall
  split at hcall
  · next s houtcome =>
    exact ⟨fl, hfl, hone, hzero, r, report, _, hreturns, houtcome, hstore _ houtcome⟩
  · cases hcall

end Cloud9
