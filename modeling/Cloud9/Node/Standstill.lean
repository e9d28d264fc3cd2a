import Cloud9.Node.Acknowledge
import Cloud9.Node.Replicas
import Cloud9.Raft.Wedged

/-!
# A cluster that never takes a proposal again

What a cluster has committed is not on its disks: after a restart the commit index is 0, and the
entries of the log are committed again only behind an entry of the new leader's term. The leader
refuses that entry when `max_uncommitted_entries` entries are in its log (`Cloud9.Raft.Wedged`). The
runtime never compacts its log, so that a cluster gets there once it has taken that many proposals.

`restart_wedges`: take any reachable state of a cluster in which the logs of the members are parts
of the longest one, none is shorter than the limit, and the last save of each member has succeeded.
When all processes are stopped and started again, and the messages in flight are lost, no proposal
is accepted any more and nothing is applied. This holds for every run, with any further restarts,
elections and deliveries, and includes reads, as they propose a barrier.

The invariant is `Fleet.Idles`: every member is stuck and only idle messages are in flight.
-/

namespace Cloud9

open World

/-- The processes that are started on some stores, with no messages in flight. -/
def Fleet.boot (D : Deployment) (stores : NodeId → RaftStore) : Fleet where
  nodes := fun id => Journal.start (Runtime.start (D.config id) (stores id))
  sent := []
  acks := []

/-! ## One process -/

/-- A process that has applied nothing and whose node is stuck with a full log. -/
structure Runtime.Idles (D : Deployment) (L : List Entry) (id : NodeId) (r : Runtime) : Prop where
  consensus : r.node.core.config = (D.config id).consensus
  stuck : r.node.Stuck D.boot L
  full : (D.consensus id).maxUncommittedEntries ≤ r.node.core.log.entries.length
  state : r.state = KvState.new

namespace Runtime

variable {D : Deployment} {f : Formats} {L : List Entry} {id : NodeId} {r r₀ r' : Runtime}

theorem Idles.rests (h : r.Idles D L id) (hrests : r.Rests r') : r'.Idles D L id := by
  obtain ⟨hconsensus, hstuck, hfull, hstate⟩ := h
  rw [← hrests.node] at hconsensus hstuck hfull
  exact ⟨hconsensus, hstuck, hfull, hrests.state.trans hstate⟩

/-- A process that is started on what a node with a full log has stored. The commit index is 0,
whatever it was. -/
theorem idles_start {store : RaftStore} {n : RaftNode} (hstore : store.durable = n.persistent)
    (hfixed : n.core.Fixed D.boot) (hlog : n.core.log.entries <+: L)
    (hpast : ∀ e ∈ n.core.log.entries, e.term ≤ n.core.term)
    (hfull : (D.consensus id).maxUncommittedEntries ≤ n.core.log.entries.length) :
    (start (D.config id) store).Idles D L id := by
  obtain ⟨wal, kind, durable⟩ := store
  obtain rfl : durable = n.persistent := hstore
  have hfixed' : (start (D.config id) ⟨wal, kind, n.persistent⟩).node.core.Fixed D.boot :=
    ⟨hfixed.plain, hfixed.commands, hfixed.boot⟩
  exact ⟨rfl, ⟨⟨hfixed.plain, hlog, rfl, hpast, fun hne => absurd rfl hne⟩, hfixed'⟩, hfull, rfl⟩

/-- Nothing is committed, so nothing is applied. -/
theorem Idles.handleEffects (h : r.Idles D L id) {effects : Effects} {env : CallEnv}
    {out : Runtime × List Handover × List Applied × Outcome}
    (hout : r.handleEffects f effects env = out) : out.1.Idles D L id ∧ out.2.2.1 = [] := by
  have hnone : ∀ {r : Runtime}, r.Idles D L id → r.node.committed = [] := by
    intro r hr
    have hcommit : r.node.core.commitIndex = 0 := hr.stuck.view.commit
    simp [RaftNode.committed, hcommit]
  have hall := @handleEffects_rule f r effects env
    (fun past r => r.Idles D L id ∧ past = []) ?_ ?_ [] ⟨h, rfl⟩ out hout
  · exact ⟨hall.1, hall.2⟩
  · rintro past r store ⟨hr, hpast⟩
    exact ⟨⟨hr.consensus, hr.stuck, hr.full, hr.state⟩, hpast⟩
  · rintro past r entry ⟨hr, -⟩ hhead
    rw [hnone hr] at hhead
    cases hhead

section

variable (hL : Log.Indexed L) (hpos : Log.PositiveTerms L)
  (hcommands : ∀ e ∈ L, ∀ cfg, e.payload ≠ .config cfg)
include hL hpos hcommands

/-- **What a call begins with** is an event, as proposals are refused. -/
theorem Idles.begins (h : r.Idles D L id) {sent : List Message} (hsent : ∀ m ∈ sent, m.Idle L)
    {input : RuntimeInput} (hevent : ∀ {event}, r.event? input = some event →
      event = .tick ∨ ∃ msg, event = .message msg ∧ msg ∈ sent ∧ msg.to = id)
    {effects : Effects} {ticket : Option Ticket} (hbegins : Begins f r input r₀ effects ticket) :
    r₀.Idles D L id ∧ effects.All (Message.Idle L) ∧ ticket = none := by
  cases hbegins with
  | @event event he =>
    have hid : r.node.core.id = id := by rw [Core.id, h.consensus]; rfl
    obtain ⟨hstuck, hms, hlen⟩ := RaftNode.stepEvent_stuck hL hpos hcommands h.stuck hsent
      (by rw [hid]; exact hevent he)
    exact ⟨⟨(r.node.stepEvent_config event).trans h.consensus, hstuck, h.full.trans hlen, h.state⟩,
      hms, rfl⟩
  | propose _ _ _ hpropose =>
    have hlimit : r.node.core.config.maxUncommittedEntries ≤ r.node.core.log.entries.length := by
      rw [h.consensus]
      exact h.full
    obtain ⟨e, hrefused, -⟩ := h.stuck.propose_refused hlimit _
    cases hrefused.symm.trans hpropose

end

end Runtime

/-! ## The cluster -/

namespace Fleet

variable {D : Deployment} {f : Formats} {L : List Entry} {fl fl' : Fleet} {id : NodeId}
  {input : RuntimeInput}

/-- No member has accepted a proposal or can, none has applied an entry, and only idle messages are
in flight. -/
structure Idles (D : Deployment) (L : List Entry) (fl : Fleet) : Prop where
  config : ∀ id, (fl.nodes id).runtime.config = D.config id
  nodes : ∀ id ∈ D.peers, (fl.nodes id).runtime.Idles D L id
  tickets : ∀ id ∈ D.peers, (fl.nodes id).tickets = []
  applied : ∀ id ∈ D.peers, (fl.nodes id).applied = []
  sent : ∀ m ∈ fl.sent, m.Idle L
  acks : fl.acks = []

/-- One member moves on. -/
theorem Idles.next (h : fl.Idles D L) {j : Journal} {report : Report}
    (hconfig : j.runtime.config = D.config id) (hidles : j.runtime.Idles D L id)
    (htickets : j.tickets = []) (hpast : j.applied = [])
    (hhanded : ∀ h ∈ report.handed, h.message.Idle L) (happlied : report.applied = []) :
    (fl.next id j report).Idles D L := by
  refine ⟨?_, ?_, ?_, ?_, ?_, ?_⟩
  · exact (Function.forall_update_iff fl.nodes fun other j => j.runtime.config = D.config other).2
      ⟨hconfig, fun other _ => h.config other⟩
  · exact (Function.forall_update_iff fl.nodes fun other j =>
      other ∈ D.peers → j.runtime.Idles D L other).2 ⟨fun _ => hidles, fun other _ => h.nodes other⟩
  · exact (Function.forall_update_iff fl.nodes fun other j => other ∈ D.peers → j.tickets = []).2
      ⟨fun _ => htickets, fun other _ => h.tickets other⟩
  · exact (Function.forall_update_iff fl.nodes fun other j => other ∈ D.peers → j.applied = []).2
      ⟨fun _ => hpast, fun other _ => h.applied other⟩
  · intro m hm
    rcases List.mem_append.1 hm with hold | hnew
    · exact h.sent m hold
    · obtain ⟨hand, hmem, rfl⟩ := List.mem_map.1 hnew
      exact hhanded hand hmem
  · simp [Fleet.next, h.acks, happlied]

/-- The cluster of the same nodes. -/
theorem Idles.refines (h : fl.Idles D L) : fl.Refines D
    ⟨fun id => (fl.nodes id).runtime.node, fun id => (fl.nodes id).runtime.node.persistent,
      fl.sent⟩ :=
  ⟨h.config, fun _ => rfl, List.Subset.refl _⟩

section

variable (hL : Log.Indexed L) (hpos : Log.PositiveTerms L)
  (hcommands : ∀ e ∈ L, ∀ cfg, e.payload ≠ .config cfg)
include hL hpos hcommands

/-- **One input of a member.** -/
theorem Idles.step (h : fl.Idles D L) (hid : id ∈ D.peers)
    (hstep : fl.step f (id, input) = some fl') : fl'.Idles D L := by
  obtain ⟨hposs, r', report, hcall, rfl⟩ := step_eq_some.1 hstep
  have hnode := h.nodes id hid
  cases Journal.call_spec hcall with
  | idle hrests hhanded happlied hticket _ hlive =>
    rw [Journal.next_of_live hlive]
    refine h.next (hrests.config.trans (h.config id)) (hnode.rests hrests) ?_ ?_ ?_ happlied
    · simp [Journal.record, hticket, h.tickets id hid]
    · simp [Journal.record, happlied, h.applied id hid]
    · simp [hhanded]
  | handled hbegins hhandles hrests _ hlive =>
    rw [Journal.next_of_live hlive]
    obtain ⟨hidles, hms, hticket⟩ := hnode.begins hL hpos hcommands h.sent
      (fun he => h.refines.event_cases hposs he) hbegins
    obtain ⟨hidles₁, happlied : report.applied = []⟩ := hidles.handleEffects hhandles
    obtain ⟨hconfig, -, hhanded⟩ := Runtime.handleEffects_frame hhandles
    refine h.next ?_ (hidles₁.rests hrests) ?_ ?_ (fun hand hmem => hms _ (hhanded hand hmem))
      happlied
    · exact (hrests.config.trans hconfig).trans (hbegins.config.trans (h.config id))
    · simp [Journal.record, hticket, h.tickets id hid]
    · simp [Journal.record, happlied, h.applied id hid]
  | @restart d d' _ _ hinput hopen _ =>
    subst hinput
    have hstart := (Runtime.open_start hopen).1
    have hdurable : r'.store.durable = (fl.nodes id).runtime.node.persistent := by
      simp only [possible, hopen, decide_eq_true_eq] at hposs
      exact hposs
    simp only [Journal.call, hopen, Option.some.injEq, Prod.mk.injEq, true_and] at hcall
    subst hcall
    have hidles : (Runtime.start (D.config id) r'.store).Idles D L id :=
      Runtime.idles_start hdurable hnode.stuck.fixed hnode.stuck.view.log hnode.stuck.view.past
        hnode.full
    rw [h.config id] at hstart
    rw [← hstart] at hidles
    exact h.next (by rw [hstart]; rfl) hidles rfl rfl (fun _ hmem => absurd hmem List.not_mem_nil)
      rfl

/-- **A whole run of the members.** -/
theorem Idles.run (h : fl.Idles D L) {acts : List (NodeId × RuntimeInput)}
    (hrun : fl.run f (fun _ act => decide (act.1 ∈ D.peers)) acts = some fl') : fl'.Idles D L :=
  runWhile_invariant (I := fun fl : Fleet => fl.Idles D L)
    (fun h hok hstep => h.step hL hpos hcommands (of_decide_eq_true hok) hstep) h hrun

/-- A member gives no ticket for a proposal. -/
theorem Idles.no_ticket (h : fl.Idles D L) (hid : id ∈ D.peers) {command : KvCommand}
    {env : CallEnv} {r : Runtime} {report : Report}
    (hpropose : (fl.nodes id).runtime.propose f command env = some (r, report)) :
    report.ticket = none := by
  have hposs : fl.possible f id (.propose command env) = true := rfl
  cases Runtime.propose_call hpropose with
  | idle _ _ _ hticket => exact hticket
  | handled hbegins =>
    exact ((h.nodes id hid).begins hL hpos hcommands h.sent
      (fun he => h.refines.event_cases hposs he) hbegins).2.2
  | restart hinput => cases hinput

end

/-- All members are started on what nodes with full logs have stored. -/
theorem idles_boot {stores : NodeId → RaftStore} {nodes : NodeId → RaftNode}
    (hstores : ∀ id ∈ D.peers, (stores id).durable = (nodes id).persistent)
    (hfixed : ∀ id, (nodes id).core.Fixed D.boot)
    (hlogs : ∀ id ∈ D.peers, (nodes id).core.log.entries <+: L)
    (hpast : ∀ id, ∀ e ∈ (nodes id).core.log.entries, e.term ≤ (nodes id).core.term)
    (hfull : ∀ id ∈ D.peers,
      (D.consensus id).maxUncommittedEntries ≤ (nodes id).core.log.entries.length) :
    (boot D stores).Idles D L where
  config _ := rfl
  nodes id hid := Runtime.idles_start (hstores id hid) (hfixed id) (hlogs id hid) (hpast id)
    (hfull id hid)
  tickets _ _ := rfl
  applied _ _ := rfl
  sent _ hm := absurd hm List.not_mem_nil
  acks := rfl

end Fleet

/-- **A full cluster does not survive a restart.** Take any run of a cluster in which accepted
append requests are verified, and let all members stop when each holds a part of the longest log, no
log is shorter than the limit of uncommitted entries, and the last save of each member has
succeeded. Started again on what they have stored, they take no proposal, whatever they then
receive, and apply none of the entries in their logs. -/
theorem restart_wedges (D : Deployment) (f : Formats) {acts acts' : List (NodeId × RuntimeInput)}
    {fl fl' : Fleet} (h : (Fleet.init D).run f Fleet.verified acts = some fl) {last : NodeId}
    (hlogs : ∀ id ∈ D.peers, (fl.nodes id).runtime.node.core.log.entries <+:
      (fl.nodes last).runtime.node.core.log.entries)
    (hfull : ∀ id ∈ D.peers, (D.consensus id).maxUncommittedEntries ≤
      (fl.nodes id).runtime.node.core.log.entries.length)
    {stores : NodeId → RaftStore}
    (hstores : ∀ id ∈ D.peers, (stores id).durable = (fl.nodes id).runtime.node.persistent)
    (h' : (Fleet.boot D stores).run f (fun _ act => decide (act.1 ∈ D.peers)) acts' = some fl') :
    fl'.acks = [] ∧ ∀ id ∈ D.peers, (fl'.nodes id).tickets = [] ∧ (fl'.nodes id).applied = [] ∧
      (fl'.nodes id).runtime.state = KvState.new ∧
      ∀ command env r report, (fl'.nodes id).runtime.propose f command env = some (r, report) →
        report.ticket = none := by
  obtain ⟨w, l, -, -, hagrees⟩ := (Fleet.agrees_init D f).run h
  obtain ⟨c, ht, href⟩ := hagrees.refines
  have hfixed : ∀ id, (fl.nodes id).runtime.node.core.Fixed D.boot := fun id => by
    rw [href.node id]
    exact ht.fixed not_false id
  have hlog : ∀ id, (fl.nodes id).runtime.node.core.log.entries = w.log id := fun id => by
    rw [href.node id]
    exact (ht.node id).log
  have hpast : ∀ id, ∀ e ∈ (fl.nodes id).runtime.node.core.log.entries,
      e.term ≤ (fl.nodes id).runtime.node.core.term := by
    intro id e he
    have hterm : (fl.nodes id).runtime.node.core.term = w.cur id := by
      rw [href.node id]
      exact (ht.node id).term
    rw [hlog id] at he
    rw [hterm]
    exact ht.sim.inv.log_le id e he
  have hpos : Log.PositiveTerms (fl.nodes last).runtime.node.core.log.entries := by
    rw [hlog last]
    exact Setting.PositiveTerms.log ht.sim.inv last
  have hL := (hfixed last).plain.indexed
  have hcommands := (hfixed last).commands
  have hidles := Fleet.idles_boot hstores hfixed hlogs hpast hfull
  have hall := hidles.run hL hpos hcommands h'
  exact ⟨hall.acks, fun id hid => ⟨hall.tickets id hid, hall.applied id hid,
    (hall.nodes id hid).state, fun _ _ _ _ hpropose =>
      hall.no_ticket hL hpos hcommands hid hpropose⟩⟩

/-- A cluster of three whose leaders stop at two uncommitted entries. -/
def tightDeployment : Deployment :=
  { trioDeployment with consensus := fun _ => { quickConfig with maxUncommittedEntries := 2 } }

/-- Two registrations that all members have and node 0 has applied. -/
def registerBoth : List (NodeId × RuntimeInput) :=
  registerZero ++ replicateBoth ++
    [(1, .receive ⟨0, 1, 1, .appendRequest
        ⟨0, 0, [⟨1, 1, .command KvCommand.registerSession.toJson⟩], 0⟩⟩ {}),
      (1, .receive ⟨0, 1, 1, .appendRequest
        ⟨1, 1, [⟨1, 2, .command KvCommand.registerSession.toJson⟩], 0⟩⟩ {})]

/-- Node 0 becomes the leader of term 2. -/
def leadAgain : List (NodeId × RuntimeInput) :=
  [(0, .tick {}), (2, .receive ⟨0, 2, 2, .voteRequest ⟨2, 1⟩⟩ {}),
    (0, .receive ⟨2, 0, 2, .voteResponse ⟨true⟩⟩ {})]

/-- Both registrations are acknowledged. After the restart node 0 leads and refuses the next one. -/
theorem restart_wedges_tight : ∃ fl fl',
    (Fleet.init tightDeployment).run jsonFormats Fleet.verified registerBoth = some fl ∧
    fl.acks.length = 2 ∧
    (Fleet.boot tightDeployment fun id => (fl.nodes id).runtime.store).run jsonFormats
      (fun _ act => decide (act.1 ∈ tightDeployment.peers)) leadAgain = some fl' ∧
    (fl'.nodes 0).runtime.node.isLeader = true ∧ (fl'.nodes 0).runtime.state = KvState.new ∧
    ∃ r report, (fl'.nodes 0).runtime.propose jsonFormats .registerSession {} =
        some (r, report) ∧
      report.ticket = none := by
  have hrun : ((Fleet.init tightDeployment).run jsonFormats Fleet.verified registerBoth).any
      (fun fl => decide (fl.acks.length = 2 ∧ ∀ id ∈ tightDeployment.peers.toList,
          ((fl.nodes id).runtime.node.core.log.entries <+:
            (fl.nodes 0).runtime.node.core.log.entries ∧
          2 ≤ (fl.nodes id).runtime.node.core.log.entries.length) ∧
          (fl.nodes id).runtime.store.durable = (fl.nodes id).runtime.node.persistent) &&
        ((Fleet.boot tightDeployment fun id => (fl.nodes id).runtime.store).run jsonFormats
          (fun _ act => decide (act.1 ∈ tightDeployment.peers)) leadAgain).any fun fl' =>
            (fl'.nodes 0).runtime.node.isLeader &&
              ((fl'.nodes 0).runtime.propose jsonFormats .registerSession {}).isSome) =
      true := by
    decide +kernel
  obtain ⟨fl, hfl, hfacts⟩ := (Option.any_eq_true _ _).1 hrun
  obtain ⟨hfull, hagain⟩ := Bool.and_eq_true_iff.1 hfacts
  obtain ⟨hacks, hmembers⟩ := of_decide_eq_true hfull
  obtain ⟨fl', hfl', hleads⟩ := (Option.any_eq_true _ _).1 hagain
  obtain ⟨hleader, hreturns⟩ := Bool.and_eq_true_iff.1 hleads
  obtain ⟨⟨r, report⟩, hpropose⟩ := Option.isSome_iff_exists.1 hreturns
  obtain ⟨-, hwedged⟩ := restart_wedges tightDeployment jsonFormats hfl
    (fun id hid => (hmembers id hid).1.1) (fun id hid => (hmembers id hid).1.2)
    (fun id hid => (hmembers id hid).2) hfl'
  obtain ⟨-, -, hstate, hrefused⟩ := hwedged 0 (by decide)
  exact ⟨fl, fl', hfl, hacks, hfl', hleader, hstate, r, report, hpropose,
    hrefused _ _ _ _ hpropose⟩

end Cloud9
