import Mathlib.Data.Nat.Basic
import Cloud9.Lib.OrdSet

/-!
# Cluster membership

`membership.rs`: the two shapes of a configuration, the quorum rule, and the configuration
changes with their validation. Node identifiers are naturals; a `BTreeSet<NodeId>` is an
`OrdSet`.

The results at the end are what the rest of the development needs of a configuration: a larger
vote set is still a quorum, two quorums of one configuration meet, and a validated
single-server change leads to a configuration whose quorums meet those of the current one.
-/

namespace Cloud9

abbrev NodeId := ℕ

/-- How to handle membership changes. -/
inductive MembershipMode where
  | singleServer
  | jointConsensus
  deriving DecidableEq, Repr

/-- A cluster configuration: one voter set, or the transition between two. -/
inductive Configuration where
  | simple (voters learners : OrdSet NodeId)
  | joint (old new learners : OrdSet NodeId)
  deriving DecidableEq

namespace Configuration

/-- `Configuration::simple`: no learners. -/
def simpleOf (voters : List NodeId) : Configuration :=
  .simple (OrdSet.ofList voters) OrdSet.empty

/-- All unique voters; for a joint configuration the old ones come first. -/
def voters : Configuration → List NodeId
  | .simple voters _ => voters.toList
  | .joint old new _ => old.toList ++ new.diffList old

def isVoter (c : Configuration) (id : NodeId) : Bool :=
  match c with
  | .simple voters _ => voters.contains id
  | .joint old new _ => old.contains id || new.contains id

def learnerSet : Configuration → OrdSet NodeId
  | .simple _ learners => learners
  | .joint _ _ learners => learners

def isLearner (c : Configuration) (id : NodeId) : Bool := c.learnerSet.contains id

def learners (c : Configuration) : List NodeId := c.learnerSet.toList

def voterCount : Configuration → ℕ
  | .simple voters _ => voters.card
  | .joint old new _ => old.card + (new.diffList old).length

def voterPeers (c : Configuration) (me : NodeId) : List NodeId := c.voters.filter (· ≠ me)

def allNodes (c : Configuration) : List NodeId := c.voters ++ c.learners

def replicationPeers (c : Configuration) (me : NodeId) : List NodeId := c.allNodes.filter (· ≠ me)

def isMember (c : Configuration) (id : NodeId) : Bool := c.isVoter id || c.isLearner id

def isJoint : Configuration → Bool
  | .simple .. => false
  | .joint .. => true

/-- A majority of the voters, in each voter set the configuration has. -/
def hasQuorum (c : Configuration) (hasVote : NodeId → Bool) : Bool :=
  match c with
  | .simple voters _ => voters.majority hasVote
  | .joint old new _ => old.majority hasVote && new.majority hasVote

/-- The configuration that completes a joint transition. -/
def transitionTarget : Configuration → Option Configuration
  | .simple .. => none
  | .joint _ new learners => some (.simple new learners)

/-- The target of a joint configuration is simple. -/
theorem transitionTarget_target {cfg target : Configuration}
    (h : cfg.transitionTarget = some target) : target.transitionTarget = none := by
  cases cfg with
  | simple voters learners => cases h
  | joint old new learners =>
    cases h
    rfl

end Configuration

/-- Errors when proposing a configuration change. -/
inductive ConfigChangeError where
  | changeInProgress
  | alreadyVoter (id : NodeId)
  | alreadyLearner (id : NodeId)
  | promoteRequiresLearner (id : NodeId)
  | learnerNotCaughtUp (id : NodeId) (have_ need : ℕ)
  | notVoter (id : NodeId)
  | notLearner (id : NodeId)
  | wouldBeEmpty
  | noChange
  | notSingleChange (added removed : ℕ)
  | notLeader
  deriving DecidableEq, Repr

/-- A full membership set. `Members::new` is the only way to build one, so the sets are ordered,
free of duplicates and disjoint. -/
structure Members where
  voters : OrdSet NodeId
  learners : OrdSet NodeId
  disjoint : ∀ id ∈ voters, id ∉ learners

/-- A proposed configuration change. -/
inductive ConfigChange where
  | addVoter (id : NodeId)
  | removeVoter (id : NodeId)
  | addLearner (id : NodeId)
  | removeLearner (id : NodeId)
  | setMembers (members : Members)

namespace ConfigChange

/-- `ConfigChange::validate`. -/
def validate (change : ConfigChange) (current : Configuration) (mode : MembershipMode) :
    Except ConfigChangeError Unit :=
  match current with
  | .joint .. => .error .changeInProgress
  | .simple voters learners =>
    match change with
    | .addVoter id =>
      if voters.contains id then .error (.alreadyVoter id)
      else if !learners.contains id then .error (.promoteRequiresLearner id)
      else .ok ()
    | .removeVoter id =>
      if !voters.contains id then .error (.notVoter id)
      else if voters.card = 1 then .error .wouldBeEmpty
      else .ok ()
    | .addLearner id =>
      if voters.contains id then .error (.alreadyVoter id)
      else if learners.contains id then .error (.alreadyLearner id)
      else .ok ()
    | .removeLearner id =>
      if !learners.contains id then .error (.notLearner id) else .ok ()
    | .setMembers members =>
      let added := members.voters.diffList voters
      let removed := voters.diffList members.voters
      if members.voters = voters ∧ members.learners = learners then .error .noChange
      else if mode = .singleServer ∧ added.length + removed.length > 1 then
        .error (.notSingleChange added.length removed.length)
      else if members.voters.toList.isEmpty then .error .wouldBeEmpty
      else match members.voters.toList.find? members.learners.contains with
        | some id => .error (.alreadyVoter id)
        | none => .ok ()

/-- `ConfigChange::apply`. -/
def apply (change : ConfigChange) (current : Configuration) (mode : MembershipMode) :
    Configuration :=
  let voters := match current with
    | .simple voters _ => voters
    | .joint _ new _ => new
  let learners := current.learnerSet
  match change with
  | .addVoter id => .simple (voters.insert id) (learners.erase id)
  | .removeVoter id => .simple (voters.erase id) learners
  | .addLearner id => .simple voters (learners.insert id)
  | .removeLearner id => .simple voters (learners.erase id)
  | .setMembers members =>
    if mode = .jointConsensus ∧ voters ≠ members.voters then
      .joint voters members.voters members.learners
    else
      .simple members.voters members.learners

end ConfigChange

/-! ## Quorums -/

namespace Configuration

theorem hasQuorum_mono {c : Configuration} {f g : NodeId → Bool}
    (h : ∀ id, f id = true → g id = true) (hf : c.hasQuorum f = true) : c.hasQuorum g = true := by
  cases c with
  | simple voters learners => exact OrdSet.majority_mono h hf
  | joint old new learners =>
    simp only [hasQuorum, Bool.and_eq_true] at hf ⊢
    exact ⟨OrdSet.majority_mono h hf.1, OrdSet.majority_mono h hf.2⟩

/-- **Two quorums of one configuration share a voter.** -/
theorem hasQuorum_inter {c : Configuration} {f g : NodeId → Bool} (hf : c.hasQuorum f = true)
    (hg : c.hasQuorum g = true) : ∃ id, c.isVoter id = true ∧ f id = true ∧ g id = true := by
  cases c with
  | simple voters learners =>
    obtain ⟨id, hid, h⟩ := OrdSet.majority_inter hf hg
    exact ⟨id, by simpa [isVoter] using hid, h⟩
  | joint old new learners =>
    simp only [hasQuorum, Bool.and_eq_true] at hf hg
    obtain ⟨id, hid, h⟩ := OrdSet.majority_inter hf.1 hg.1
    exact ⟨id, by simp [isVoter, hid], h⟩

end Configuration

/-- The voters after a validated single-server change differ from those before by at most one. -/
theorem ConfigChange.apply_adjacent {change : ConfigChange} {voters learners : OrdSet NodeId}
    (h : change.validate (.simple voters learners) .singleServer = .ok ()) :
    ∃ voters' learners', change.apply (.simple voters learners) .singleServer
      = .simple voters' learners' ∧ OrdSet.Adjacent voters voters' := by
  cases change with
  | addVoter id =>
    refine ⟨_, _, rfl, OrdSet.adjacent_insert fun hmem => ?_⟩
    simp [validate, hmem] at h
  | removeVoter id =>
    refine ⟨_, _, rfl, OrdSet.adjacent_erase ?_⟩
    by_contra hmem
    simp [validate, hmem] at h
  | addLearner id => exact ⟨_, _, rfl, .inl rfl⟩
  | removeLearner id => exact ⟨_, _, rfl, .inl rfl⟩
  | setMembers members =>
    refine ⟨members.voters, members.learners, by simp [apply], OrdSet.adjacent_of_diffList ?_⟩
    by_contra hlen
    simp only [validate, true_and] at h
    split_ifs at h
    omega

/-- **Quorums before and after a validated single-server change share a node.** -/
theorem ConfigChange.apply_hasQuorum_inter {change : ConfigChange} {current : Configuration}
    (h : change.validate current .singleServer = .ok ()) {f g : NodeId → Bool}
    (hf : current.hasQuorum f = true)
    (hg : (change.apply current .singleServer).hasQuorum g = true) :
    ∃ id, f id = true ∧ g id = true := by
  cases current with
  | joint old new learners => cases h
  | simple voters learners =>
    obtain ⟨voters', learners', happly, hadj⟩ := apply_adjacent h
    rw [happly] at hg
    obtain ⟨id, -, -, hfg⟩ := hadj.majority_inter hf hg
    exact ⟨id, hfg⟩

end Cloud9
