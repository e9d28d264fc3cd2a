import Mathlib.Logic.Relation
import Cloud9.Raft.Membership

/-!
# Chains of configurations

A cluster moves from one configuration to the next by a validated change, in either membership mode,
or by completing a joint transition. Along such a chain no voter set is ever empty and no voter is a
learner (`Configuration.WellFormed`), and the quorums of neighbours share a voter of both
(`config_chain`): two simple neighbours differ by at most one voter, and a joint configuration has
the voter sets of both its neighbours.
-/

namespace Cloud9

namespace Configuration

/-- Every voter set has a member, and the voters that a configuration leads to are not learners. -/
def WellFormed : Configuration → Prop
  | .simple voters learners => (∃ id, id ∈ voters) ∧ ∀ id ∈ voters, id ∉ learners
  | .joint old new learners =>
    (∃ id, id ∈ old) ∧ (∃ id, id ∈ new) ∧ ∀ id ∈ new, id ∉ learners

/-- One configuration follows another in the log of a cluster. -/
inductive Follows : Configuration → Configuration → Prop
  | change {current : Configuration} {change : ConfigChange} {mode : MembershipMode}
      (hvalid : change.validate current mode = .ok ()) :
      Follows current (change.apply current mode)
  | complete {current next : Configuration} (htarget : current.transitionTarget = some next) :
      Follows current next

/-- What a change can lead to: a neighbouring voter set, or a joint configuration that starts from
the current one. -/
inductive Successor (voters : OrdSet NodeId) : Configuration → Prop
  | simple {voters' learners' : OrdSet NodeId} (hadj : OrdSet.Adjacent voters voters')
      (hwf : (simple voters' learners').WellFormed) : Successor voters (.simple voters' learners')
  | joint {new learners' : OrdSet NodeId}
      (hwf : (simple new learners').WellFormed) : Successor voters (.joint voters new learners')

end Configuration

/-- A set with another number of elements than one has an element besides `id`. -/
theorem exists_ne_of_card {voters : OrdSet NodeId} {id : NodeId} (hid : id ∈ voters)
    (hcard : voters.card ≠ 1) : ∃ other, other ∈ voters.erase id := by
  by_contra hnone
  have hall : ∀ other ∈ voters.toList, other = id := by
    intro other hother
    by_contra hne
    exact hnone ⟨other, OrdSet.mem_erase.2 ⟨hother, hne⟩⟩
  have hsingle : voters.toList = List.replicate voters.toList.length id :=
    List.eq_replicate_iff.2 ⟨rfl, hall⟩
  have hnodup := voters.nodup
  rw [hsingle, List.nodup_replicate] at hnodup
  have hpos : 0 < voters.toList.length := List.length_pos_of_mem hid
  exact hcard (by unfold OrdSet.card; omega)

namespace ConfigChange

/-- A full membership set that passes its checks. -/
theorem setMembers_successor {members : Members} {voters learners : OrdSet NodeId}
    {mode : MembershipMode}
    (hvalid : (setMembers members).validate (.simple voters learners) mode = .ok ()) :
    Configuration.Successor voters ((setMembers members).apply (.simple voters learners) mode) := by
  simp only [validate] at hvalid
  split_ifs at hvalid with hsame hmany hempty
  have hwf : (Configuration.simple members.voters members.learners).WellFormed := by
    refine ⟨?_, members.disjoint⟩
    obtain ⟨id, hid⟩ := List.exists_mem_of_ne_nil members.voters.toList (by simpa using hempty)
    exact ⟨id, hid⟩
  simp only [ConfigChange.apply]
  split_ifs with hjoint
  · exact .joint hwf
  · refine .simple ?_ hwf
    by_cases hmode : mode = .singleServer
    · refine OrdSet.adjacent_of_diffList ?_
      by_contra hlen
      exact hmany ⟨hmode, by omega⟩
    · have hmode : mode = .jointConsensus := by cases mode <;> simp_all
      exact .inl (by_contra fun hne => hjoint ⟨hmode, hne⟩)

theorem apply_successor {change : ConfigChange} {voters learners : OrdSet NodeId}
    {mode : MembershipMode} (hwf : (Configuration.simple voters learners).WellFormed)
    (hvalid : change.validate (.simple voters learners) mode = .ok ()) :
    Configuration.Successor voters (change.apply (.simple voters learners) mode) := by
  obtain ⟨⟨v, hv⟩, hdisjoint⟩ := hwf
  cases change with
  | addVoter id =>
    simp only [validate] at hvalid
    split_ifs at hvalid with hvoter hlearner
    refine .simple (OrdSet.adjacent_insert (by simpa using hvoter)) ⟨⟨v, by simp [hv]⟩, ?_⟩
    intro other hother
    simp only [Configuration.learnerSet, OrdSet.mem_insert, OrdSet.mem_erase] at hother ⊢
    rcases hother with rfl | hother
    · simp
    · exact fun h => hdisjoint other hother h.1
  | removeVoter id =>
    simp only [validate] at hvalid
    split_ifs at hvalid with hvoter hcard
    have hid : id ∈ voters := by simpa using hvoter
    refine .simple (OrdSet.adjacent_erase hid) ⟨exists_ne_of_card hid hcard, ?_⟩
    exact fun other hother => hdisjoint other (OrdSet.mem_erase.1 hother).1
  | addLearner id =>
    simp only [validate] at hvalid
    split_ifs at hvalid with hvoter hlearner
    refine .simple (.inl rfl) ⟨⟨v, hv⟩, ?_⟩
    intro other hother hmem
    rcases OrdSet.mem_insert.1 hmem with rfl | hmem
    · exact hvoter (by simpa using hother)
    · exact hdisjoint other hother hmem
  | removeLearner id =>
    refine .simple (.inl rfl) ⟨⟨v, hv⟩, ?_⟩
    exact fun other hother hmem => hdisjoint other hother (OrdSet.mem_erase.1 hmem).1
  | setMembers members => exact setMembers_successor hvalid

end ConfigChange

namespace Configuration

variable {c c' : Configuration}

theorem Follows.wellFormed (h : Follows c c') (hwf : c.WellFormed) : c'.WellFormed := by
  cases h with
  | @change change mode hvalid =>
    cases c with
    | joint old new learners => cases hvalid
    | simple voters learners =>
      generalize hc : change.apply (.simple voters learners) mode = c'
      have hsucc := ConfigChange.apply_successor hwf hvalid
      rw [hc] at hsucc
      cases hsucc with
      | simple _ hwf' => exact hwf'
      | joint hwf' => exact ⟨hwf.1, hwf'⟩
  | complete htarget =>
    cases c with
    | simple voters learners => cases htarget
    | joint old new learners =>
      cases htarget
      exact hwf.2

/-- Quorums of neighbouring configurations share a voter of both. -/
theorem Follows.hasQuorum_inter (h : Follows c c') (hwf : c.WellFormed) {f g : NodeId → Bool}
    (hf : c.hasQuorum f = true) (hg : c'.hasQuorum g = true) :
    ∃ id, c.isVoter id = true ∧ c'.isVoter id = true ∧ f id = true ∧ g id = true := by
  cases h with
  | @change change mode hvalid =>
    cases c with
    | joint old new learners => cases hvalid
    | simple voters learners =>
      have hsucc := ConfigChange.apply_successor hwf hvalid
      generalize change.apply (.simple voters learners) mode = c' at hsucc hg
      cases hsucc with
      | simple hadj _ =>
        obtain ⟨id, hid, hid', hfg⟩ := hadj.majority_inter hf hg
        exact ⟨id, by simpa [isVoter] using hid, by simpa [isVoter] using hid', hfg⟩
      | joint _ =>
        simp only [hasQuorum, Bool.and_eq_true] at hg
        obtain ⟨id, hid, hfg⟩ := OrdSet.majority_inter hf hg.1
        exact ⟨id, by simpa [isVoter] using hid, by simp [isVoter, hid], hfg⟩
  | complete htarget =>
    cases c with
    | simple voters learners => cases htarget
    | joint old new learners =>
      cases htarget
      simp only [hasQuorum, Bool.and_eq_true] at hf
      obtain ⟨id, hid, hfg⟩ := OrdSet.majority_inter hf.2 hg
      exact ⟨id, by simp [isVoter, hid], by simpa [isVoter] using hid, hfg⟩

end Configuration

/-- **Membership changes keep quorums overlapping.** Every configuration of a chain is well formed,
and quorums of it and of the next one share a voter of both. -/
theorem config_chain {voters learners : OrdSet NodeId} {c : Configuration}
    (hstart : (Configuration.simple voters learners).WellFormed)
    (hchain : Relation.ReflTransGen Configuration.Follows (.simple voters learners) c) :
    c.WellFormed ∧ ∀ {c' : Configuration}, c.Follows c' → ∀ {f g : NodeId → Bool},
      c.hasQuorum f = true → c'.hasQuorum g = true →
        ∃ id, c.isVoter id = true ∧ c'.isVoter id = true ∧ f id = true ∧ g id = true := by
  have hwf : c.WellFormed := by
    induction hchain with
    | refl => exact hstart
    | tail _ hfollows ih => exact hfollows.wellFormed ih
  exact ⟨hwf, fun hfollows _ _ hf hg => hfollows.hasQuorum_inter hwf hf hg⟩

/-- Three nodes are replaced by two new ones and one that stays: a quorum of the joint configuration
and one of the last configuration meet. -/
theorem config_chain_replace :
    let old := OrdSet.ofList [0, 1, 2]
    let new := OrdSet.ofList [2, 3, 4]
    ∃ id, (Configuration.joint old new .empty).isVoter id = true ∧
      (Configuration.simple new .empty).isVoter id = true ∧
      decide (id ∈ [1, 2, 3]) = true ∧ decide (id ∈ [3, 4]) = true := by
  intro old new
  let members : Members := ⟨new, .empty, by simp⟩
  have hstart : (Configuration.simple old .empty).WellFormed := ⟨⟨0, by decide⟩, by simp⟩
  have hchange : Configuration.Follows (.simple old .empty) (.joint old new .empty) :=
    @Configuration.Follows.change _ (.setMembers members) .jointConsensus (by decide)
  exact (config_chain hstart (.single hchange)).2 (.complete rfl)
    (f := fun id => decide (id ∈ [1, 2, 3])) (g := fun id => decide (id ∈ [3, 4]))
    (by decide) (by decide)

end Cloud9
