import Mathlib.Data.List.Nodup
import Mathlib.Data.List.Range
import Mathlib.Tactic.Common

/-!
# Linearizability

A sequential object answers one operation after the other (`SeqObject`). The clients of a concurrent
implementation see a history of calls and of what became of them. The history is linearizable if
there is an order of operations, with their answers, that

* the object itself produces,
* contains every answered call, with its answer, and possibly calls that were never answered,
* contains no call that was refused,
* puts a call after every call that was answered before it began.

Services that decide on a log of updates, and answer reads from the state after a prefix of it, are
covered by one rule. `Decides` says what a log has to say about a history, and `Decides.linearizes`
that this is enough. The order is the log, with every read right after the prefix it was answered
from. A call has a *floor*: the length of what had been decided when it began.
-/

variable {σ ω ρ ι ε : Type*}

/-- An object that answers one operation at a time. -/
structure SeqObject (σ ω ρ : Type*) where
  init : σ
  step : σ → ω → σ × ρ

/-- What the clients see of a call. A refusal says that the call has no effect; nothing is known of
a call that was lost. -/
inductive ClientEvent (ι ω ρ ε : Type*) where
  | call (id : ι) (op : ω)
  | answer (id : ι) (result : ρ)
  | refuse (id : ι) (error : ε)
  | lose (id : ι) (error : ε)
  deriving DecidableEq

def ClientEvent.id : ClientEvent ι ω ρ ε → ι
  | call i _ | answer i _ | refuse i _ | lose i _ => i

/-- The events after which a call can have no other. -/
def ClientEvent.isReply : ClientEvent ι ω ρ ε → Bool
  | answer .. | refuse .. => true
  | _ => false

/-- Where a history that grows by an event can be split. -/
theorem append_singleton_eq_append {α : Type*} {l l₁ l₂ : List α} {a : α}
    (h : l ++ [a] = l₁ ++ l₂) : l₂ = [] ∨ ∃ l₂', l₂ = l₂' ++ [a] ∧ l = l₁ ++ l₂' := by
  rcases List.eq_nil_or_concat l₂ with rfl | ⟨l₂', b, rfl⟩
  · exact .inl rfl
  · rw [List.concat_eq_append, ← List.append_assoc] at h
    obtain ⟨rfl, hb⟩ := List.append_inj' h rfl
    obtain rfl := List.singleton_inj.1 hb
    exact .inr ⟨l₂', List.concat_eq_append, rfl⟩

/-- An operation that takes place, with its answer. -/
structure Performed (ι ω ρ : Type*) where
  id : ι
  op : ω
  result : ρ

namespace SeqObject

/-- The object gives these answers, one after the other. -/
def Legal (O : SeqObject σ ω ρ) : σ → List (Performed ι ω ρ) → Prop
  | _, [] => True
  | s, x :: L => x.result = (O.step s x.op).2 ∧ O.Legal (O.step s x.op).1 L

instance Legal.decidable [DecidableEq ρ] (O : SeqObject σ ω ρ) :
    ∀ (s : σ) (L : List (Performed ι ω ρ)), Decidable (O.Legal s L)
  | _, [] => .isTrue trivial
  | s, x :: L =>
    haveI := Legal.decidable O (O.step s x.op).1 L
    inferInstanceAs (Decidable (_ ∧ _))

/-- `L` is a sequential account of the history. -/
structure Linearizes (O : SeqObject σ ω ρ) (h : List (ClientEvent ι ω ρ ε))
    (L : List (Performed ι ω ρ)) : Prop where
  nodup : (L.map Performed.id).Nodup
  called : ∀ x ∈ L, .call x.id x.op ∈ h
  answered : ∀ {i r}, .answer i r ∈ h → ∃ x ∈ L, x.id = i ∧ x.result = r
  refused : ∀ {i e}, .refuse i e ∈ h → ∀ x ∈ L, x.id ≠ i
  legal : O.Legal O.init L
  /-- A call that was answered before another one began comes before it. -/
  order : ∀ {h₁ h₂ i j r o}, h = h₁ ++ h₂ → .answer i r ∈ h₁ → .call j o ∈ h₂ →
    j ∈ L.map Performed.id →
    ∃ L₁ L₂, L = L₁ ++ L₂ ∧ i ∈ L₁.map Performed.id ∧ j ∈ L₂.map Performed.id

def Linearizable (O : SeqObject σ ω ρ) (h : List (ClientEvent ι ω ρ ε)) : Prop :=
  ∃ L, O.Linearizes h L

end SeqObject

/-! ## A decided log -/

/-- A read, with the length of the prefix it is answered from. -/
structure ReadPoint (ι ω : Type*) where
  id : ι
  op : ω
  pos : ℕ

/-- What a log of `n` places has to say about a history: `update k` is the operation at place `k`,
if there is one, and `state k` the state before it. -/
structure Decides (O : SeqObject σ ω ρ) (h : List (ClientEvent ι ω ρ ε)) (n : ℕ) (state : ℕ → σ)
    (update : ℕ → Option (ι × ω)) (reads : List (ReadPoint ι ω)) (floor : ι → ℕ) : Prop where
  init : state 0 = O.init
  quiet : ∀ {k}, k < n → update k = none → state (k + 1) = state k
  next : ∀ {k u}, k < n → update k = some u → state (k + 1) = (O.step (state k) u.2).1
  read_le : ∀ x ∈ reads, x.pos ≤ n
  read_only : ∀ x ∈ reads, (O.step (state x.pos) x.op).1 = state x.pos
  update_inj : ∀ {k l u v}, k < n → l < n → update k = some u → update l = some v →
    u.1 = v.1 → k = l
  read_nodup : (reads.map ReadPoint.id).Nodup
  disjoint : ∀ {k u}, k < n → update k = some u → ∀ x ∈ reads, x.id ≠ u.1
  update_called : ∀ {k u}, k < n → update k = some u → .call u.1 u.2 ∈ h
  read_called : ∀ x ∈ reads, .call x.id x.op ∈ h
  answered : ∀ {i r}, .answer i r ∈ h →
    (∃ k u, k < n ∧ update k = some u ∧ u.1 = i ∧ r = (O.step (state k) u.2).2) ∨
    ∃ x ∈ reads, x.id = i ∧ r = (O.step (state x.pos) x.op).2
  refused : ∀ {i e}, .refuse i e ∈ h →
    (∀ {k u}, k < n → update k = some u → u.1 ≠ i) ∧ ∀ x ∈ reads, x.id ≠ i
  floor_update : ∀ {k u}, k < n → update k = some u → floor u.1 ≤ k
  floor_read : ∀ x ∈ reads, floor x.id < x.pos
  order : ∀ {h₁ h₂ i j r o}, h = h₁ ++ h₂ → .answer i r ∈ h₁ → .call j o ∈ h₂ →
    (∀ {k u}, k < n → update k = some u → u.1 = i → k < floor j) ∧
    ∀ x ∈ reads, x.id = i → x.pos ≤ floor j

section

variable (O : SeqObject σ ω ρ) (state : ℕ → σ) (update : ℕ → Option (ι × ω))
  (reads : List (ReadPoint ι ω))

/-- The reads that are answered from the first `k` places. -/
def readsAt (k : ℕ) : List (Performed ι ω ρ) :=
  (reads.filter fun x => x.pos = k).map fun x => ⟨x.id, x.op, (O.step (state k) x.op).2⟩

def updateAt (k : ℕ) : List (Performed ι ω ρ) :=
  (update k).toList.map fun u => ⟨u.1, u.2, (O.step (state k) u.2).2⟩

/-- The places `a` to `a + m - 1`, each with the reads before it. -/
def blocks (a m : ℕ) : List (Performed ι ω ρ) :=
  (List.range' a m).flatMap fun k => readsAt O state reads k ++ updateAt O state update k

/-- The order that a log gives. -/
def linearOrder (n : ℕ) : List (Performed ι ω ρ) :=
  blocks O state update reads 0 n ++ readsAt O state reads n

variable {O state update reads}

theorem mem_readsAt {k : ℕ} {y : Performed ι ω ρ} : y ∈ readsAt O state reads k ↔
    ∃ x ∈ reads, x.pos = k ∧ y = ⟨x.id, x.op, (O.step (state x.pos) x.op).2⟩ := by
  simp only [readsAt, List.mem_map, List.mem_filter, decide_eq_true_eq]
  constructor
  · rintro ⟨x, ⟨hx, rfl⟩, rfl⟩
    exact ⟨x, hx, rfl, rfl⟩
  · rintro ⟨x, hx, rfl, rfl⟩
    exact ⟨x, ⟨hx, rfl⟩, rfl⟩

theorem mem_updateAt {k : ℕ} {y : Performed ι ω ρ} : y ∈ updateAt O state update k ↔
    ∃ u, update k = some u ∧ y = ⟨u.1, u.2, (O.step (state k) u.2).2⟩ := by
  simp only [updateAt, List.mem_map, Option.mem_toList]
  exact ⟨fun ⟨u, hu, hy⟩ => ⟨u, hu, hy.symm⟩, fun ⟨u, hu, hy⟩ => ⟨u, hu, hy.symm⟩⟩

theorem mem_blocks {a m : ℕ} {y : Performed ι ω ρ} : y ∈ blocks O state update reads a m ↔
    ∃ k, a ≤ k ∧ k < a + m ∧ (y ∈ readsAt O state reads k ∨ y ∈ updateAt O state update k) := by
  simp only [blocks, List.mem_flatMap, List.mem_range'_1, List.mem_append, and_assoc]

theorem blocks_split {n k : ℕ} (hk : k ≤ n) : blocks O state update reads 0 n =
    blocks O state update reads 0 k ++ blocks O state update reads k (n - k) := by
  have hrange := List.range'_append_1 (s := 0) (m := k) (n := n - k)
  rw [Nat.zero_add, Nat.add_sub_cancel' hk] at hrange
  rw [blocks, blocks, blocks, ← hrange, List.flatMap_append]

theorem blocks_succ (a m : ℕ) : blocks O state update reads a (m + 1) =
    readsAt O state reads a ++ (updateAt O state update a ++
      blocks O state update reads (a + 1) m) := by
  rw [blocks, List.range'_succ, List.flatMap_cons, List.append_assoc]
  rfl

end

namespace Decides

variable {O : SeqObject σ ω ρ} {h : List (ClientEvent ι ω ρ ε)} {n : ℕ} {state : ℕ → σ}
  {update : ℕ → Option (ι × ω)} {reads : List (ReadPoint ι ω)} {floor : ι → ℕ}
  (hd : Decides O h n state update reads floor)
include hd

/-! ## The answers are the object's -/

theorem legal_readsAt (k : ℕ) {L : List (Performed ι ω ρ)} (hL : O.Legal (state k) L) :
    O.Legal (state k) (readsAt O state reads k ++ L) := by
  have hall : ∀ y ∈ readsAt O state reads k, y.result = (O.step (state k) y.op).2 ∧
      (O.step (state k) y.op).1 = state k := by
    intro y hy
    obtain ⟨x, hx, rfl, rfl⟩ := mem_readsAt.1 hy
    exact ⟨rfl, hd.read_only x hx⟩
  generalize readsAt O state reads k = R at hall
  induction R with
  | nil => exact hL
  | cons y R ih =>
    obtain ⟨hresult, hstate⟩ := hall y List.mem_cons_self
    refine ⟨hresult, ?_⟩
    rw [hstate]
    exact ih fun z hz => hall z (List.mem_cons_of_mem _ hz)

theorem legal_updateAt {k : ℕ} (hk : k < n) {L : List (Performed ι ω ρ)}
    (hL : O.Legal (state (k + 1)) L) : O.Legal (state k) (updateAt O state update k ++ L) := by
  cases hu : update k with
  | none =>
    rw [hd.quiet hk hu] at hL
    simpa [updateAt, hu] using hL
  | some u =>
    rw [hd.next hk hu] at hL
    simp only [updateAt, hu, Option.toList_some, List.map_cons, List.map_nil, List.singleton_append]
    exact ⟨rfl, hL⟩

theorem legal_blocks {m : ℕ} : ∀ {a : ℕ} {L : List (Performed ι ω ρ)}, a + m ≤ n →
    O.Legal (state (a + m)) L → O.Legal (state a) (blocks O state update reads a m ++ L) := by
  induction m with
  | zero =>
    intro a L _ hL
    exact hL
  | succ m ih =>
    intro a L ha hL
    rw [blocks_succ, List.append_assoc, List.append_assoc]
    refine hd.legal_readsAt a (hd.legal_updateAt (by omega) (ih (by omega) ?_))
    rwa [show a + 1 + m = a + (m + 1) by omega]

theorem legal : O.Legal O.init (linearOrder O state update reads n) := by
  rw [← hd.init, linearOrder]
  refine hd.legal_blocks (Nat.zero_add n).le ?_
  have hend := hd.legal_readsAt n (L := []) trivial
  rw [List.append_nil] at hend
  rwa [Nat.zero_add]

/-! ## Which operations take place -/

theorem mem_linearOrder {y : Performed ι ω ρ} : y ∈ linearOrder O state update reads n ↔
    (∃ k u, k < n ∧ update k = some u ∧ y = ⟨u.1, u.2, (O.step (state k) u.2).2⟩) ∨
    ∃ x ∈ reads, y = ⟨x.id, x.op, (O.step (state x.pos) x.op).2⟩ := by
  simp only [linearOrder, List.mem_append, mem_blocks, mem_readsAt, mem_updateAt]
  constructor
  · rintro (⟨k, -, hk, ⟨x, hx, -, rfl⟩ | ⟨u, hu, rfl⟩⟩ | ⟨x, hx, -, rfl⟩)
    · exact .inr ⟨x, hx, rfl⟩
    · exact .inl ⟨k, u, by omega, hu, rfl⟩
    · exact .inr ⟨x, hx, rfl⟩
  · rintro (⟨k, u, hk, hu, rfl⟩ | ⟨x, hx, rfl⟩)
    · exact .inl ⟨k, Nat.zero_le k, by omega, .inr ⟨u, hu, rfl⟩⟩
    · rcases (hd.read_le x hx).lt_or_eq with hlt | heq
      · exact .inl ⟨x.pos, Nat.zero_le _, by omega, .inl ⟨x, hx, rfl, rfl⟩⟩
      · exact .inr ⟨x, hx, heq, rfl⟩

theorem nodup_readsAt (k : ℕ) : ((readsAt O state reads k).map Performed.id).Nodup := by
  rw [readsAt, List.map_map]
  exact (List.filter_sublist.map ReadPoint.id).nodup hd.read_nodup

/-- A read is in one block. -/
theorem readsAt_disjoint {k l : ℕ} (hkl : k ≠ l) :
    List.Disjoint ((readsAt O state reads k).map Performed.id)
      ((readsAt O state reads l).map Performed.id) := by
  intro i hk hl
  obtain ⟨y, hy, rfl⟩ := List.mem_map.1 hk
  obtain ⟨z, hz, hid⟩ := List.mem_map.1 hl
  obtain ⟨x, hx, rfl, rfl⟩ := mem_readsAt.1 hy
  obtain ⟨x', hx', rfl, rfl⟩ := mem_readsAt.1 hz
  exact hkl (congrArg ReadPoint.pos (List.inj_on_of_nodup_map hd.read_nodup hx' hx hid)).symm

theorem readsAt_updateAt_disjoint (k : ℕ) {l : ℕ} (hl : l < n) :
    List.Disjoint ((readsAt O state reads k).map Performed.id)
      ((updateAt O state update l).map Performed.id) := by
  intro i hr hu
  obtain ⟨y, hy, rfl⟩ := List.mem_map.1 hr
  obtain ⟨z, hz, hid⟩ := List.mem_map.1 hu
  obtain ⟨x, hx, -, rfl⟩ := mem_readsAt.1 hy
  obtain ⟨u, hu, rfl⟩ := mem_updateAt.1 hz
  exact hd.disjoint hl hu x hx hid.symm

theorem updateAt_disjoint {k l : ℕ} (hk : k < n) (hl : l < n) (hkl : k ≠ l) :
    List.Disjoint ((updateAt O state update k).map Performed.id)
      ((updateAt O state update l).map Performed.id) := by
  intro i hi hj
  obtain ⟨y, hy, rfl⟩ := List.mem_map.1 hi
  obtain ⟨z, hz, hid⟩ := List.mem_map.1 hj
  obtain ⟨u, hu, rfl⟩ := mem_updateAt.1 hy
  obtain ⟨v, hv, rfl⟩ := mem_updateAt.1 hz
  exact hkl (hd.update_inj hk hl hu hv hid.symm)

theorem nodup_block {k : ℕ} (hk : k < n) :
    ((readsAt O state reads k ++ updateAt O state update k).map Performed.id).Nodup := by
  rw [List.map_append]
  refine (hd.nodup_readsAt k).append ?_ (hd.readsAt_updateAt_disjoint k hk)
  cases hu : update k <;> simp [updateAt, hu]

theorem block_disjoint {k l : ℕ} (hk : k < n) (hl : l < n) (hkl : k ≠ l) :
    List.Disjoint ((readsAt O state reads k ++ updateAt O state update k).map Performed.id)
      ((readsAt O state reads l ++ updateAt O state update l).map Performed.id) := by
  simp only [List.map_append, List.disjoint_append_left, List.disjoint_append_right]
  exact ⟨⟨hd.readsAt_disjoint hkl, fun _ hu hr => hd.readsAt_updateAt_disjoint l hk hr hu⟩,
    hd.readsAt_updateAt_disjoint k hl, hd.updateAt_disjoint hk hl hkl⟩

theorem nodup_blocks : ((blocks O state update reads 0 n).map Performed.id).Nodup := by
  rw [blocks, List.map_flatMap, List.nodup_flatMap]
  refine ⟨fun k hk => hd.nodup_block (by simpa using hk), ?_⟩
  exact (List.nodup_range' ..).pairwise_of_forall_ne fun k hk l hl hkl =>
    hd.block_disjoint (by simpa using hk) (by simpa using hl) hkl

theorem nodup_linearOrder : ((linearOrder O state update reads n).map Performed.id).Nodup := by
  rw [linearOrder, List.map_append]
  refine hd.nodup_blocks.append (hd.nodup_readsAt n) fun i hi hn => ?_
  obtain ⟨y, hy, rfl⟩ := List.mem_map.1 hi
  obtain ⟨k, -, hk, hblock⟩ := mem_blocks.1 hy
  have hk : k < n := by omega
  rcases hblock with hread | hupdate
  · exact hd.readsAt_disjoint hk.ne (List.mem_map_of_mem hread) hn
  · exact hd.readsAt_updateAt_disjoint n hk hn (List.mem_map_of_mem hupdate)

/-! ## The order of calls -/

/-- Everything below a floor comes before every call with this floor. -/
theorem split_at_floor {i j : ι} (hj : j ∈ (linearOrder O state update reads n).map Performed.id)
    (hi : (∃ k u, k < n ∧ update k = some u ∧ u.1 = i ∧ k < floor j) ∨
      ∃ x ∈ reads, x.id = i ∧ x.pos ≤ floor j) :
    ∃ L₁ L₂, linearOrder O state update reads n = L₁ ++ L₂ ∧ i ∈ L₁.map Performed.id ∧
      j ∈ L₂.map Performed.id := by
  obtain ⟨y, hy, rfl⟩ := List.mem_map.1 hj
  -- The call does not take place before its floor.
  have hfloor : floor y.id < n := by
    rcases hd.mem_linearOrder.1 hy with ⟨k, u, hk, hu, rfl⟩ | ⟨x, hx, rfl⟩
    · exact (hd.floor_update hk hu).trans_lt hk
    · exact (hd.floor_read x hx).trans_le (hd.read_le x hx)
  set m := floor y.id with hm
  have hsplit : linearOrder O state update reads n =
      (blocks O state update reads 0 m ++ readsAt O state reads m) ++
        (updateAt O state update m ++ (blocks O state update reads (m + 1) (n - m - 1) ++
          readsAt O state reads n)) := by
    obtain ⟨d, hd⟩ : ∃ d, n - m = d + 1 := ⟨n - m - 1, by omega⟩
    rw [linearOrder, blocks_split hfloor.le, hd, blocks_succ, Nat.add_sub_cancel]
    simp only [List.append_assoc]
  refine ⟨_, _, hsplit, ?_, List.mem_map_of_mem ?_⟩
  · rcases hi with ⟨k, u, -, hu, rfl, hkm⟩ | ⟨x, hx, rfl, hxm⟩
    · exact List.mem_map_of_mem (f := Performed.id) (List.mem_append_left _ (mem_blocks.2
        ⟨k, Nat.zero_le k, by omega, .inr (mem_updateAt.2 ⟨u, hu, rfl⟩)⟩))
    · have hread : (⟨x.id, x.op, (O.step (state x.pos) x.op).2⟩ : Performed ι ω ρ) ∈
          readsAt O state reads x.pos := mem_readsAt.2 ⟨x, hx, rfl, rfl⟩
      have hmem : (⟨x.id, x.op, (O.step (state x.pos) x.op).2⟩ : Performed ι ω ρ) ∈
          blocks O state update reads 0 m ++ readsAt O state reads m := by
        rcases hxm.lt_or_eq with hlt | heq
        · exact List.mem_append_left _ (mem_blocks.2
            ⟨x.pos, Nat.zero_le _, by omega, .inl hread⟩)
        · exact List.mem_append_right _ (heq ▸ hread)
      exact List.mem_map_of_mem hmem
  · rcases hd.mem_linearOrder.1 hy with ⟨k, u, hk, hu, hyu⟩ | ⟨x, hx, hyx⟩
    · have hmk : m ≤ k := by
        rw [hm, hyu]
        exact hd.floor_update hk hu
      have hupdate : y ∈ updateAt O state update k := mem_updateAt.2 ⟨u, hu, hyu⟩
      rcases hmk.lt_or_eq with hlt | rfl
      · exact List.mem_append_right _ (List.mem_append_left _ (mem_blocks.2
          ⟨k, hlt, by omega, .inr hupdate⟩))
      · exact List.mem_append_left _ hupdate
    · have hmx : m < x.pos := by
        rw [hm, hyx]
        exact hd.floor_read x hx
      have hread : y ∈ readsAt O state reads x.pos := mem_readsAt.2 ⟨x, hx, rfl, hyx⟩
      rcases (hd.read_le x hx).lt_or_eq with hlt | heq
      · exact List.mem_append_right _ (List.mem_append_left _ (mem_blocks.2
          ⟨x.pos, hmx, by omega, .inl hread⟩))
      · rw [heq] at hread
        exact List.mem_append_right _ (List.mem_append_right _ hread)

/-- **A decided log makes a history linearizable.** -/
theorem linearizes : O.Linearizes h (linearOrder O state update reads n) where
  nodup := hd.nodup_linearOrder
  called y hy := by
    rcases hd.mem_linearOrder.1 hy with ⟨k, u, hk, hu, rfl⟩ | ⟨x, hx, rfl⟩
    · exact hd.update_called hk hu
    · exact hd.read_called x hx
  answered hans := by
    rcases hd.answered hans with ⟨k, u, hk, hu, rfl, rfl⟩ | ⟨x, hx, rfl, rfl⟩
    · exact ⟨_, hd.mem_linearOrder.2 (.inl ⟨k, u, hk, hu, rfl⟩), rfl, rfl⟩
    · exact ⟨_, hd.mem_linearOrder.2 (.inr ⟨x, hx, rfl⟩), rfl, rfl⟩
  refused href y hy := by
    obtain ⟨hupdate, hread⟩ := hd.refused href
    rcases hd.mem_linearOrder.1 hy with ⟨k, u, hk, hu, rfl⟩ | ⟨x, hx, rfl⟩
    · exact hupdate hk hu
    · exact hread x hx
  legal := hd.legal
  order hh hans hcall hj := by
    subst hh
    obtain ⟨hupdate, hread⟩ := hd.order rfl hans hcall
    refine hd.split_at_floor hj ?_
    rcases hd.answered (List.mem_append_left _ hans) with ⟨k, u, hk, hu, hid, -⟩ | ⟨x, hx, hid, -⟩
    · exact .inl ⟨k, u, hk, hu, hid, hupdate hk hu hid⟩
    · exact .inr ⟨x, hx, hid, hread x hx hid⟩

end Decides

/-! ## One call at a time -/

section Sequential

/-- Every call is answered before the next one begins. -/
def sequential (L : List (Performed ι ω ρ)) : List (ClientEvent ι ω ρ ε) :=
  L.flatMap fun x => [.call x.id x.op, .answer x.id x.result]

variable {L L' : List (Performed ι ω ρ)}

theorem call_mem_sequential {i : ι} {o : ω} :
    (.call i o : ClientEvent ι ω ρ ε) ∈ sequential L ↔ ∃ x ∈ L, x.id = i ∧ x.op = o := by
  simp only [sequential, List.mem_flatMap, List.mem_cons, ClientEvent.call.injEq, reduceCtorEq,
    List.not_mem_nil, or_false, @eq_comm _ i, @eq_comm _ o]

theorem answer_mem_sequential {i : ι} {r : ρ} :
    (.answer i r : ClientEvent ι ω ρ ε) ∈ sequential L ↔ ∃ x ∈ L, x.id = i ∧ x.result = r := by
  simp only [sequential, List.mem_flatMap, List.mem_cons, ClientEvent.answer.injEq, reduceCtorEq,
    List.not_mem_nil, or_false, false_or, @eq_comm _ i, @eq_comm _ r]

/-- One part of the order is before the other. -/
def Before (L : List (Performed ι ω ρ)) (x y : Performed ι ω ρ) : Prop :=
  ∃ L₁ L₂, L = L₁ ++ L₂ ∧ x.id ∈ L₁.map Performed.id ∧ y.id ∈ L₂.map Performed.id

theorem Before.asymm (hnodup : (L.map Performed.id).Nodup) {x y : Performed ι ω ρ}
    (hxy : Before L x y) : ¬ Before L y x := by
  rintro ⟨J₁, J₂, hJ, hy, hx⟩
  obtain ⟨K₁, K₂, rfl, hx', hy'⟩ := hxy
  rw [List.map_append, List.nodup_append] at hnodup
  rcases List.append_eq_append_iff.1 hJ with ⟨M, rfl, rfl⟩ | ⟨M, rfl, rfl⟩
  · exact hnodup.2.2 _ hx' _ (by rw [List.map_append]; exact List.mem_append_right _ hx) rfl
  · exact hnodup.2.2 _ (by rw [List.map_append]; exact List.mem_append_left _ hy) _ hy' rfl

/-- **A sequential history has no other order than its own.** -/
theorem SeqObject.Linearizes.eq_of_sequential {O : SeqObject σ ω ρ}
    (h : O.Linearizes (sequential L : List (ClientEvent ι ω ρ ε)) L')
    (hnodup : (L.map Performed.id).Nodup) : L' = L := by
  have hsub : ∀ y ∈ L', y ∈ L := fun y hy => by
    obtain ⟨x, hx, hid, hop⟩ := call_mem_sequential.1 (h.called y hy)
    obtain ⟨z, hz, hzid, hzresult⟩ := h.answered (answer_mem_sequential.2 ⟨x, hx, rfl, rfl⟩)
    obtain rfl := List.inj_on_of_nodup_map h.nodup hz hy (hzid.trans hid)
    have hxz : x = z := by
      obtain ⟨i, o, r⟩ := x
      obtain ⟨j, o', r'⟩ := z
      obtain ⟨rfl, rfl, rfl⟩ : i = j ∧ o = o' ∧ r' = r := ⟨hid, hop, hzresult⟩
      rfl
    exact hxz ▸ hx
  have hsup : ∀ x ∈ L, x ∈ L' := fun x hx => by
    obtain ⟨y, hy, hid, -⟩ := h.answered (answer_mem_sequential.2 ⟨x, hx, rfl, rfl⟩)
    exact List.inj_on_of_nodup_map hnodup (hsub y hy) hx hid ▸ hy
  have hperm : L'.Perm L := (List.perm_ext_iff_of_nodup h.nodup.of_map hnodup.of_map).2
    fun y => ⟨hsub y, hsup y⟩
  have hanti : ∀ x y, x ∈ L' → y ∈ L → Before L' x y → Before L' y x → x = y :=
    fun x y _ _ hxy hyx => absurd hyx (hxy.asymm h.nodup)
  refine hperm.eq_of_pairwise hanti ?_ ?_
  · refine List.pairwise_iff_getElem.2 fun i j hi hj hij => ?_
    refine ⟨L'.take j, L'.drop j, (List.take_append_drop j L').symm, ?_, ?_⟩
    · exact List.mem_map_of_mem (List.mem_take_iff_getElem.2 ⟨i, by omega, rfl⟩)
    · exact List.mem_map_of_mem (List.mem_drop_iff_getElem.2 ⟨0, by omega, rfl⟩)
  · refine List.pairwise_iff_getElem.2 fun i j hi hj hij => ?_
    have hsplit : (sequential L : List (ClientEvent ι ω ρ ε)) =
        sequential (L.take j) ++ sequential (L.drop j) := by
      rw [sequential, sequential, sequential, ← List.flatMap_append, List.take_append_drop]
    refine h.order hsplit (answer_mem_sequential.2 ⟨L[i], ?_, rfl, rfl⟩)
      (call_mem_sequential.2 ⟨L[j], ?_, rfl, rfl⟩) (List.mem_map_of_mem (hsup _ (L.getElem_mem hj)))
    · exact List.mem_take_iff_getElem.2 ⟨i, by omega, rfl⟩
    · exact List.mem_drop_iff_getElem.2 ⟨0, by omega, rfl⟩

theorem SeqObject.Linearizable.legal_of_sequential {O : SeqObject σ ω ρ}
    (h : O.Linearizable (sequential L : List (ClientEvent ι ω ρ ε)))
    (hnodup : (L.map Performed.id).Nodup) : O.Legal O.init L := by
  obtain ⟨L', hL⟩ := h
  exact hL.eq_of_sequential hnodup ▸ hL.legal

end Sequential
