import Mathlib.Data.Set.Basic
import Mathlib.Logic.Function.Basic
import Mathlib.Order.Interval.Set.Basic
import Cloud9.Lib.ListPrefix

/-!
# Replicated logs with elected leaders

The history of a replicated log, without messages: who voted for whom in which term, which log
each candidate stood with, and, for every term that has a leader, the log the leader started from
(`base`) and has written since (`tlog`). Nodes, entries and quorums are arbitrary; a quorum may
depend on the log it is counted in, and only configuration entries change it.

`World.Inv` is the invariant and the theorems `Inv.adopt`, `Inv.campaign`, `Inv.castVote`,
`Inv.win`, `Inv.append` and `Inv.accept` say that it survives every action. Its two central
fields are about acknowledgements. `keep`: a node still holds what it acknowledged, as long as
every leader it has followed since held it too. `hand`: a candidate holds what its voters
acknowledged, under the same proviso. What follows from the invariant (leader completeness, one
leader a term, agreement on committed entries) is in `Cloud9.Lib.Completeness`.
-/

/-- What a replicated log is made of. -/
structure LogSystem (N E : Type*) where
  term : E → ℕ
  isConfig : E → Prop
  /-- The vote sets that decide, counted in the configuration of a log. -/
  quorum : List E → Set N → Prop
  meet : ∀ {l : List E} {Q Q' : Set N}, quorum l Q → quorum l Q' → (Q ∩ Q').Nonempty
  quorum_concat : ∀ {l : List E} {e : E} {Q : Set N}, ¬isConfig e →
    (quorum (l ++ [e]) Q ↔ quorum l Q)

/-- The history of a replicated log. -/
@[ext]
structure World (N E : Type*) where
  /-- Current term of a node. -/
  cur : N → ℕ
  log : N → List E
  /-- Whom a node voted for in a term. -/
  vote : N → ℕ → Option N
  /-- The log a node stood for election with in a term. -/
  cand : N → ℕ → Option (List E)
  leader : ℕ → Option N
  /-- The voters that elected the leader of a term. -/
  elect : ℕ → Set N
  /-- The log the leader of a term started from. -/
  base : ℕ → List E
  /-- The log of the leader of a term. -/
  tlog : ℕ → List E
  /-- How much of the log of a term a node has acknowledged. -/
  ack : N → ℕ → ℕ

namespace World

variable {N E : Type*} (S : LogSystem N E)

/-- Every entry of the log stands where the leader of its term put it, after the same entries. -/
def Rooted (w : World N E) (l : List E) : Prop :=
  ∀ i e, l[i]? = some e → l.take (i + 1) <+: w.tlog (S.term e)

/-- The term of the last entry. -/
def lastTerm (l : List E) : ℕ := (l.getLast?.map S.term).getD 0

/-- A log that ends in `theirs` may be voted for by a node that holds `mine`. -/
def UpToDate (mine theirs : List E) : Prop :=
  lastTerm S mine < lastTerm S theirs ∨
    lastTerm S mine = lastTerm S theirs ∧ mine.length ≤ theirs.length

/-- Entries `1` to `i` of the log of term `T` were acknowledged by a quorum, counted in the
configuration of the first `m` entries. -/
structure Chosen (w : World N E) (T i m : ℕ) : Prop where
  own : (w.base T).length < i
  le : i ≤ m
  length : m ≤ (w.tlog T).length
  quorum : ∃ Q, S.quorum ((w.tlog T).take m) Q ∧ ∀ v ∈ Q, i ≤ w.ack v T

/-- The leaders of the terms in `I` started from a log that extends `l`. -/
def Carried (w : World N E) (I : Set ℕ) (l : List E) : Prop :=
  ∀ T ∈ I, w.leader T ≠ none → l <+: w.base T

structure Inv (w : World N E) : Prop where
  vote_le : ∀ {v T c}, w.vote v T = some c → T ≤ w.cur v
  vote_cand : ∀ {v T c}, w.vote v T = some c → ∃ B, w.cand c T = some B
  cand_pos : ∀ {c T B}, w.cand c T = some B → 0 < T
  cand_le : ∀ {c T B}, w.cand c T = some B → T ≤ w.cur c
  cand_lt : ∀ {c T B}, w.cand c T = some B → ∀ e ∈ B, S.term e < T
  cand_rooted : ∀ {c T B}, w.cand c T = some B → Rooted S w B
  leader_cand : ∀ {x T}, w.leader T = some x → w.cand x T = some (w.base T)
  leader_quorum : ∀ {x T}, w.leader T = some x →
    S.quorum (w.base T) (w.elect T) ∧ ∀ v ∈ w.elect T, w.vote v T = some x
  leader_none : ∀ {T}, w.leader T = none → w.tlog T = []
  base_prefix : ∀ T, w.base T <+: w.tlog T
  own : ∀ {T i e}, (w.tlog T)[i]? = some e → (w.base T).length ≤ i → S.term e = T
  log_rooted : ∀ v, Rooted S w (w.log v)
  log_le : ∀ v, ∀ e ∈ w.log v, S.term e ≤ w.cur v
  held : ∀ {x T}, w.leader T = some x → w.cur x = T → w.log x = w.tlog T
  ack_le : ∀ {v T}, 0 < w.ack v T → T ≤ w.cur v
  ack_length : ∀ v T, w.ack v T ≤ (w.tlog T).length
  /-- A node still holds what it acknowledged. -/
  keep : ∀ {v T i}, i ≤ w.ack v T → w.Carried (Set.Ioc T (w.cur v)) ((w.tlog T).take i) →
    (w.tlog T).take i <+: w.log v
  /-- A candidate holds what its voters acknowledged. -/
  hand : ∀ {v T' c B T i}, w.vote v T' = some c → w.cand c T' = some B → T < T' →
    (w.base T).length < i → i ≤ w.ack v T →
    (w.leader T' = none ∨ v ∈ w.elect T' ∨ (w.tlog T).take i <+: w.base T') →
    w.Carried (Set.Ioo T T') ((w.tlog T).take i) → (w.tlog T).take i <+: B
  /-- A configuration entry was appended over an acknowledged entry of its own term, with no
  other configuration entry in between. -/
  config : ∀ {T k e}, (w.tlog T)[k]? = some e → (w.base T).length ≤ k → S.isConfig e →
    ∃ c, w.Chosen S T c k ∧ ∀ j e', c ≤ j → j < k → (w.tlog T)[j]? = some e' → ¬S.isConfig e'
  /-- Consecutive configurations have meeting quorums. -/
  adjacent : ∀ {T k e Q Q'}, (w.tlog T)[k]? = some e → (w.base T).length ≤ k →
    S.quorum ((w.tlog T).take k) Q → S.quorum ((w.tlog T).take (k + 1)) Q' → (Q ∩ Q').Nonempty

/-- `w'` is a later state of the history `w`. -/
structure Le (w w' : World N E) : Prop where
  cur : ∀ v, w.cur v ≤ w'.cur v
  vote : ∀ {v T c}, w.vote v T = some c → w'.vote v T = some c
  cand : ∀ {c T B}, w.cand c T = some B → w'.cand c T = some B
  leader : ∀ {T x}, w.leader T = some x → w'.leader T = some x
  base : ∀ {T}, w.leader T ≠ none → w'.base T = w.base T
  tlog : ∀ T, w.tlog T <+: w'.tlog T
  ack : ∀ v T, w.ack v T ≤ w'.ack v T

theorem Le.refl (w : World N E) : w.Le w :=
  ⟨fun _ => le_rfl, id, id, id, fun _ => rfl, fun _ => List.prefix_rfl, fun _ _ => le_rfl⟩

theorem Le.trans {w w' w'' : World N E} (h : w.Le w') (h' : w'.Le w'') : w.Le w'' where
  cur v := (h.cur v).trans (h'.cur v)
  vote hv := h'.vote (h.vote hv)
  cand hc := h'.cand (h.cand hc)
  leader hl := h'.leader (h.leader hl)
  base {T} hl := by
    obtain ⟨x, hx⟩ := Option.ne_none_iff_exists'.1 hl
    rw [h'.base (by rw [h.leader hx]; exact Option.some_ne_none x), h.base hl]
  tlog T := (h.tlog T).trans (h'.tlog T)
  ack v T := (h.ack v T).trans (h'.ack v T)

theorem Rooted.mono {w w' : World N E} {l : List E} (h : Rooted S w l)
    (hle : ∀ T, w.tlog T <+: w'.tlog T) : Rooted S w' l := fun i e hi =>
  (h i e hi).trans (hle _)

theorem Rooted.of_isPrefix {w : World N E} {l l' : List E} (h : Rooted S w l') (hp : l <+: l') :
    Rooted S w l := by
  intro i e hi
  have := h i e (hp.getElem?_eq_some hi)
  rwa [hp.take_eq (List.getElem?_eq_some_iff.1 hi).1] at this

/-- Up to any of its entries, a rooted log is the log of that entry's leader. -/
theorem Rooted.take_tlog {S : LogSystem N E} {w : World N E} {l : List E} (h : Rooted S w l)
    {k n : ℕ} {e : E} (hk : l[k]? = some e) (hn : n ≤ k + 1) :
    (w.tlog (S.term e)).take n = l.take n := by
  rw [(h k e hk).take_eq (by rw [List.getElem?_last_of_take hk]; exact hn), List.take_take,
    min_eq_left hn]

theorem Rooted.getElem?_tlog {S : LogSystem N E} {w : World N E} {l : List E} (h : Rooted S w l)
    {k j : ℕ} {e : E} (hk : l[k]? = some e) (hj : j ≤ k) : (w.tlog (S.term e))[j]? = l[j]? := by
  rw [← List.getElem?_take_of_lt (Nat.lt_succ_of_le hj), h.take_tlog hk le_rfl,
    List.getElem?_take_of_lt (Nat.lt_succ_of_le hj)]

theorem Carried.mono {w : World N E} {I J : Set ℕ} {l : List E} (h : w.Carried J l) (hIJ : I ⊆ J) :
    w.Carried I l := fun T hT => h T (hIJ hT)

/-! ## Terms of entries -/

section Terms

variable {S} {w : World N E} (h : w.Inv S)
include h

theorem Inv.leader_of_tlog {T i : ℕ} {e : E} (hi : (w.tlog T)[i]? = some e) :
    ∃ x, w.leader T = some x := by
  by_contra hnone
  rw [← Option.ne_none_iff_exists', not_not] at hnone
  rw [h.leader_none hnone] at hi
  simp at hi

theorem Inv.term_base_lt {T i : ℕ} {e : E} (hi : (w.base T)[i]? = some e) : S.term e < T := by
  obtain ⟨x, hx⟩ := h.leader_of_tlog ((h.base_prefix T).getElem?_eq_some hi)
  exact h.cand_lt (h.leader_cand hx) e (List.mem_of_getElem? hi)

theorem Inv.term_tlog_le {T i : ℕ} {e : E} (hi : (w.tlog T)[i]? = some e) : S.term e ≤ T := by
  rcases Nat.lt_or_ge i (w.base T).length with hlt | hge
  · have hb : (w.base T)[i]? = some e := by
      obtain ⟨t, ht⟩ := h.base_prefix T
      rwa [← ht, List.getElem?_append_left hlt] at hi
    exact (h.term_base_lt hb).le
  · exact (h.own hi hge).le

theorem Inv.tlog_rooted (T : ℕ) : Rooted S w (w.tlog T) := by
  intro i e hi
  rcases Nat.lt_or_ge i (w.base T).length with hlt | hge
  · obtain ⟨x, hx⟩ := h.leader_of_tlog hi
    have hp := h.base_prefix T
    have hb : (w.base T)[i]? = some e := by
      obtain ⟨t, ht⟩ := hp
      rwa [← ht, List.getElem?_append_left hlt] at hi
    rw [hp.take_eq hlt]
    exact h.cand_rooted (h.leader_cand hx) i e hb
  · rw [h.own hi hge]
    exact List.take_prefix _ _

/-- Terms do not decrease along a log. -/
theorem Inv.term_mono {l : List E} (hl : Rooted S w l) {i j : ℕ} {e e' : E} (hij : i ≤ j)
    (hi : l[i]? = some e) (hj : l[j]? = some e') : S.term e ≤ S.term e' := by
  rw [← hl.getElem?_tlog hj hij] at hi
  exact h.term_tlog_le hi

theorem Inv.ack_of_leader_none {T : ℕ} (hnone : w.leader T = none) (v : N) : w.ack v T = 0 := by
  have := h.ack_length v T
  rw [h.leader_none hnone] at this
  simpa using this

end Terms

theorem Chosen.mono {S : LogSystem N E} {w w' : World N E} (h : w.Inv S) {T i m : ℕ}
    (hc : w.Chosen S T i m) (hle : w.Le w') : w'.Chosen S T i m := by
  obtain ⟨Q, hQ, hack⟩ := hc.quorum
  have hpos : 0 < (w.tlog T).length := by
    have := hc.own
    have := hc.le
    have := hc.length
    omega
  obtain ⟨x, hx⟩ := h.leader_of_tlog (List.getElem?_eq_getElem hpos)
  have hbase : w'.base T = w.base T := hle.base (by rw [hx]; exact Option.some_ne_none x)
  exact {
    own := by rw [hbase]; exact hc.own
    le := hc.le
    length := hc.length.trans (hle.tlog T).length_le
    quorum := ⟨Q, by rw [(hle.tlog T).take_eq hc.length]; exact hQ,
      fun v hv => (hack v hv).trans (hle.ack v T)⟩ }

/-- The configuration facts survive an action that leaves the leaders' logs alone. -/
theorem Inv.config_mono {S : LogSystem N E} {w w' : World N E} (h : w.Inv S) (hle : w.Le w')
    {T k : ℕ} {e : E} (hk : (w.tlog T)[k]? = some e) (hb : (w.base T).length ≤ k)
    (he : S.isConfig e) : ∃ c, w'.Chosen S T c k ∧
      ∀ j e', c ≤ j → j < k → (w.tlog T)[j]? = some e' → ¬S.isConfig e' := by
  obtain ⟨c, hc, hno⟩ := h.config hk hb he
  exact ⟨c, hc.mono h hle, hno⟩

/-- **Log matching**: logs that hold entries of one term at one position agree up to there. -/
theorem Rooted.matching {S : LogSystem N E} {w : World N E} {l l' : List E} (hl : Rooted S w l)
    (hl' : Rooted S w l') {i : ℕ} {e e' : E}
    (hi : l[i]? = some e) (hi' : l'[i]? = some e') (hterm : S.term e = S.term e') :
    l.take (i + 1) = l'.take (i + 1) := by
  have hp := hl i e hi
  have hp' := hl' i e' hi'
  rw [← hterm] at hp'
  refine (List.prefix_of_prefix_length_le hp hp' ?_).eq_of_length_le ?_ <;>
    rw [List.getElem?_last_of_take hi, List.getElem?_last_of_take hi']

theorem lastTerm_of_getElem? {S : LogSystem N E} {l : List E} {e : E}
    (hi : l[l.length - 1]? = some e) : lastTerm S l = S.term e := by
  simp [lastTerm, List.getLast?_eq_getElem?, hi]

theorem exists_last {l : List E} (hl : l ≠ []) : ∃ e, l[l.length - 1]? = some e := by
  have := List.length_pos_iff.2 hl
  exact ⟨_, List.getElem?_eq_getElem (by omega)⟩

/-- A log is a prefix of the log of the leader of its last term. -/
theorem Rooted.prefix_lastTerm {S : LogSystem N E} {w : World N E} {l : List E}
    (h : Rooted S w l) : l <+: w.tlog (lastTerm S l) := by
  rcases eq_or_ne l [] with rfl | hl
  · exact List.nil_prefix
  · obtain ⟨e, he⟩ := exists_last hl
    have hp := h _ e he
    rw [lastTerm_of_getElem? he]
    rwa [List.take_of_length_le (by omega)] at hp

theorem Rooted.term_le_lastTerm {S : LogSystem N E} {w : World N E} (h : w.Inv S) {l : List E}
    (hl : Rooted S w l) {i : ℕ} {e : E} (hi : l[i]? = some e) : S.term e ≤ lastTerm S l :=
  h.term_tlog_le (hl.prefix_lastTerm.getElem?_eq_some hi)

/-- **Up-to-date logs hand on.** A prefix of the log of term `T` that ends in an entry of that
term, held by the voter and by every leader between `T` and `T'`, is held by the candidate of
`T'` as well. -/
theorem Inv.dominate {S : LogSystem N E} {w : World N E} (h : w.Inv S) {mine B : List E}
    {T T' i : ℕ} (hmine : Rooted S w mine) (hB : Rooted S w B) (hlt : ∀ e ∈ B, S.term e < T')
    (hup : UpToDate S mine B) (hi : (w.base T).length < i) (hiT : i ≤ (w.tlog T).length)
    (hcar : w.Carried (Set.Ioo T T') ((w.tlog T).take i)) (hp : (w.tlog T).take i <+: mine) :
    (w.tlog T).take i <+: B := by
  obtain ⟨e, he⟩ : ∃ e, (w.tlog T)[i - 1]? = some e :=
    ⟨_, List.getElem?_eq_getElem (by omega)⟩
  have hmem : mine[i - 1]? = some e := by
    refine hp.getElem?_eq_some ?_
    rw [List.getElem?_take_of_lt (by omega)]
    exact he
  have hT : T ≤ lastTerm S mine := by
    rw [← h.own he (by omega)]
    exact hmine.term_le_lastTerm h hmem
  rcases hup with hup | ⟨hterm, hlen⟩
  · -- The candidate's last entry is of a later term, whose leader started from the prefix.
    have hne : B ≠ [] := by
      rintro rfl
      simp [lastTerm] at hup
    obtain ⟨eB, heB⟩ := exists_last hne
    have hlast := lastTerm_of_getElem? (S := S) heB
    have hpB := hB.prefix_lastTerm
    have heT := hpB.getElem?_eq_some heB
    obtain ⟨x, hx⟩ := h.leader_of_tlog heT
    have hltT' : lastTerm S B < T' := by
      rw [hlast]
      exact hlt eB (List.mem_of_getElem? heB)
    have hbase : (w.base (lastTerm S B)).length ≤ B.length := by
      by_contra hgt
      have hb : (w.base (lastTerm S B))[B.length - 1]? = some eB := by
        obtain ⟨t, ht⟩ := h.base_prefix (lastTerm S B)
        rwa [← ht, List.getElem?_append_left (by omega)] at heT
      have := h.term_base_lt hb
      omega
    have hcarB := hcar (lastTerm S B) ⟨by omega, hltT'⟩ (by rw [hx]; exact Option.some_ne_none x)
    exact hcarB.trans (List.prefix_of_prefix_length_le (h.base_prefix _) hpB hbase)
  · -- Both logs end in the same term, and the candidate's is at least as long.
    have hpm := hmine.prefix_lastTerm
    rw [hterm] at hpm
    exact hp.trans (List.prefix_of_prefix_length_le hpm hB.prefix_lastTerm hlen)

/-- The history before anything happened. -/
def init : World N E where
  cur _ := 0
  log _ := []
  vote _ _ := none
  cand _ _ := none
  leader _ := none
  elect _ := ∅
  base _ := []
  tlog _ := []
  ack _ _ := 0

theorem inv_init (S : LogSystem N E) : (init : World N E).Inv S := by
  constructor <;> simp [init, Rooted]

/-! ## Actions -/

section Actions

variable [DecidableEq N]

/-- Change one value of a function of two arguments. -/
def set₂ {α β γ : Type*} [DecidableEq α] [DecidableEq β] (f : α → β → γ) (a : α) (b : β) (c : γ) :
    α → β → γ := fun a' b' => if a' = a ∧ b' = b then c else f a' b'

/-- A node moves to a later term. -/
def adopt (w : World N E) (v : N) (T : ℕ) : World N E :=
  { w with cur := Function.update w.cur v T }

/-- A node stands for election in the next term. -/
def campaign (w : World N E) (x : N) : World N E :=
  { w with
    cur := Function.update w.cur x (w.cur x + 1)
    cand := set₂ w.cand x (w.cur x + 1) (some (w.log x)) }

def castVote (w : World N E) (v c : N) : World N E :=
  { w with vote := set₂ w.vote v (w.cur v) (some c) }

/-- A candidate becomes the leader of its term. -/
def win (w : World N E) (x : N) (Q : Set N) : World N E :=
  { w with
    leader := Function.update w.leader (w.cur x) (some x)
    elect := Function.update w.elect (w.cur x) Q
    base := Function.update w.base (w.cur x) (w.log x)
    tlog := Function.update w.tlog (w.cur x) (w.log x) }

/-- A leader appends an entry of its term. -/
def append (w : World N E) (x : N) (e : E) : World N E :=
  { w with
    log := Function.update w.log x (w.log x ++ [e])
    tlog := Function.update w.tlog (w.cur x) (w.tlog (w.cur x) ++ [e]) }

/-- A node takes over the log `l` and acknowledges its first `k` entries. -/
def accept (w : World N E) (v : N) (l : List E) (k : ℕ) : World N E :=
  { w with
    log := Function.update w.log v l
    ack := set₂ w.ack v (w.cur v) (max (w.ack v (w.cur v)) k) }

variable {S} {w : World N E}

theorem adopt_le {v : N} {T : ℕ} (hT : w.cur v < T) : w.Le (w.adopt v T) where
  cur u := by
    by_cases hu : u = v
    · subst hu; simpa [adopt] using hT.le
    · simp [adopt, hu]
  vote := id
  cand := id
  leader := id
  base _ := rfl
  tlog _ := List.prefix_rfl
  ack _ _ := le_rfl

theorem Inv.adopt (h : w.Inv S) {v : N} {T : ℕ} (hT : w.cur v < T) : (w.adopt v T).Inv S := by
  have hcur := (adopt_le hT).cur
  exact {
    vote_le := fun hv => (h.vote_le hv).trans (hcur _)
    vote_cand := h.vote_cand
    cand_pos := h.cand_pos
    cand_le := fun hc => (h.cand_le hc).trans (hcur _)
    cand_lt := h.cand_lt
    cand_rooted := h.cand_rooted
    leader_cand := h.leader_cand
    leader_quorum := h.leader_quorum
    leader_none := h.leader_none
    base_prefix := h.base_prefix
    own := h.own
    log_rooted := h.log_rooted
    log_le := fun u e he => (h.log_le u e he).trans (hcur u)
    held := fun {x T'} hx hcurx => by
      by_cases hxv : x = v
      · subst hxv
        have hle := h.cand_le (h.leader_cand hx)
        simp only [World.adopt, Function.update_self] at hcurx
        omega
      · simp only [World.adopt, Function.update_of_ne hxv] at hcurx
        exact h.held hx hcurx
    ack_le := fun ha => (h.ack_le ha).trans (hcur _)
    ack_length := h.ack_length
    keep := fun hi hc => h.keep hi (hc.mono (Set.Ioc_subset_Ioc_right (hcur _)))
    hand := h.hand
    config := h.config_mono (adopt_le hT)
    adjacent := h.adjacent }

theorem campaign_le (h : w.Inv S) (x : N) : w.Le (w.campaign x) where
  cur u := by
    by_cases hu : u = x
    · subst hu; simp [campaign]
    · simp [campaign, hu]
  vote := id
  cand {c T B} hc := by
    have hne : ¬(c = x ∧ T = w.cur x + 1) := by
      rintro ⟨rfl, rfl⟩
      have := h.cand_le hc
      omega
    simpa [campaign, set₂, hne] using hc
  leader := id
  base _ := rfl
  tlog _ := List.prefix_rfl
  ack _ _ := le_rfl

theorem campaign_cand {x c : N} {T : ℕ} {B : List E} (hc : (w.campaign x).cand c T = some B) :
    (c = x ∧ T = w.cur x + 1 ∧ B = w.log x) ∨ w.cand c T = some B := by
  by_cases heq : c = x ∧ T = w.cur x + 1
  · simp only [campaign, set₂, if_pos heq, Option.some.injEq] at hc
    exact .inl ⟨heq.1, heq.2, hc.symm⟩
  · simp only [campaign, set₂, if_neg heq] at hc
    exact .inr hc

theorem Inv.campaign (h : w.Inv S) (x : N) : (w.campaign x).Inv S := by
  have hle := campaign_le h x
  exact {
    vote_le := fun hv => (h.vote_le hv).trans (hle.cur _)
    vote_cand := fun hv => by
      obtain ⟨B, hB⟩ := h.vote_cand hv
      exact ⟨B, hle.cand hB⟩
    cand_pos := fun hc => by
      rcases campaign_cand hc with ⟨-, rfl, -⟩ | hc
      · exact Nat.succ_pos _
      · exact h.cand_pos hc
    cand_le := fun hc => by
      rcases campaign_cand hc with ⟨rfl, rfl, -⟩ | hc
      · simp [World.campaign]
      · exact (h.cand_le hc).trans (hle.cur _)
    cand_lt := fun hc => by
      rcases campaign_cand hc with ⟨rfl, rfl, rfl⟩ | hc
      · exact fun e he => Nat.lt_succ_of_le (h.log_le _ e he)
      · exact h.cand_lt hc
    cand_rooted := fun hc => by
      rcases campaign_cand hc with ⟨rfl, rfl, rfl⟩ | hc
      · exact h.log_rooted _
      · exact h.cand_rooted hc
    leader_cand := fun hx => hle.cand (h.leader_cand hx)
    leader_quorum := h.leader_quorum
    leader_none := h.leader_none
    base_prefix := h.base_prefix
    own := h.own
    log_rooted := h.log_rooted
    log_le := fun u e he => (h.log_le u e he).trans (hle.cur u)
    held := fun {y T} hy hcury => by
      by_cases hyx : y = x
      · subst hyx
        have := h.cand_le (h.leader_cand hy)
        simp only [World.campaign, Function.update_self] at hcury
        omega
      · simp only [World.campaign, Function.update_of_ne hyx] at hcury
        exact h.held hy hcury
    ack_le := fun ha => (h.ack_le ha).trans (hle.cur _)
    ack_length := h.ack_length
    keep := fun hi hc => h.keep hi (hc.mono (Set.Ioc_subset_Ioc_right (hle.cur _)))
    hand := fun {v T' c B T i} hv hc hT hb hi hor hcar => by
      rcases campaign_cand hc with ⟨rfl, rfl, rfl⟩ | hc
      · -- Nobody can have voted for the new candidate yet.
        obtain ⟨B, hB⟩ := h.vote_cand hv
        have := h.cand_le hB
        omega
      · exact h.hand hv hc hT hb hi hor hcar
    config := h.config_mono hle
    adjacent := h.adjacent }

theorem castVote_le {v c : N} (hnone : w.vote v (w.cur v) = none) : w.Le (w.castVote v c) where
  cur _ := le_rfl
  vote {u T d} hu := by
    have hne : ¬(u = v ∧ T = w.cur v) := by
      rintro ⟨rfl, rfl⟩
      rw [hnone] at hu
      cases hu
    simpa [castVote, set₂, hne] using hu
  cand := id
  leader := id
  base _ := rfl
  tlog _ := List.prefix_rfl
  ack _ _ := le_rfl

theorem castVote_vote {u v c d : N} {T : ℕ} (hu : (w.castVote v c).vote u T = some d) :
    (u = v ∧ T = w.cur v ∧ d = c) ∨ w.vote u T = some d := by
  by_cases heq : u = v ∧ T = w.cur v
  · simp only [castVote, set₂, if_pos heq, Option.some.injEq] at hu
    exact .inl ⟨heq.1, heq.2, hu.symm⟩
  · simp only [castVote, set₂, if_neg heq] at hu
    exact .inr hu

theorem Inv.castVote (h : w.Inv S) {v c : N} {B : List E} (hnone : w.vote v (w.cur v) = none)
    (hc : w.cand c (w.cur v) = some B) (hup : UpToDate S (w.log v) B) :
    (w.castVote v c).Inv S := by
  have hle := castVote_le (c := c) hnone
  exact {
    vote_le := fun hu => by
      rcases castVote_vote hu with ⟨rfl, rfl, -⟩ | hu
      · exact le_rfl
      · exact h.vote_le hu
    vote_cand := fun hu => by
      rcases castVote_vote hu with ⟨rfl, rfl, rfl⟩ | hu
      · exact ⟨B, hc⟩
      · exact h.vote_cand hu
    cand_pos := h.cand_pos
    cand_le := h.cand_le
    cand_lt := h.cand_lt
    cand_rooted := h.cand_rooted
    leader_cand := h.leader_cand
    leader_quorum := fun hx =>
      ⟨(h.leader_quorum hx).1, fun u hu => hle.vote ((h.leader_quorum hx).2 u hu)⟩
    leader_none := h.leader_none
    base_prefix := h.base_prefix
    own := h.own
    log_rooted := h.log_rooted
    log_le := h.log_le
    held := h.held
    ack_le := h.ack_le
    ack_length := h.ack_length
    keep := h.keep
    hand := fun {u T' d B' T i} hu hd hT hb hi hor hcar => by
      rcases castVote_vote hu with ⟨rfl, rfl, rfl⟩ | hu
      · obtain rfl : B = B' := Option.some.inj (hc.symm.trans hd)
        have hcar' : w.Carried (Set.Ioc T (w.cur u)) ((w.tlog T).take i) := by
          rintro T'' ⟨hlt, hle'⟩ hlead
          rcases hle'.lt_or_eq with hlt' | rfl
          · exact hcar T'' ⟨hlt, hlt'⟩ hlead
          -- The term of the vote has a leader already: the voter did not elect it.
          rcases hor with hor | hor | hor
          · exact absurd hor hlead
          · obtain ⟨x, hx⟩ := Option.ne_none_iff_exists'.1 hlead
            have := (h.leader_quorum hx).2 u hor
            rw [hnone] at this
            cases this
          · exact hor
        exact h.dominate (h.log_rooted u) (h.cand_rooted hc) (h.cand_lt hc) hup hb
          (hi.trans (h.ack_length u T)) hcar (h.keep hi hcar')
      · exact h.hand hu hd hT hb hi hor hcar
    config := h.config_mono hle
    adjacent := h.adjacent }

omit [DecidableEq N] in
theorem win_le (h : w.Inv S) {x : N} {Q : Set N} (hnone : w.leader (w.cur x) = none) :
    w.Le (w.win x Q) where
  cur _ := le_rfl
  vote := id
  cand := id
  leader {T y} hy := by
    have hne : T ≠ w.cur x := by rintro rfl; rw [hnone] at hy; cases hy
    simpa [win, hne] using hy
  base {T} hT := by
    have hne : T ≠ w.cur x := by rintro rfl; exact hT hnone
    simp [win, hne]
  tlog T := by
    by_cases hT : T = w.cur x
    · subst hT; rw [h.leader_none hnone]; exact List.nil_prefix
    · simp [win, hT]
  ack _ _ := le_rfl

omit [DecidableEq N] in
theorem win_carried {x : N} {Q : Set N} (hnone : w.leader (w.cur x) = none) {I : Set ℕ}
    {l : List E} (hc : (w.win x Q).Carried I l) : w.Carried I l := by
  intro T hT hlead
  have hne : T ≠ w.cur x := by rintro rfl; exact hlead hnone
  simpa [win, hne] using hc T hT (by simpa [win, hne] using hlead)

omit [DecidableEq N] in
theorem Inv.win (h : w.Inv S) {x : N} {Q : Set N} (hcand : w.cand x (w.cur x) = some (w.log x))
    (hnone : w.leader (w.cur x) = none) (hQ : S.quorum (w.log x) Q)
    (hvotes : ∀ v ∈ Q, w.vote v (w.cur x) = some x) : (w.win x Q).Inv S := by
  have hle := win_le (Q := Q) h hnone
  exact {
    vote_le := h.vote_le
    vote_cand := h.vote_cand
    cand_pos := h.cand_pos
    cand_le := h.cand_le
    cand_lt := h.cand_lt
    cand_rooted := fun hc => (h.cand_rooted hc).mono S hle.tlog
    leader_cand := fun {y T} hy => by
      by_cases hT : T = w.cur x
      · subst hT
        simp only [World.win, Function.update_self, Option.some.injEq] at hy ⊢
        rw [← hy]
        exact hcand
      · simp only [World.win, Function.update_of_ne hT] at hy ⊢
        exact h.leader_cand hy
    leader_quorum := fun {y T} hy => by
      by_cases hT : T = w.cur x
      · subst hT
        simp only [World.win, Function.update_self, Option.some.injEq] at hy ⊢
        rw [← hy]
        exact ⟨hQ, hvotes⟩
      · simp only [World.win, Function.update_of_ne hT] at hy ⊢
        exact h.leader_quorum hy
    leader_none := fun {T} hnoneT => by
      by_cases hT : T = w.cur x
      · subst hT
        simp [World.win] at hnoneT
      · simp only [World.win, Function.update_of_ne hT] at hnoneT ⊢
        exact h.leader_none hnoneT
    base_prefix := fun T => by
      by_cases hT : T = w.cur x
      · subst hT; simp [World.win]
      · simpa [World.win, hT] using h.base_prefix T
    own := fun {T i e} hi hb => by
      by_cases hT : T = w.cur x
      · subst hT
        simp only [World.win, Function.update_self] at hi hb
        exact absurd (List.getElem?_eq_some_iff.1 hi).1 (by omega)
      · simp only [World.win, Function.update_of_ne hT] at hi hb
        exact h.own hi hb
    log_rooted := fun v => (h.log_rooted v).mono S hle.tlog
    log_le := h.log_le
    held := fun {y T} hy hcur => by
      by_cases hT : T = w.cur x
      · subst hT
        simp only [World.win, Function.update_self, Option.some.injEq] at hy ⊢
        rw [hy]
      · simp only [World.win, Function.update_of_ne hT] at hy ⊢
        exact h.held hy hcur
    ack_le := h.ack_le
    ack_length := fun v T => (h.ack_length v T).trans (hle.tlog T).length_le
    keep := fun {v T i} hi hc => by
      by_cases hT : T = w.cur x
      · subst hT
        have hi0 : i = 0 := Nat.le_zero.1 (hi.trans_eq (h.ack_of_leader_none hnone v))
        simp [hi0]
      · simp only [World.win, Function.update_of_ne hT] at hc ⊢
        exact h.keep hi (win_carried hnone hc)
    hand := fun {v T' c B T i} hv hc hT hb hi hor hcar => by
      by_cases hTx : T = w.cur x
      · subst hTx
        have := hi.trans_eq (h.ack_of_leader_none hnone v)
        omega
      · simp only [World.win, Function.update_of_ne hTx] at hb hor hcar ⊢
        refine h.hand hv hc hT hb hi ?_ (win_carried hnone hcar)
        by_cases hT' : T' = w.cur x
        · exact .inl (hT' ▸ hnone)
        · simpa only [Function.update_of_ne hT'] using hor
    config := fun {T k e} hk hb he => by
      by_cases hT : T = w.cur x
      · subst hT
        simp only [World.win, Function.update_self] at hk hb
        exact absurd (List.getElem?_eq_some_iff.1 hk).1 (by omega)
      · simp only [World.win, Function.update_of_ne hT] at hk hb
        obtain ⟨c, hc, hno⟩ := h.config_mono hle hk hb he
        refine ⟨c, hc, fun j e' hcj hjk hj => hno j e' hcj hjk ?_⟩
        simpa only [World.win, Function.update_of_ne hT] using hj
    adjacent := fun {T k e Q₁ Q₂} hk hb hq hq' => by
      by_cases hT : T = w.cur x
      · subst hT
        simp only [World.win, Function.update_self] at hk hb
        exact absurd (List.getElem?_eq_some_iff.1 hk).1 (by omega)
      · simp only [World.win, Function.update_of_ne hT] at hk hb hq hq'
        exact h.adjacent hk hb hq hq' }

theorem append_le {x : N} {e : E} : w.Le (w.append x e) where
  cur _ := le_rfl
  vote := id
  cand := id
  leader := id
  base _ := rfl
  tlog T := by
    by_cases hT : T = w.cur x
    · subst hT; simp [append]
    · simp [append, hT]
  ack _ _ := le_rfl

/-- What was acknowledged of a leader's log is not affected by what the leader appends. -/
theorem append_take (h : w.Inv S) {x v : N} {e : E} {T i : ℕ} (hi : i ≤ w.ack v T) :
    ((w.append x e).tlog T).take i = (w.tlog T).take i :=
  (append_le.tlog T).take_eq (hi.trans (h.ack_length v T))

/-- The log of the leader that appends, in both histories. -/
theorem append_tlog_cases {x : N} {e e' : E} {T k : ℕ}
    (hk : ((w.append x e).tlog T)[k]? = some e') :
    (w.tlog T)[k]? = some e' ∨ T = w.cur x ∧ k = (w.tlog T).length ∧ e' = e := by
  by_cases hT : T = w.cur x
  · subst hT
    simp only [append, Function.update_self] at hk
    rw [List.getElem?_append] at hk
    split_ifs at hk with hlt
    · exact .inl hk
    · rw [List.getElem?_singleton] at hk
      split_ifs at hk with h0
      exact .inr ⟨rfl, by omega, (Option.some.inj hk).symm⟩
  · simp only [append, Function.update_of_ne hT] at hk
    exact .inl hk

theorem Inv.append (h : w.Inv S) {x : N} {e : E} (hlead : w.leader (w.cur x) = some x)
    (hterm : S.term e = w.cur x)
    (hconfig : S.isConfig e → ∃ c, w.Chosen S (w.cur x) c (w.tlog (w.cur x)).length ∧
      ∀ j e', c ≤ j → (w.tlog (w.cur x))[j]? = some e' → ¬S.isConfig e')
    (hadj : ∀ Q Q', S.quorum (w.tlog (w.cur x)) Q → S.quorum (w.tlog (w.cur x) ++ [e]) Q' →
      (Q ∩ Q').Nonempty) : (w.append x e).Inv S := by
  have hle := append_le (w := w) (x := x) (e := e)
  have hheld := h.held hlead rfl
  have htlog : (w.append x e).tlog (w.cur x) = w.tlog (w.cur x) ++ [e] := by simp [World.append]
  exact {
    vote_le := h.vote_le
    vote_cand := h.vote_cand
    cand_pos := h.cand_pos
    cand_le := h.cand_le
    cand_lt := h.cand_lt
    cand_rooted := fun hc => (h.cand_rooted hc).mono S hle.tlog
    leader_cand := h.leader_cand
    leader_quorum := h.leader_quorum
    leader_none := fun {T} hnone => by
      have hT : T ≠ w.cur x := by
        rintro rfl
        have hnone' : w.leader (w.cur x) = none := hnone
        rw [hlead] at hnone'
        cases hnone'
      simpa [World.append, hT] using h.leader_none hnone
    base_prefix := fun T => (h.base_prefix T).trans (hle.tlog T)
    own := fun {T i e'} hi hb => by
      rcases append_tlog_cases hi with hi | ⟨rfl, -, rfl⟩
      · exact h.own hi hb
      · exact hterm
    log_rooted := fun v i e' hi => by
      by_cases hv : v = x
      · subst hv
        have hlog : (w.append v e).log v = (w.append v e).tlog (w.cur v) := by
          simp [World.append, hheld]
        rw [hlog] at hi ⊢
        rcases append_tlog_cases hi with hi | ⟨-, hk, rfl⟩
        · rw [(hle.tlog _).take_eq (List.getElem?_eq_some_iff.1 hi).1]
          exact (h.tlog_rooted _ i e' hi).trans (hle.tlog _)
        · rw [hterm]
          exact List.take_prefix _ _
      · have hlog : (w.append x e).log v = w.log v := by simp [World.append, hv]
        rw [hlog] at hi ⊢
        exact (h.log_rooted v i e' hi).trans (hle.tlog _)
    log_le := fun v e' he' => by
      by_cases hv : v = x
      · subst hv
        simp only [World.append, Function.update_self, List.mem_append, List.mem_singleton] at he'
        rcases he' with he' | rfl
        · exact h.log_le v e' he'
        · exact hterm.le
      · simp only [World.append, Function.update_of_ne hv] at he'
        exact h.log_le v e' he'
    held := fun {y T} hy hcur => by
      by_cases hyx : y = x
      · subst hyx
        have hcur' : w.cur y = T := hcur
        subst hcur'
        simp [World.append, hheld]
      · have hT : T ≠ w.cur x := by
          rintro rfl
          have hy' : w.leader (w.cur x) = some y := hy
          rw [hlead] at hy'
          exact hyx (Option.some.inj hy').symm
        simpa [World.append, hyx, hT] using h.held hy hcur
    ack_le := h.ack_le
    ack_length := fun v T => (h.ack_length v T).trans (hle.tlog T).length_le
    keep := fun {v T i} hi hc => by
      rw [append_take h hi] at hc ⊢
      refine (h.keep hi hc).trans ?_
      by_cases hv : v = x
      · subst hv; simp [World.append]
      · simp [World.append, hv]
    hand := fun {v T' c B T i} hv hc hT hb hi hor hcar => by
      rw [append_take h hi] at hor hcar ⊢
      exact h.hand hv hc hT hb hi hor hcar
    config := fun {T k e'} hk hb he' => by
      rcases append_tlog_cases hk with hk | ⟨rfl, rfl, rfl⟩
      · obtain ⟨c, hc, hno⟩ := h.config_mono hle hk hb he'
        refine ⟨c, hc, fun j e'' hcj hjk hj => ?_⟩
        rcases append_tlog_cases hj with hj | ⟨rfl, rfl, -⟩
        · exact hno j e'' hcj hjk hj
        · exact absurd (List.getElem?_eq_some_iff.1 hk).1 (by omega)
      · obtain ⟨c, hc, hno⟩ := hconfig he'
        refine ⟨c, hc.mono h hle, fun j e'' hcj hjk hj => ?_⟩
        rcases append_tlog_cases hj with hj | ⟨-, rfl, -⟩
        · exact hno j e'' hcj hj
        · omega
    adjacent := fun {T k e' Q Q'} hk hb hq hq' => by
      rcases append_tlog_cases hk with hk | ⟨rfl, rfl, rfl⟩
      · have hlt := (List.getElem?_eq_some_iff.1 hk).1
        rw [(hle.tlog T).take_eq hlt.le] at hq
        rw [(hle.tlog T).take_eq hlt] at hq'
        exact h.adjacent hk hb hq hq'
      · rw [(hle.tlog _).take_eq le_rfl, List.take_length] at hq
        rw [htlog, List.take_of_length_le (by simp)] at hq'
        exact hadj Q Q' hq hq' }

theorem accept_le {v : N} {l : List E} {k : ℕ} : w.Le (w.accept v l k) where
  cur _ := le_rfl
  vote := id
  cand := id
  leader := id
  base _ := rfl
  tlog _ := List.prefix_rfl
  ack u T := by
    by_cases heq : u = v ∧ T = w.cur v
    · obtain ⟨rfl, rfl⟩ := heq
      simp [accept, set₂]
    · simp [accept, set₂, heq]

theorem accept_ack_cases (w : World N E) (u v : N) (l : List E) (k T : ℕ) :
    (u = v ∧ T = w.cur v ∧ (w.accept v l k).ack u T = max (w.ack v (w.cur v)) k) ∨
      (w.accept v l k).ack u T = w.ack u T := by
  by_cases heq : u = v ∧ T = w.cur v
  · exact .inl ⟨heq.1, heq.2, by simp only [accept, set₂, if_pos heq]⟩
  · exact .inr (by simp only [accept, set₂, if_neg heq])

/-- A node takes over `l` from the leader of its term: the whole of its old log or part of the
leader's, and in any case everything the two have in common. -/
theorem Inv.accept (h : w.Inv S) {v y : N} {l : List E} {k : ℕ}
    (hlead : w.leader (w.cur v) = some y) (hl : l = w.log v ∨ l <+: w.tlog (w.cur v))
    (hcommon : ∀ p, p <+: w.log v → p <+: w.tlog (w.cur v) → p <+: l)
    (hk : k ≤ (w.tlog (w.cur v)).length) (hack : (w.tlog (w.cur v)).take k <+: l) :
    (w.accept v l k).Inv S := by
  have hle := accept_le (w := w) (v := v) (l := l) (k := k)
  exact {
    vote_le := h.vote_le
    vote_cand := h.vote_cand
    cand_pos := h.cand_pos
    cand_le := h.cand_le
    cand_lt := h.cand_lt
    cand_rooted := h.cand_rooted
    leader_cand := h.leader_cand
    leader_quorum := h.leader_quorum
    leader_none := h.leader_none
    base_prefix := h.base_prefix
    own := h.own
    log_rooted := fun u => by
      by_cases hu : u = v
      · subst hu
        simp only [World.accept, Function.update_self]
        rcases hl with rfl | hl
        · exact h.log_rooted u
        · exact (h.tlog_rooted _).of_isPrefix S hl
      · simp only [World.accept, Function.update_of_ne hu]
        exact h.log_rooted u
    log_le := fun u e he => by
      by_cases hu : u = v
      · subst hu
        simp only [World.accept, Function.update_self] at he
        rcases hl with rfl | hl
        · exact h.log_le u e he
        · obtain ⟨i, hi⟩ := List.mem_iff_getElem?.1 he
          exact h.term_tlog_le (hl.getElem?_eq_some hi)
      · simp only [World.accept, Function.update_of_ne hu] at he
        exact h.log_le u e he
    held := fun {x T} hx hcur => by
      have hcur' : w.cur x = T := hcur
      by_cases hxv : x = v
      · subst hxv hcur'
        have hold := h.held hx rfl
        simp only [World.accept, Function.update_self]
        rcases hl with rfl | hl
        · exact hold
        · exact hl.eq_of_length_le
            (hcommon _ (hold ▸ List.prefix_rfl) List.prefix_rfl).length_le
      · simp only [World.accept, Function.update_of_ne hxv]
        exact h.held hx hcur'
    ack_le := fun {u T} hpos => by
      rcases accept_ack_cases w u v l k T with ⟨rfl, rfl, -⟩ | heq
      · exact le_rfl
      · exact h.ack_le (heq ▸ hpos)
    ack_length := fun u T => by
      rcases accept_ack_cases w u v l k T with ⟨rfl, rfl, heq⟩ | heq
      · rw [heq]
        exact max_le (h.ack_length u _) hk
      · rw [heq]
        exact h.ack_length u T
    keep := fun {u T i} hi hc => by
      by_cases hu : u = v
      · subst hu
        simp only [World.accept, Function.update_self]
        rcases accept_ack_cases w u u l k T with ⟨-, rfl, heq⟩ | heq
        · rw [heq] at hi
          obtain hi | hi : i ≤ w.ack u (w.cur u) ∨ i ≤ k := by omega
          · exact hcommon _ (h.keep hi hc) <| List.take_prefix _ _
          · exact (List.take_prefix_take_left hi).trans hack
        · rw [heq] at hi
          rcases Nat.eq_zero_or_pos i with rfl | hpos
          · simp
          -- An older acknowledgement: the leader of the current term holds it as well.
          rcases (h.ack_le (hpos.trans_le hi)).lt_or_eq with hlt | rfl
          · have hne : w.leader (w.cur u) ≠ none := by
              rw [hlead]
              exact Option.some_ne_none y
            exact hcommon _ (h.keep hi hc) ((hc _ ⟨hlt, le_rfl⟩ hne).trans (h.base_prefix _))
          · exact hcommon _ (h.keep hi hc) <| List.take_prefix _ _
      · rcases accept_ack_cases w u v l k T with ⟨rfl, -, -⟩ | heq
        · exact absurd rfl hu
        · simp only [World.accept, Function.update_of_ne hu]
          exact h.keep (heq ▸ hi) hc
    hand := fun {u T' c B T i} hv hc hT hb hi hor hcar => by
      rcases accept_ack_cases w u v l k T with ⟨rfl, rfl, -⟩ | heq
      · have := h.vote_le hv
        omega
      · exact h.hand hv hc hT hb (heq ▸ hi) hor hcar
    config := h.config_mono hle
    adjacent := h.adjacent }

end Actions

end World
