import Cloud9.Lib.Replication

/-!
# Leader completeness

What the invariant of a replicated log gives. An entry acknowledged by a quorum of its own term
is in the log of every later leader (`Inv.leader_complete`), a term has one leader (`Inv.fresh`),
and positions that two nodes have both committed hold the same entry (`Inv.covered_agree`).

Quorums may change along the log, so two quorums need not be counted in one configuration. The
key is `Inv.quorums_meet`: compare the two logs the quorums are counted in, at the first position
`d` where they differ. A configuration entry was appended over an acknowledged entry of its own
term, beyond the previous configuration. If no such acknowledged prefix reaches beyond `d` on
either side, then at most one configuration entry lies beyond `d`, and quorums of neighbouring
configurations meet.
-/

namespace World

variable {N E : Type*} {S : LogSystem N E}

/-- Only configuration entries change the quorums of a log. -/
theorem quorum_take {l : List E} {Q : Set N} {a b : ℕ} (hab : a ≤ b)
    (hno : ∀ j e, a ≤ j → j < b → l[j]? = some e → ¬S.isConfig e) :
    S.quorum (l.take b) Q ↔ S.quorum (l.take a) Q := by
  induction b, hab using Nat.le_induction with
  | base => rfl
  | succ b hab ih =>
    have ih := ih fun j e ha hb => hno j e ha (by omega)
    rcases he : l[b]? with _ | e
    · have hlen := List.getElem?_eq_none_iff.1 he
      rw [List.take_of_length_le (by omega : l.length ≤ b + 1)]
      rwa [List.take_of_length_le hlen] at ih
    · rw [List.take_add_one, he, Option.toList_some, S.quorum_concat (hno b e hab (by omega) he)]
      exact ih

section

variable {w : World N E} (h : w.Inv S)
include h

/-- Where a configuration entry of a rooted log comes from. -/
theorem Inv.config_of_rooted {l : List E} (hl : Rooted S w l) {k : ℕ} {e : E}
    (hk : l[k]? = some e) (he : S.isConfig e) :
    ∃ c, w.Chosen S (S.term e) c k ∧
      ∀ j e', c ≤ j → j < k → l[j]? = some e' → ¬S.isConfig e' := by
  have hkT : (w.tlog (S.term e))[k]? = some e := (hl.getElem?_tlog hk le_rfl).trans hk
  have hb : (w.base (S.term e)).length ≤ k := by
    by_contra hlt
    obtain ⟨t, ht⟩ := h.base_prefix (S.term e)
    rw [← ht, List.getElem?_append_left (by omega)] at hkT
    exact absurd (h.term_base_lt hkT) (lt_irrefl _)
  obtain ⟨c, hc, hno⟩ := h.config hkT hb he
  exact ⟨c, hc, fun j e' hcj hjk hj =>
    hno j e' hcj hjk ((hl.getElem?_tlog hk hjk.le).trans hj)⟩

/-- The acknowledged entry below a configuration entry is of the same term. -/
theorem Inv.term_of_chosen {l : List E} (hl : Rooted S w l) {k c : ℕ} {e : E}
    (hk : l[k]? = some e) (hc : w.Chosen S (S.term e) c k) :
    ∃ a, l[c - 1]? = some a ∧ S.term a = S.term e := by
  have hlt := (List.getElem?_eq_some_iff.1 hk).1
  have hown := hc.own
  have hle := hc.le
  obtain ⟨a, ha⟩ : ∃ a, l[c - 1]? = some a := ⟨_, List.getElem?_eq_getElem (by omega)⟩
  exact ⟨a, ha, h.own ((hl.getElem?_tlog hk (by omega)).trans ha) (by omega)⟩

/-- At most one configuration entry lies at or beyond `d`, if no acknowledged prefix below a
configuration entry reaches beyond `d`. -/
theorem Inv.config_unique {l : List E} (hl : Rooted S w l) {d : ℕ}
    (hsmall : ∀ k e c, l[k]? = some e → S.isConfig e → w.Chosen S (S.term e) c k → c ≤ d)
    {k k' : ℕ} {e e' : E} (hdk : d ≤ k) (hkk' : k < k') (hk : l[k]? = some e) (he : S.isConfig e)
    (hk' : l[k']? = some e') (he' : S.isConfig e') : False := by
  obtain ⟨c, hc, hno⟩ := h.config_of_rooted hl hk' he'
  have := hsmall k' e' c hk' he' hc
  exact hno k e (by omega) hkk' hk he

/-- The quorums of a log with at most one configuration entry beyond `d`: those of its first `d`
entries, or those right after one configuration entry. -/
theorem Inv.quorum_beyond {l : List E} (hl : Rooted S w l) {d : ℕ} {Q : Set N}
    (hsmall : ∀ k e c, l[k]? = some e → S.isConfig e → w.Chosen S (S.term e) c k → c ≤ d)
    (hQ : S.quorum l Q) :
    S.quorum (l.take d) Q ∨
      ∃ k e, d ≤ k ∧ l[k]? = some e ∧ S.isConfig e ∧
        ∀ Q', S.quorum (l.take d) Q' → (Q ∩ Q').Nonempty := by
  by_cases hex : ∃ k e, d ≤ k ∧ l[k]? = some e ∧ S.isConfig e
  · obtain ⟨k, e, hdk, hk, he⟩ := hex
    refine .inr ⟨k, e, hdk, hk, he, fun Q' hQ' => ?_⟩
    have hlt := (List.getElem?_eq_some_iff.1 hk).1
    -- The configuration entry is the only one beyond `d`, so it decides the quorums of `l`.
    have hafter : S.quorum (l.take (k + 1)) Q := by
      rw [← List.take_length (l := l)] at hQ
      refine (quorum_take (by omega) fun j e' hj _ hje he' => ?_).1 hQ
      exact h.config_unique hl hsmall hdk (by omega) hk he hje he'
    have hbefore : S.quorum (l.take k) Q' := by
      refine (quorum_take hdk fun j e' hj hjk hje he' => ?_).2 hQ'
      exact h.config_unique hl hsmall hj hjk hje he' hk he
    have hkT : (w.tlog (S.term e))[k]? = some e := (hl.getElem?_tlog hk le_rfl).trans hk
    have hb : (w.base (S.term e)).length ≤ k := by
      obtain ⟨c, hc, -⟩ := h.config_of_rooted hl hk he
      exact hc.own.le.trans hc.le
    obtain ⟨v, hv', hv⟩ := h.adjacent hkT hb (by rwa [hl.take_tlog hk (Nat.le_succ k)])
      (by rwa [hl.take_tlog hk le_rfl])
    exact ⟨v, hv, hv'⟩
  · push Not at hex
    refine .inl ?_
    rw [← List.take_length (l := l)] at hQ
    rcases Nat.lt_or_ge d l.length with hlt | hge
    · exact (quorum_take hlt.le fun j e hj _ hje => hex j e hj hje).1 hQ
    · rwa [List.take_of_length_le hge, ← List.take_length (l := l)]

/-- **Quorums of two logs meet** when no acknowledged prefix below a configuration entry of either
log reaches beyond the first position where the logs differ. -/
theorem Inv.quorums_meet {l l' : List E} (hl : Rooted S w l) (hl' : Rooted S w l') {d : ℕ}
    (htake : l.take d = l'.take d) (hne : l[d]? ≠ l'[d]?)
    (hsmall : ∀ k e c, l[k]? = some e → S.isConfig e → w.Chosen S (S.term e) c k → c ≤ d)
    (hsmall' : ∀ k e c, l'[k]? = some e → S.isConfig e → w.Chosen S (S.term e) c k → c ≤ d)
    {Q Q' : Set N} (hQ : S.quorum l Q) (hQ' : S.quorum l' Q') : (Q ∩ Q').Nonempty := by
  rcases h.quorum_beyond hl hsmall hQ with hq | ⟨k, e, hdk, hk, he, hmeet⟩
  · rw [htake] at hq
    rcases h.quorum_beyond hl' hsmall' hQ' with hq' | ⟨k', e', hdk', hk', he', hmeet'⟩
    · exact S.meet hq hq'
    · obtain ⟨v, hv', hv⟩ := hmeet' Q hq
      exact ⟨v, hv, hv'⟩
  · rcases h.quorum_beyond hl' hsmall' hQ' with hq' | ⟨k', e', hdk', hk', he', hmeet'⟩
    · exact hmeet Q' (htake ▸ hq')
    -- One configuration entry on each side. Both were appended over an entry of their own term
    -- below `d`, where the logs agree, so they are of one term and the logs agree at `d`.
    exfalso
    obtain ⟨c, hc, -⟩ := h.config_of_rooted hl hk he
    obtain ⟨c', hc', -⟩ := h.config_of_rooted hl' hk' he'
    have hcd := hsmall k e c hk he hc
    have hcd' := hsmall' k' e' c' hk' he' hc'
    obtain ⟨a, ha, hta⟩ := h.term_of_chosen hl hk hc
    obtain ⟨a', ha', hta'⟩ := h.term_of_chosen hl' hk' hc'
    have hpos := hc.own
    have hpos' := hc'.own
    have hla' : l[c' - 1]? = some a' := by
      rw [List.getElem?_of_take_eq htake (by omega)]
      exact ha'
    have hla : l'[c - 1]? = some a := by
      rw [← List.getElem?_of_take_eq htake (by omega)]
      exact ha
    have hterm : S.term e = S.term e' := by
      rcases Nat.le_total c c' with hcc | hcc
      · have h₁ := h.term_mono hl (by omega : c - 1 ≤ c' - 1) ha hla'
        have h₂ := h.term_mono hl (by omega : c' - 1 ≤ k) hla' hk
        omega
      · have h₁ := h.term_mono hl' (by omega : c' - 1 ≤ c - 1) ha' hla
        have h₂ := h.term_mono hl' (by omega : c - 1 ≤ k') hla hk'
        omega
    have hd := hl.getElem?_tlog hk hdk
    have hd' := hl'.getElem?_tlog hk' hdk'
    exact hne (by rw [← hd, ← hd', hterm])

theorem Inv.leader_of_chosen {T i m : ℕ} (hc : w.Chosen S T i m) : w.leader T ≠ none := by
  intro hnone
  have hown := hc.own
  have hle := hc.le
  have hlen := hc.length
  rw [h.leader_none hnone, List.length_nil] at hlen
  omega

/-- Leader completeness for the leaders of terms below `T'`. -/
def CompleteBelow (S : LogSystem N E) (w : World N E) (T' : ℕ) : Prop :=
  ∀ T'' < T', w.leader T'' ≠ none → ∀ T i m, T < T'' → w.Chosen S T i m →
    (w.tlog T).take i <+: w.base T''

omit h in
/-- Two acknowledged prefixes of terms below `T'` agree. -/
theorem CompleteBelow.agree (h : w.Inv S) {T' : ℕ} (ih : CompleteBelow S w T') {T i m t c k : ℕ}
    (hT : T < T') (hc : w.Chosen S T i m) (ht : t < T') (hck : w.Chosen S t c k) {d : ℕ}
    (hdi : d < i) (hdc : d < c) : (w.tlog T)[d]? = (w.tlog t)[d]? := by
  rcases Nat.lt_trichotomy t T with hlt | rfl | hgt
  · have hp := (ih T hT (h.leader_of_chosen hc) t c k hlt hck).trans (h.base_prefix T)
    exact (List.getElem?_of_take_prefix hp hdc (hck.le.trans hck.length)).symm
  · rfl
  · have hp := (ih t ht (h.leader_of_chosen hck) T i m hgt hc).trans (h.base_prefix t)
    exact List.getElem?_of_take_prefix hp hdi (hc.le.trans hc.length)

/-- **An acknowledged prefix reaches every winning candidate**, given that it reaches the leaders
of earlier terms. The induction is on the length `m` of the log the acknowledging quorum was
counted in. -/
theorem Inv.carry {T' : ℕ} (ih : CompleteBelow S w T') {x : N} {B : List E} {Q' : Set N}
    (hB : w.cand x T' = some B) (hQ' : S.quorum B Q') (hvote : ∀ v ∈ Q', w.vote v T' = some x)
    {T i m : ℕ} (hT : T < T') (hc : w.Chosen S T i m)
    (hor : w.leader T' = none ∨ Q' ⊆ w.elect T' ∨ (w.tlog T).take m <+: w.base T') :
    (w.tlog T).take i <+: B := by
  induction m using Nat.strong_induction_on generalizing T i with
  | _ m ihm =>
  by_contra hnot
  have him := hc.le
  have hmlen := hc.length
  set l := (w.tlog T).take m with hldef
  have hBr : Rooted S w B := h.cand_rooted hB
  have hlT : l <+: w.tlog T := List.take_prefix _ _
  have hlr : Rooted S w l := (h.tlog_rooted T).of_isPrefix S hlT
  have hneq : l ≠ B := by
    rintro rfl
    exact hnot (List.take_prefix_take_left him)
  obtain ⟨d, htake, hne⟩ := List.exists_diverge hneq
  have hli : l.take i = (w.tlog T).take i := by rw [hldef, List.take_take, min_eq_left him]
  have hdi : d < i := by
    by_contra hge
    exact hnot (hli ▸ List.take_prefix_of_take_eq htake (by omega))
  have hTd : l[d]? = (w.tlog T)[d]? := List.getElem?_take_of_lt (by omega)
  have hsmall : ∀ k e c, l[k]? = some e → S.isConfig e → w.Chosen S (S.term e) c k → c ≤ d := by
    intro k e c hk he hck
    by_contra hlt
    have hlen := (List.getElem?_eq_some_iff.1 hk).1
    have hkm : k < m := by
      rw [hldef, List.length_take] at hlen
      omega
    have hTe : S.term e ≤ T := h.term_tlog_le (hlT.getElem?_eq_some hk)
    have hck' := hck.le
    have hcB : (w.tlog (S.term e)).take c <+: B := by
      refine ihm k hkm (by omega) hck (hor.imp_right (Or.imp_right fun hp => ?_))
      rw [hlr.take_tlog hk (Nat.le_succ k)]
      refine .trans ?_ hp
      exact List.take_prefix _ _
    rw [hlr.take_tlog hk (by omega)] at hcB
    exact hne (List.getElem?_of_take_prefix hcB (by omega) (by omega))
  have hsmall' : ∀ k e c, B[k]? = some e → S.isConfig e → w.Chosen S (S.term e) c k → c ≤ d := by
    intro k e c hk he hck
    by_contra hlt
    have hTe : S.term e < T' := h.cand_lt hB e (List.mem_of_getElem? hk)
    have hck' := hck.le
    refine hne ?_
    rw [hTd, ← hBr.getElem?_tlog hk (by omega : d ≤ k)]
    exact ih.agree h hT hc hTe hck hdi (by omega)
  obtain ⟨Q, hQ, hack⟩ := hc.quorum
  obtain ⟨v, hvQ, hvQ'⟩ := h.quorums_meet hlr hBr htake hne hsmall hsmall' hQ hQ'
  refine hnot (h.hand (hvote v hvQ') hB hT hc.own (hack v hvQ) ?_ fun T'' hT'' hlead =>
    ih T'' hT''.2 hlead T i m hT''.1 hc)
  refine hor.imp_right (Or.imp (fun hsub => hsub hvQ') fun hp => ?_)
  exact (List.take_prefix_take_left him).trans hp

/-- **Leader completeness.** What a quorum acknowledged in its own term, every later leader has. -/
theorem Inv.leader_complete {T T' i m : ℕ} (hlead : w.leader T' ≠ none) (hT : T < T')
    (hc : w.Chosen S T i m) : (w.tlog T).take i <+: w.base T' := by
  induction T' using Nat.strong_induction_on generalizing T i m with
  | _ T' ih =>
  obtain ⟨x, hx⟩ := Option.ne_none_iff_exists'.1 hlead
  obtain ⟨hQ, hvotes⟩ := h.leader_quorum hx
  exact h.carry (fun T'' hlt hlead' T i m hT hc => ih T'' hlt hlead' hT hc) (h.leader_cand hx) hQ
    hvotes hT hc (.inr (.inl Set.Subset.rfl))

/-- **A term has one leader.** A candidate with a quorum of votes is the leader, if there is one. -/
theorem Inv.fresh {T : ℕ} {x y : N} {B : List E} {Q : Set N} (hlead : w.leader T = some y)
    (hB : w.cand x T = some B) (hQ : S.quorum B Q) (hvote : ∀ v ∈ Q, w.vote v T = some x) :
    x = y := by
  obtain ⟨hQy, hvotey⟩ := h.leader_quorum hlead
  have hne : w.leader T ≠ none := by rw [hlead]; exact Option.some_ne_none y
  -- A voter of both quorums voted once.
  suffices hmeet : (w.elect T ∩ Q).Nonempty by
    obtain ⟨v, hvy, hvx⟩ := hmeet
    exact Option.some.inj ((hvote v hvx).symm.trans (hvotey v hvy))
  rcases eq_or_ne (w.base T) B with rfl | hneq
  · exact S.meet hQy hQ
  obtain ⟨d, htake, hned⟩ := List.exists_diverge hneq
  have hbr : Rooted S w (w.base T) := h.cand_rooted (h.leader_cand hlead)
  have hBr : Rooted S w B := h.cand_rooted hB
  refine h.quorums_meet hbr hBr htake hned ?_ ?_ hQy hQ
  · intro k e c hk he hck
    by_contra hlt
    have hlen := (List.getElem?_eq_some_iff.1 hk).1
    have hck' := hck.le
    have hcB : (w.tlog (S.term e)).take c <+: B := by
      refine h.carry (fun T'' _ hl T i m hT hc => h.leader_complete hl hT hc) hB hQ hvote
        (h.term_base_lt hk) hck (.inr (.inr ?_))
      rw [hbr.take_tlog hk (Nat.le_succ k)]
      exact List.take_prefix _ _
    rw [hbr.take_tlog hk (by omega)] at hcB
    exact hned (List.getElem?_of_take_prefix hcB (by omega) (by omega))
  · intro k e c hk he hck
    by_contra hlt
    have hlen := (List.getElem?_eq_some_iff.1 hk).1
    have hck' := hck.le
    have hp := h.leader_complete hne (h.cand_lt hB e (List.mem_of_getElem? hk)) hck
    rw [hBr.take_tlog hk (by omega)] at hp
    exact hned (List.getElem?_of_take_prefix hp (by omega) (by omega)).symm

end

/-! ## Committed prefixes -/

/-- The first `c` entries of `l` are part of what a quorum acknowledged in a term up to `T`. -/
def Covered (S : LogSystem N E) (w : World N E) (T : ℕ) (l : List E) (c : ℕ) : Prop :=
  c = 0 ∨ ∃ T₀ i m, T₀ ≤ T ∧ w.Chosen S T₀ i m ∧ c ≤ i ∧ (w.tlog T₀).take c <+: l

/-- What a log has in common with a chosen prefix. -/
theorem Chosen.take_eq {w : World N E} {T₀ i m c : ℕ} {l : List E} (hch : w.Chosen S T₀ i m)
    (hci : c ≤ i) (hp : (w.tlog T₀).take c <+: l) : l.take c = (w.tlog T₀).take c := by
  have hlen : ((w.tlog T₀).take c).length = c := by
    have := hch.le
    have := hch.length
    rw [List.length_take]
    omega
  rw [hp.take_eq hlen.ge, List.take_take, min_self]

theorem Covered.mono {w w' : World N E} (h : w.Inv S) {T T' : ℕ} {l l' : List E} {c : ℕ}
    (hc : Covered S w T l c) (hle : w.Le w') (hT : T ≤ T') (hl : l <+: l') :
    Covered S w' T' l' c := by
  rcases hc with rfl | ⟨T₀, i, m, hT₀, hch, hci, hp⟩
  · exact .inl rfl
  · refine .inr ⟨T₀, i, m, hT₀.trans hT, hch.mono h hle, hci, ?_⟩
    rw [(hle.tlog T₀).take_eq (hci.trans (hch.le.trans hch.length))]
    exact hp.trans hl

theorem Covered.length_le {w : World N E} {T : ℕ} {l : List E} {c : ℕ} (hc : Covered S w T l c) :
    c ≤ l.length := by
  rcases hc with rfl | ⟨T₀, i, m, -, hch, hci, hp⟩
  · exact Nat.zero_le _
  · have hlen := hp.length_le
    have := hch.le
    have := hch.length
    rw [List.length_take] at hlen
    omega

theorem Covered.anti {w : World N E} {T : ℕ} {l : List E} {c c' : ℕ} (hc : Covered S w T l c)
    (hle : c' ≤ c) : Covered S w T l c' := by
  rcases hc with rfl | ⟨T₀, i, m, hT₀, hch, hci, hp⟩
  · exact .inl (by omega)
  · exact .inr ⟨T₀, i, m, hT₀, hch, by omega, (List.take_prefix_take_left hle).trans hp⟩

theorem Covered.of_isPrefix {w : World N E} {T : ℕ} {l l' : List E} {c : ℕ}
    (hc : Covered S w T l c) (hl : l' <+: l) (hle : c ≤ l'.length) : Covered S w T l' c := by
  rcases hc with rfl | ⟨T₀, i, m, hT₀, hch, hci, hp⟩
  · exact .inl rfl
  · refine .inr ⟨T₀, i, m, hT₀, hch, hci, List.prefix_of_prefix_length_le hp hl ?_⟩
    rw [List.length_take]
    omega

section

variable {w : World N E} (h : w.Inv S)
include h

/-- A committed prefix is part of the log of the leader of any later term. -/
theorem Inv.covered_tlog {T : ℕ} {l : List E} {c : ℕ} (hc : Covered S w T l c)
    (hlead : w.leader T ≠ none) : l.take c <+: w.tlog T := by
  rcases hc with rfl | ⟨T₀, i, m, hT₀, hch, hci, hp⟩
  · simp
  · rw [hch.take_eq hci hp]
    rcases hT₀.lt_or_eq with hlt | rfl
    · exact (List.take_prefix_take_left hci).trans
        ((h.leader_complete hlead hlt hch).trans (h.base_prefix T))
    · exact List.take_prefix _ _

/-- A node that follows the leader of its term keeps what it has committed. -/
theorem Inv.covered_accept {T : ℕ} {l l' : List E} {c : ℕ} (hc : Covered S w T l c)
    (hlead : w.leader T ≠ none) (hcommon : ∀ p, p <+: l → p <+: w.tlog T → p <+: l') :
    Covered S w T l' c := by
  have hpre := List.take_prefix c l
  have hkept := hcommon _ hpre (h.covered_tlog hc hlead)
  have hclen := hc.length_le
  rcases hc with rfl | ⟨T₀, i, m, hT₀, hch, hci, hp⟩
  · exact .inl rfl
  · refine .inr ⟨T₀, i, m, hT₀, hch, hci, ?_⟩
    rwa [hch.take_eq hci hp] at hkept

/-- **Committed entries agree**: positions committed in two logs hold the same entry. -/
theorem Inv.covered_agree {T T' : ℕ} {l l' : List E} {c c' j : ℕ} (hc : Covered S w T l c)
    (hc' : Covered S w T' l' c') (hj : j < c) (hj' : j < c') : l[j]? = l'[j]? := by
  rcases hc with rfl | ⟨T₀, i, m, -, hch, hci, hp⟩
  · omega
  rcases hc' with rfl | ⟨T₁, i', m', -, hch', hci', hp'⟩
  · omega
  rw [← List.getElem?_of_take_prefix hp hj (hci.trans (hch.le.trans hch.length)),
    ← List.getElem?_of_take_prefix hp' hj' (hci'.trans (hch'.le.trans hch'.length))]
  have hbelow : CompleteBelow S w (max T₀ T₁ + 1) := fun T'' _ hl T i m hT hc =>
    h.leader_complete hl hT hc
  exact hbelow.agree h (by omega) hch (by omega) hch' (by omega) (by omega)

/-- A shorter committed prefix begins a longer one. -/
theorem Inv.covered_prefix {T T' : ℕ} {l l' : List E} {c c' : ℕ} (hc : Covered S w T l c)
    (hc' : Covered S w T' l' c') (hle : c ≤ c') : l.take c <+: l'.take c' := by
  have htake : l.take c = l'.take c := by
    refine List.ext_getElem? fun i => ?_
    rcases Nat.lt_or_ge i c with hi | hi
    · rw [List.getElem?_take_of_lt hi, List.getElem?_take_of_lt hi]
      exact h.covered_agree hc hc' hi (hi.trans_le hle)
    · rw [List.getElem?_take_eq_none hi, List.getElem?_take_eq_none hi]
  rw [htake]
  exact List.take_prefix_take_left hle

/-- Of two committed prefixes one extends the other. -/
theorem Inv.covered_join {T T' : ℕ} {l l' : List E} {c : ℕ} (hc : Covered S w T l l.length)
    (hc' : Covered S w T' l' c) :
    ∃ m, (m = l ∨ m = l'.take c) ∧ l <+: m ∧ l'.take c <+: m ∧
      ∃ T'', Covered S w T'' m m.length := by
  rcases Nat.le_total c l.length with hle | hle
  · refine ⟨l, .inl rfl, List.prefix_rfl, ?_, T, hc⟩
    simpa using h.covered_prefix hc' hc hle
  · have hlen : (l'.take c).length = c := by
      rw [List.length_take]
      exact min_eq_left hc'.length_le
    refine ⟨l'.take c, .inr rfl, by simpa using h.covered_prefix hc hc' hle, List.prefix_rfl,
      T', ?_⟩
    rw [hlen]
    have hpre := List.take_prefix c l'
    exact hc'.of_isPrefix hpre hlen.ge

/-- **A committed prefix is held by a quorum**, from then on: what a node acknowledged it keeps. -/
theorem Inv.covered_held {T : ℕ} {l : List E} {c : ℕ} (hc : Covered S w T l c) (hpos : 0 < c) :
    ∃ T₀ m Q, S.quorum ((w.tlog T₀).take m) Q ∧
      ∀ v ∈ Q, ∀ w' : World N E, w.Le w' → w'.Inv S → l.take c <+: w'.log v := by
  rcases hc with rfl | ⟨T₀, i, m, -, hch, hci, hp⟩
  · exact absurd hpos (Nat.lt_irrefl 0)
  obtain ⟨Q, hQ, hack⟩ := hch.quorum
  refine ⟨T₀, m, Q, hQ, fun v hv w' hle h' => ?_⟩
  have hkept := h'.keep ((hack v hv).trans (hle.ack v T₀)) fun T' hT' hlead =>
    h'.leader_complete hlead hT'.1 (hch.mono h hle)
  rw [(hle.tlog T₀).take_eq (hch.le.trans hch.length)] at hkept
  rw [hch.take_eq hci hp]
  exact (List.take_prefix_take_left hci).trans hkept

theorem Inv.covered_rooted {T : ℕ} {l : List E} {c : ℕ} (hc : Covered S w T l c) :
    Rooted S w (l.take c) := by
  rcases hc with rfl | ⟨T₀, i, m, -, hch, hci, hp⟩
  · simp [Rooted]
  · rw [hch.take_eq hci hp]
    exact Rooted.of_isPrefix S (h.tlog_rooted T₀) <| List.take_prefix c _

end

end World
