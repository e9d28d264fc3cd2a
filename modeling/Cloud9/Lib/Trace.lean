import Mathlib.Data.List.Basic

/-!
# Traces of emitting actions

An action takes a state to a state and emits messages. A trace is a finite sequence of actions,
with the messages emitted on the way; messages may be dropped from it. The rule
`Trace.accumulate` carries a statement about the state and the messages emitted so far along a
trace, `Trace.invariant` one about the state and one about each message.
-/

variable {σ μ : Type*}

/-- A sequence of actions; messages may be dropped from what it emits. -/
inductive Trace (act : σ → σ → List μ → Prop) : σ → σ → List μ → Prop
  | refl (s : σ) : Trace act s s []
  | tail {s s' s'' : σ} {ms ms' : List μ} (h : Trace act s s' ms) (ha : act s' s'' ms') :
    Trace act s s'' (ms ++ ms')
  | drop {s s' : σ} {ms ms' : List μ} (h : Trace act s s' ms) (hsub : ms' ⊆ ms) :
    Trace act s s' ms'

namespace Trace

variable {act : σ → σ → List μ → Prop} {s s' s'' : σ} {ms ms' : List μ}

theorem single (h : act s s' ms) : Trace act s s' ms := by
  simpa using (Trace.refl s).tail h

/-- A silent trace, and an action that emits. -/
theorem emit (h : Trace act s s' []) (ha : act s' s'' ms) : Trace act s s'' ms := by
  simpa using h.tail ha

theorem trans (h : Trace act s s' ms) (h' : Trace act s' s'' ms') :
    Trace act s s'' (ms ++ ms') := by
  induction h' with
  | refl => simpa using h
  | tail _ ha ih => rw [← List.append_assoc]; exact ih.tail ha
  | drop _ hsub ih =>
    refine ih.drop fun m hm => ?_
    rw [List.mem_append] at hm ⊢
    exact hm.imp_right (@hsub m)

/-- A statement about the state and the messages so far that every action continues, and that
remains true of fewer messages. -/
theorem accumulate {I : σ → List μ → Prop}
    (hact : ∀ {s s' ms ms'}, I s ms → act s s' ms' → I s' (ms ++ ms'))
    (hdrop : ∀ {s ms ms'}, I s ms → ms' ⊆ ms → I s ms') (h : Trace act s s' ms) (hs : I s []) :
    I s' ms := by
  induction h with
  | refl => exact hs
  | tail _ ha ih => exact hact ih ha
  | drop _ hsub ih => exact hdrop ih hsub

/-- What every action preserves, and promises about its messages, so does a trace. -/
theorem invariant {I : σ → Prop} {M : μ → Prop}
    (hact : ∀ {s s' ms}, I s → act s s' ms → I s' ∧ ∀ m ∈ ms, M m)
    (h : Trace act s s' ms) (hs : I s) : I s' ∧ ∀ m ∈ ms, M m := by
  refine accumulate (I := fun s ms => I s ∧ ∀ m ∈ ms, M m) ?_ ?_ h ⟨hs, by simp⟩
  · rintro s s' ms ms' ⟨hs, hms⟩ ha
    obtain ⟨hs', hms'⟩ := hact hs ha
    exact ⟨hs', fun m hm => (List.mem_append.1 hm).elim (hms m) (hms' m)⟩
  · exact fun h hsub => ⟨h.1, fun m hm => h.2 m (hsub hm)⟩

end Trace
