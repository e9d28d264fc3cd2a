import Cloud9.Raft.Cluster

/-!
# Scripts

A run of a cluster is a list of inputs, and a delivery names the whole message. A script is a
shorter way to write a run down: `relay a b` delivers the latest message that `a` sent to `b`.
What a script plays is a run (`Cluster.run_of_play`).
-/

namespace Cloud9

/-- One move of a script. -/
inductive Move where
  | input (i : Input)
  | relay (sender receiver : NodeId)

def Move.toInput (c : Cluster) : Move → Option Input
  | .input i => some i
  | .relay sender receiver =>
    (c.sent.reverse.find? fun m => decide (m.from = sender ∧ m.to = receiver)).map .deliver

namespace Cluster

def play (ok : Cluster → Input → Bool) : Cluster → List Move → Option Cluster
  | c, [] => some c
  | c, m :: ms => (m.toInput c).bind fun i =>
    if ok c i then (c.step i).bind fun c' => play ok c' ms else none

theorem run_of_play {ok : Cluster → Input → Bool} {moves : List Move} :
    ∀ {c c' : Cluster}, c.play ok moves = some c' → ∃ inputs, c.run ok inputs = some c' := by
  induction moves with
  | nil => exact fun h => ⟨[], h⟩
  | cons m ms ih =>
    intro c c' h
    obtain ⟨i, -, hi⟩ := Option.bind_eq_some_iff.1 h
    split_ifs at hi with hok
    obtain ⟨c₁, hstep, hplay⟩ := Option.bind_eq_some_iff.1 hi
    obtain ⟨inputs, hrun⟩ := ih hplay
    exact ⟨i :: inputs, runWhile_cons.2 ⟨hok, c₁, hstep, hrun⟩⟩

/-- A script that ends in a state with the property `p` is a run that does. -/
theorem exists_run_of_play {ok : Cluster → Input → Bool} {moves : List Move} {c : Cluster}
    {p : Cluster → Bool} (h : (c.play ok moves).any p = true) :
    ∃ inputs c', c.run ok inputs = some c' ∧ p c' = true := by
  obtain ⟨c', hplay, hp⟩ := (Option.any_eq_true _ _).1 h
  obtain ⟨inputs, hrun⟩ := run_of_play hplay
  exact ⟨inputs, c', hrun, hp⟩

end Cluster

end Cloud9
