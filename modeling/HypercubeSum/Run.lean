import HypercubeSum.Fault

/-!
# Computations with a state that outlives failure

A run reads and changes a state and gives a value or a fault. Whatever it did to the state before a
fault stays done.
-/

namespace HypercubeSum

/-- A computation on a state that may fail. -/
abbrev Run (σ : Type) := ExceptT Fault (StateM σ)

namespace Run

/-- The outcome of a run and the state it leaves. -/
def start {σ α : Type} (run : Run σ α) (state : σ) : Except Fault α × σ :=
  StateT.run (ExceptT.run run) state

def outcome {σ α : Type} (run : Run σ α) (state : σ) : Except Fault α := (start run state).1

def replicate {σ α : Type} (run : Run σ α) : Nat → Run σ (List α)
  | 0 => return []
  | count + 1 => do
    let first ← run
    let rest ← replicate run count
    return first :: rest

end Run

end HypercubeSum
