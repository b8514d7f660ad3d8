/-
# TacticEngine.Tactic -- native tactics.

A native tactic is a program that works on a proof state and ends with an outcome.  Tactics are
sequenced by `andThen`: the second one starts from the value and the state of the first, and is not
run at all after a failure or an issue.
-/
import TacticEngine.Outcome
import TacticEngine.Run.Program

namespace TacticEngine

variable {β σ α γ : Type}

/-- A program that works on a proof state. -/
def Tactic (β σ α : Type) : Type := ProofState β σ → Program β σ (Outcome β σ α)

namespace Tactic

/-- Succeed with a value and leave the state alone. -/
def ret (a : α) : Tactic β σ α := fun s => return .success a s

/-- Fail with a message. -/
def fail (text : String) : Tactic β σ α := fun s => return .fail text s

/-- Run a tactic and go on with its value in the state it left; failures and issues end the
run. -/
def andThen (t : Tactic β σ α) (f : α → Tactic β σ γ) : Tactic β σ γ := fun s => do
  match ← t s with
  | .success a s => f a s
  | .failed e s => return .failed e s

/-- The current state. -/
def get : Tactic β σ (ProofState β σ) := fun s => return .success s s

/-- Go on in another state. -/
def set (s : ProofState β σ) : Tactic β σ Unit := fun _ => return .success () s

/-- A number that the state has not handed out before. -/
def fresh : Tactic β σ Nat := fun s => do
  let (n, s) ← Program.ofOption s.fresh?
  return .success n s

/-- What is shown of a tactic. -/
def display : Tactic β σ α → String := fun _ => "<tactic>"

instance : Monad (Tactic β σ) where
  pure := ret
  bind := andThen

end Tactic

end TacticEngine
