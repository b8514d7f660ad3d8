/-
# TacticEngine.Run.Event -- what happens during a run, for those who look back.

A run keeps a journal of the firings of steps, of the entries into native code and of the calls to
the type checker.  Nothing reads the journal while the run goes on.
-/
import TacticEngine.Proof.State

namespace TacticEngine

variable {β σ : Type}

/-- A side condition that type checking leaves behind. -/
inductive Guard (β σ : Type) where
  /-- Nothing is left to show. -/
  | trivial
  /-- The proposition is still to be shown. -/
  | nontrivial (t : Term β σ)

/-- A call to the type checker. -/
inductive Consultation (β σ : Type) where
  /-- Is `tactic` a metaprogram from the one type to the other? -/
  | typecheck (argType resultType tactic : Term β σ) (env : Env β σ)
  /-- Is the side condition trivial? -/
  | discharge (g : Guard β σ)
  /-- Do the terms unify, and did they? -/
  | unify (left right : Term β σ) (answer : Bool)
  /-- Which of the implicits have a problem, in this state? -/
  | resolve (implicits : List Implicit) (state : ProofState β σ)

/-- Something that happened during a run. -/
inductive Event (β σ : Type) where
  /-- A step was fired on arguments in normal form; whether it applies to them is not said. -/
  | fired (step : Step σ) (args : List (Term β σ))
  /-- The native code of that name was entered. -/
  | entered (name : String)
  /-- The type checker of that number was called. -/
  | consulted (checker : Nat) (call : Consultation β σ)

end TacticEngine
