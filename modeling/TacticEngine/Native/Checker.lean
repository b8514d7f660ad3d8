/-
# TacticEngine.Native.Checker -- the type checker, as the engine sees it.

The engine never checks a term itself.  It asks a type checker four questions, and every question is
put into the journal.
-/
import TacticEngine.Diagnosis
import TacticEngine.Native.Content

namespace TacticEngine.Native

variable {κ : Type}

/-- Side conditions with native values of a host. -/
abbrev Guard (κ : Type) := TacticEngine.Guard (Content κ) (Body κ)

/-- Tags with native values of a host. -/
abbrev ImplicitTag (κ : Type) := TacticEngine.ImplicitTag (Content κ) (Body κ)

/-- A type checker. -/
structure Checker (κ : Type) where
  /-- The number under which questions to it are journalled. -/
  id : Nat
  /-- Check a term against the type of metaprograms from the first type to the second; the answer
  is the side condition left. -/
  typecheck : Env κ → (argType resultType tactic : Term κ) → Except (Issue κ) (Guard κ)
  /-- Accept a side condition only if it is trivial, perhaps after simplification. -/
  discharge : Env κ → Guard κ → Except (Issue κ) Unit
  /-- Unify two terms at once, giving solutions to placeholders of the state. -/
  unify : Env κ → ProofState κ → (left right : Term κ) → Bool × ProofState κ
  /-- Try again to resolve implicits of the state; the answer is those that have a problem. -/
  resolve : Env κ → ProofState κ → List Implicit →
    List (Implicit × ImplicitTag κ) × ProofState κ

namespace Checker

/-- Put a question into the journal. -/
def consulted (c : Checker κ) (q : Consultation (Content κ) (Body κ)) : Program κ Unit :=
  Program.note (.consulted c.id q)

/-- Accept a metaprogram only if it has the expected type and leaves no side condition. -/
def accept (c : Checker κ) (env : Env κ) (argType resultType tactic : Term κ) :
    Program κ Unit := do
  c.consulted (.typecheck argType resultType tactic env)
  let guard ← Program.ofExcept (c.typecheck env argType resultType tactic)
  c.consulted (.discharge guard)
  Program.ofExcept (c.discharge env guard)

/-- Whether a placeholder can be solved by the unit value. -/
def solveByUnit (c : Checker κ) (env : Env κ) (s : ProofState κ) (u : Nat) :
    Program κ (Bool × ProofState κ) := do
  let answer := c.unify env s (.uvar u) .unit
  c.consulted (.unify (.uvar u) .unit answer.1)
  return answer

/-- The implicits of the state, among those given, that have a problem. -/
def unresolved (c : Checker κ) (env : Env κ) (s : ProofState κ) (is : List Implicit) :
    Program κ (List (Implicit × ImplicitTag κ) × ProofState κ) := do
  c.consulted (.resolve is s)
  return c.resolve env s is

end Checker

end TacticEngine.Native
