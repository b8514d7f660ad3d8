/-
# TacticEngine.StepTable -- the steps in force.

A table lists steps in the order of their precedence: of several steps with one name the first is
the one that is meant.
-/
import TacticEngine.Proof.UVarTable
import TacticEngine.Term.Basic

namespace TacticEngine

variable {σ : Type}

/-- The flags as bits: one for firing under binders, two for automatic reflection. -/
def StepFlags.bits (f : StepFlags) : Nat :=
  (if f.strongReductionOk then 1 else 0) + (if f.autoReflect then 2 else 0)

/-- The flags as they are shown. -/
def StepFlags.display (f : StepFlags) : String :=
  let names := (if f.strongReductionOk then ["STRONG_REDUCTION_OK"] else [])
    ++ (if f.autoReflect then ["AUTO_REFLECT"] else [])
  "StepFlags(" ++ (if names.isEmpty then "0x0" else String.intercalate " | " names) ++ ")"

/-- A step as it is shown. -/
def Step.display (s : Step σ) : String :=
  "<step " ++ s.name ++ "/" ++ toString s.arity ++ " " ++ s.flags.display ++ ">"

/-- Steps in the order of precedence. -/
abbrev StepTable (σ : Type) := List (Step σ)

namespace StepTable

/-- The step meant by a name: the first of that name. -/
def lookup (steps : StepTable σ) (name : String) : Option (Step σ) :=
  List.find? (fun s => s.name == name) steps

/-- The steps of the host before the registered ones, the latest of which come first. -/
def snapshot (native registry : List (Step σ)) : StepTable σ := native ++ registry

/-- A table as it is shown. -/
def display (steps : StepTable σ) : String :=
  displayList (List.map Step.display steps)

/-- A step of the host is never shadowed by a registered one. -/
theorem lookup_snapshot (native registry : List (Step σ)) (name : String) :
    lookup (snapshot native registry) name =
      (lookup native name).or (lookup registry name) := by
  simp [lookup, snapshot, List.find?_append]

end StepTable

end TacticEngine
