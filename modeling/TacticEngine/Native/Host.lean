/-
# TacticEngine.Native.Host -- what the host's labels stand for.

A host gives its own code: rules, pure functions, native tactics, and the lists of steps that engines
start from.  Its native tactics are programs; an issue that one of them ends with does not escape but
becomes a failure, in the state that the tactic was entered with, so that the metaprogram which called
it can go on.
-/
import TacticEngine.Machine.Value
import TacticEngine.Native.Codec

namespace TacticEngine.Native

open Codec (Vals)

variable {κ α : Type}

/-- Values of a host's compiled evaluation. -/
abbrev Value (κ : Type) := Machine.Value (Content κ) (Body κ)

/-- The code of a host, by label. -/
structure Host (κ : Type) where
  /-- The name under which entries into the code are journalled. -/
  name : κ → String
  /-- A list of steps. -/
  natives : κ → List (Step κ)
  /-- A rule on terms: the result, or none if the rule does not apply. -/
  rule : κ → Env κ → List (Term κ) → Program κ (Option (Term κ))
  /-- What a rule does to values instead, if compiled evaluation is to leave them alone. -/
  direct : κ → Option (List (Value κ) → Option (Value κ))
  /-- A pure function. -/
  total : κ → (args : List (Codec κ)) → (result : Codec κ) → Vals args → result.Val
  /-- A native tactic. -/
  tactic : κ → (args : List (Codec κ)) → (result : Codec κ) → Vals args → ProofState κ →
    Program κ (Outcome κ result.Val)

/-- Run a native tactic that was entered with state `old`: an issue becomes a failure in that
state, and a value of the host that was raised is kept apart from the engine's own issues. -/
def contain (old : ProofState κ) (p : Program κ (Outcome κ α)) : Program κ (Outcome κ α) := do
  match ← p.attempt with
  | .ok o => return o
  | .error e =>
    match e.payload? with
    | some payload => return .failed (.foreign payload) old
    | none => return .failed (.issue e) old

end TacticEngine.Native
