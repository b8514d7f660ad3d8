/-
# TacticEngine.Machine.Printer -- values as they are shown for debugging.

Each value is shown with its constructor and parts.  A suspended computation is shown as its source
until it has been forced, and as its value from then on, so the heap has a say; the recursion through
the heap is on fuel.
-/
import TacticEngine.Machine.Eval

namespace TacticEngine

open Text

/-- A literal with its constructor. -/
def Literal.debug : Literal → String
  | .unit => "Unit"
  | .bool b => "Bool(" ++ (if b then "true" else "false") ++ ")"
  | .int n => "Int(" ++ toString n ++ ")"
  | .string s => "String(" ++ quote s ++ ")"

/-- A pattern with its constructor. -/
def Pattern.debug : Pattern → String
  | .ctor c n => "Ctor(" ++ quote c ++ ", " ++ toString n ++ ")"
  | .lit l => "Lit(" ++ l.debug ++ ")"
  | .var => "Var"
  | .wild => "Wild"

/-- A branch with its parts. -/
def Branch.debug {β σ : Type} (br : Branch (Term β σ)) : String :=
  "Branch \x7b pat: " ++ br.pat.debug ++ ", body: " ++ br.body.display ++ " \x7d"

namespace Machine

variable {β σ : Type}

/-- A value with its constructor and parts; frames are shown outermost variable first. -/
def Value.debug (heap : Heap β σ) : Nat → Value β σ → String
  | 0, _ => ""
  | fuel + 1, v =>
    let all (vs : List (Value β σ)) : String := displayList (vs.map (Value.debug heap fuel))
    match v with
    | .ctor c args => "Ctor(" ++ quote c ++ ", " ++ all args ++ ")"
    | .lit l => "Lit(" ++ l.debug ++ ")"
    | .blob b => "Blob(<" ++ b.kind.display ++ ">)"
    | .lam n _ _ _ held => "Lam(<closure/" ++ toString n ++ ">, " ++ all held ++ ")"
    | .step t s held => "Step(" ++ t.display ++ ", " ++ s.display ++ ", " ++ all held ++ ")"
    | .neutral t args => "Neutral(Term(" ++ t.display ++ "), " ++ all args ++ ")"
    | .stuck s brs frame args =>
      "Neutral(Match(" ++ Value.debug heap fuel s ++ ", " ++ displayList (brs.map Branch.debug)
        ++ ", Frame(" ++ all frame.reverse ++ ")), " ++ all args ++ ")"
    | .thunk slot src _ _ =>
      match heap.read slot with
      | some v => "Thunk(" ++ Value.debug heap fuel v ++ ")"
      | none => "Thunk(<thunk " ++ src.display ++ ">)"

end Machine

end TacticEngine
