/-
# TacticEngine.Machine.Value -- what compiled terms evaluate to.

Every value remembers the term it stands for: a closure its lambda, a suspended computation the term
that would be evaluated, each with the frame of values for the free variables.  `source?` puts the
term together again, without evaluating anything; it fails only if an index leaves its range, which can
happen in a frame only where there is a body to put the frame into.

A frame lists the values of the variables in scope, that of variable 0 first.
-/
import TacticEngine.Machine.Code
import TacticEngine.Term.Bounded

namespace TacticEngine.Machine

variable {β σ α : Type}

/-- The result of an evaluation, or a computation still to be done. -/
inductive Value (β σ : Type) where
  /-- A constructor with arguments. -/
  | ctor (name : String) (args : List (Value β σ))
  /-- A literal. -/
  | lit (l : Literal)
  /-- A native value. -/
  | blob (b : Blob β)
  /-- A closure with fewer arguments than it takes. -/
  | lam (arity : Nat) (source : Term β σ) (body : Code β σ) (frame : List (Value β σ))
      (held : List (Value β σ))
  /-- A step with fewer arguments than it takes, standing in the source as the given term. -/
  | step (source : Term β σ) (s : Step σ) (held : List (Value β σ))
  /-- A term that does not evaluate further, applied to arguments. -/
  | neutral (t : Term β σ) (args : List (Value β σ))
  /-- A case distinction that is stuck, with the frame of its branches, applied to arguments. -/
  | stuck (scrutinee : Value β σ) (branches : List (Branch (Term β σ)))
      (frame : List (Value β σ)) (args : List (Value β σ))
  /-- A suspended computation, whose result will be kept in the slot.  If it has no code yet, it is
  compiled when it is needed. -/
  | thunk (slot : Nat) (source : Term β σ) (frame : List (Value β σ)) (code : Option (Code β σ))

instance : Inhabited (Value β σ) := ⟨.lit .unit⟩

/-- Put the sources of a frame for its variables in the branches of a case distinction. -/
def substituteBranches? (sources : List (Term β σ)) :
    List (Branch (Term β σ)) → Option (List (Branch (Term β σ)))
  | [] => some []
  | ⟨p, b⟩ :: brs => do
    let b ← b.instantiate? p.binders sources
    let brs ← substituteBranches? sources brs
    return ⟨p, b⟩ :: brs

mutual
/-- The term that a value stands for. -/
def Value.source? : Value β σ → Option (Term β σ)
  | .ctor c args => do
    let args ← sources? args
    return (Term.ctor c).apps args
  | .lit l => some (.lit l)
  | .blob b => some (.blob b)
  | .lam _ src _ frame held => do
    let vals ← sources? frame
    let f ← src.instantiate? 0 vals
    let held ← sources? held
    return f.apps held
  | .step t _ held => do
    let held ← sources? held
    return t.apps held
  | .neutral t args => do
    let args ← sources? args
    return t.apps args
  | .stuck s brs frame args => do
    let s ← s.source?
    let vals ← if brs.isEmpty then some [] else sources? frame
    let brs ← substituteBranches? vals brs
    let args ← sources? args
    return (Term.case s brs).apps args
  | .thunk _ src frame _ => do
    let vals ← sources? frame
    src.instantiate? 0 vals

/-- The terms that values stand for. -/
def sources? : List (Value β σ) → Option (List (Term β σ))
  | [] => some []
  | v :: vs => do
    let t ← v.source?
    let ts ← sources? vs
    return t :: ts
end

/-- The branch taken for an evaluated scrutinee, and the values that it binds.  There is none if no
pattern matches, or if a pattern is met that cannot be told to match or not. -/
def select (v : Value β σ) : List (Branch α) → Option (α × List (Value β σ))
  | [] => none
  | ⟨.wild, body⟩ :: _ => some (body, [])
  | ⟨.var, body⟩ :: _ => some (body, [v])
  | ⟨.lit l, body⟩ :: rest =>
    match v with
    | .lit l' => if l = l' then some (body, []) else select v rest
    | _ => none
  | ⟨.ctor c n, body⟩ :: rest =>
    match v with
    | .ctor c' args => if c = c' ∧ args.length = n then some (body, args) else select v rest
    | _ => none

/-- The sources of compiled branches. -/
def branchSources (brs : List (Branch (Term β σ × Code β σ))) : List (Branch (Term β σ)) :=
  brs.map fun br => ⟨br.pat, br.body.1⟩

end TacticEngine.Machine
