/-
# TacticEngine.Machine.Code -- compiled terms.

Compiling a term settles once what its evaluation would otherwise look up again and again: wrappers
are gone, constants that name steps are resolved, and arguments are ready to be passed without being
evaluated.  Every other constant gets a slot of its own, in which its value will be kept once it has
been computed.  Compiling takes slots from a supply; it has no other effect.
-/
import TacticEngine.StepTable

namespace TacticEngine.Machine

variable {β σ : Type}

mutual
/-- A compiled term. -/
inductive Code (β σ : Type) where
  /-- Force a variable of the frame. -/
  | var (index : Nat)
  /-- Unfold a constant, once; its value is kept in the slot. -/
  | const (name : String) (slot : Nat)
  /-- A step, standing in the source as the given term. -/
  | step (source : Term β σ) (s : Step σ)
  /-- A constructor. -/
  | ctor (name : String)
  /-- A term that has no value. -/
  | neutral (t : Term β σ)
  /-- A literal. -/
  | lit (l : Literal)
  /-- A native value. -/
  | blob (b : Blob β)
  /-- Apply to arguments. -/
  | app (head : Code β σ) (args : List (Delayed β σ))
  /-- A closure over the frame. -/
  | lam (arity : Nat) (source : Term β σ) (body : Code β σ)
  /-- Choose a branch; each branch comes with its source. -/
  | case (scrutinee : Code β σ) (branches : List (Branch (Term β σ × Code β σ)))

/-- An argument, to be passed without being evaluated. -/
inductive Delayed (β σ : Type) where
  /-- A variable of the frame. -/
  | var (index : Nat)
  /-- A literal. -/
  | lit (l : Literal)
  /-- A native value. -/
  | blob (b : Blob β)
  /-- Any other term, with its code. -/
  | thunk (source : Term β σ) (code : Code β σ)
end

/-- The next free slot. -/
abbrev Slots := StateM Nat

/-- A slot that is not in use. -/
def newSlot : Slots Nat := fun n => (n, n + 1)

mutual
/-- Compile a term. -/
def compile (steps : StepTable σ) : Term β σ → Slots (Code β σ)
  | .bvar i => return .var i
  | .const c =>
    match steps.lookup c with
    | some s => return .step (.const c) s
    | none => return .const c (← newSlot)
  | .ctor c => return .ctor c
  | .free x => return .neutral (.free x)
  | .uvar u => return .neutral (.uvar u)
  | .lit l => return .lit l
  | .blob b => return .blob b
  | .native s => return .step (.native s) s
  | .app h args => do
    let h ← compile steps h
    let args ← delayAll steps args
    return .app h args
  | .lam n b => do
    let code ← compile steps b
    return .lam n (.lam n b) code
  | .case s brs => do
    let s ← compile steps s
    let brs ← compileBranches steps brs
    return .case s brs
  | .ascribed e _ => compile steps e
  | .annotated e _ => compile steps e
  | .reify e => compile steps e

/-- Compile arguments, so that they can be passed without being evaluated. -/
def delayAll (steps : StepTable σ) : List (Term β σ) → Slots (List (Delayed β σ))
  | [] => return []
  | .bvar i :: as => do
    let as ← delayAll steps as
    return .var i :: as
  | .lit l :: as => do
    let as ← delayAll steps as
    return .lit l :: as
  | .blob b :: as => do
    let as ← delayAll steps as
    return .blob b :: as
  | a :: as => do
    let code ← compile steps a
    let as ← delayAll steps as
    return .thunk a code :: as

/-- Compile the bodies of branches. -/
def compileBranches (steps : StepTable σ) :
    List (Branch (Term β σ)) → Slots (List (Branch (Term β σ × Code β σ)))
  | [] => return []
  | ⟨p, b⟩ :: brs => do
    let code ← compile steps b
    let brs ← compileBranches steps brs
    return ⟨p, (b, code)⟩ :: brs
end

end TacticEngine.Machine
