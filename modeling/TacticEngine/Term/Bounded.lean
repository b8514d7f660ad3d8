/-
# TacticEngine.Term.Bounded -- substitution within the range of indices.

Indices and binder counts fit in a machine word of 32 bits, and so must every index that arises and
every number of binders that a recursion is under.  The functions here are those of
`TacticEngine.Term.Substitution` with `none` where that range is left.  Evaluators use these.
-/
import TacticEngine.Term.Substitution

namespace TacticEngine

/-- Indices are below this bound. -/
def indexLimit : Nat := UInt32.size

/-- The sum of two indices, if it is an index. -/
def addIndex? (m n : Nat) : Option Nat :=
  if m + n < indexLimit then some (m + n) else none

namespace Term

variable {β σ : Type}

mutual
/-- Rebuild a term, putting `f k i` for each variable `i` that is free under the `k` binders around
it; `none` if `f` fails or the number of binders leaves the range. -/
def mapFree? (f : Nat → Nat → Option (Term β σ)) : Nat → Term β σ → Option (Term β σ)
  | k, .bvar i => if k ≤ i then f k i else some (.bvar i)
  | k, .app h args => do
    let h ← mapFree? f k h
    let args ← mapFreeArgs? f k args
    return h.apps args
  | k, .lam n b => do
    let inner ← addIndex? k n
    let b ← mapFree? f inner b
    return lams n b
  | k, .case s brs => do
    let s ← mapFree? f k s
    let brs ← mapFreeBranches? f k brs
    return .case s brs
  | k, .ascribed a t => do
    let a ← mapFree? f k a
    let t ← mapFree? f k t
    return .ascribed a t
  | k, .annotated a n => do
    let a ← mapFree? f k a
    return .annotated a n
  | k, .reify a => do
    let a ← mapFree? f k a
    return .reify a
  | _, t => some t

/-- `mapFree?` on each argument. -/
def mapFreeArgs? (f : Nat → Nat → Option (Term β σ)) :
    Nat → List (Term β σ) → Option (List (Term β σ))
  | _, [] => some []
  | k, a :: as => do
    let a ← mapFree? f k a
    let as ← mapFreeArgs? f k as
    return a :: as

/-- `mapFree?` on the body of each branch, under the variables that its pattern binds. -/
def mapFreeBranches? (f : Nat → Nat → Option (Term β σ)) :
    Nat → List (Branch (Term β σ)) → Option (List (Branch (Term β σ)))
  | _, [] => some []
  | k, ⟨p, b⟩ :: brs => do
    let inner ← addIndex? k p.binders
    let b ← mapFree? f inner b
    let brs ← mapFreeBranches? f k brs
    return ⟨p, b⟩ :: brs
end

/-- `shift`, unless an index leaves the range. -/
def shift? (amount cutoff : Nat) (t : Term β σ) : Option (Term β σ) :=
  if amount = 0 then some t
  else mapFree? (fun _ i => (addIndex? i amount).map .bvar) cutoff t

/-- `instantiateVar`, unless an index leaves the range. -/
def instantiateVar? (vals : List (Term β σ)) (k i : Nat) : Option (Term β σ) :=
  match vals[i - k]? with
  | some v => v.shift? k 0
  | none => some (.bvar (i - vals.length))

/-- `instantiate`, unless an index leaves the range. -/
def instantiate? (cutoff : Nat) (vals : List (Term β σ)) (t : Term β σ) : Option (Term β σ) :=
  if vals.isEmpty then some t else mapFree? (instantiateVar? vals) cutoff t

/-- `beta`, unless an index leaves the range. -/
def beta? (args : List (Term β σ)) (body : Term β σ) : Option (Term β σ) :=
  body.instantiate? 0 args.reverse

end Term

end TacticEngine
