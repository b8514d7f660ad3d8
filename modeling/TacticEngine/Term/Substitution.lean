/-
# TacticEngine.Term.Substitution -- variables and what is put for them.

One recursion, `mapFree`, rebuilds a term and hands every variable that is free at its place to a
function, together with the number of binders around that place.  Shifting, simultaneous
instantiation and beta reduction are three such functions.  Here indices are natural numbers without
bound; `TacticEngine.Term.Bounded` does the same in machine words.
-/
import TacticEngine.Term.Basic

namespace TacticEngine.Term

variable {β σ : Type}

mutual
/-- Rebuild a term, putting `f k i` for each variable `i` that is free under the `k` binders around
it, that is, with `k ≤ i`. -/
def mapFree (f : Nat → Nat → Term β σ) : Nat → Term β σ → Term β σ
  | k, .bvar i => if k ≤ i then f k i else .bvar i
  | k, .app h args => (mapFree f k h).apps (mapFreeArgs f k args)
  | k, .lam n b => lams n (mapFree f (k + n) b)
  | k, .case s brs => .case (mapFree f k s) (mapFreeBranches f k brs)
  | k, .ascribed a t => .ascribed (mapFree f k a) (mapFree f k t)
  | k, .annotated a n => .annotated (mapFree f k a) n
  | k, .reify a => .reify (mapFree f k a)
  | _, t => t

/-- `mapFree` on each argument. -/
def mapFreeArgs (f : Nat → Nat → Term β σ) : Nat → List (Term β σ) → List (Term β σ)
  | _, [] => []
  | k, a :: as => mapFree f k a :: mapFreeArgs f k as

/-- `mapFree` on the body of each branch, under the variables that its pattern binds. -/
def mapFreeBranches (f : Nat → Nat → Term β σ) :
    Nat → List (Branch (Term β σ)) → List (Branch (Term β σ))
  | _, [] => []
  | k, ⟨p, b⟩ :: brs => ⟨p, mapFree f (k + p.binders) b⟩ :: mapFreeBranches f k brs
end

/-- Raise the variables from `cutoff` on by `amount`. -/
def shift (amount cutoff : Nat) (t : Term β σ) : Term β σ :=
  if amount = 0 then t else mapFree (fun _ i => .bvar (i + amount)) cutoff t

/-- What simultaneous instantiation puts for variable `i` under `k` binders: the value if there is
one, shifted to its new place, and otherwise the variable lowered past the values. -/
def instantiateVar (vals : List (Term β σ)) (k i : Nat) : Term β σ :=
  match vals[i - k]? with
  | some v => v.shift k 0
  | none => .bvar (i - vals.length)

/-- Put `vals` for the variables bound just outside `cutoff` binders: variable `cutoff + j` becomes
`vals[j]`, and the variables beyond are lowered. -/
def instantiate (cutoff : Nat) (vals : List (Term β σ)) (t : Term β σ) : Term β σ :=
  if vals.isEmpty then t else mapFree (instantiateVar vals) cutoff t

/-- The body of a lambda with the arguments of an application, in the order given, put for its
variables. -/
def beta (args : List (Term β σ)) (body : Term β σ) : Term β σ :=
  body.instantiate 0 args.reverse

end TacticEngine.Term
