/-
# TacticEngine.Term.Basic -- the object language.

Metaprograms and their data are terms of a small untyped language with de Bruijn indices.  A lambda
binds any number of variables at once; the last argument of an application to it is variable 0 of
its body.  A branch of a case distinction binds the fields of its constructor in the same way.

Terms carry two kinds of native values that the language itself never looks into: an `Object` is a
value with an identity, and a `Step` is a natively implemented function.  Their contents are the
parameters `β` and `σ`, so that everything said about terms holds whatever the host puts there.  Both
are equal only to themselves, which is to say that equality looks at their identity alone.

Applications are kept flat by `apps`, and a lambda that binds nothing is its body by `lams`.
-/
import TacticEngine.Source.Span

namespace TacticEngine

open Source

/-! ## Literals, annotations and patterns -/

/-- A literal constant. -/
inductive Literal where
  /-- The unit value. -/
  | unit
  /-- A truth value. -/
  | bool (b : Bool)
  /-- An integer of any size. -/
  | int (n : Int)
  /-- A string. -/
  | string (s : String)
  deriving Repr, DecidableEq, Inhabited

/-- What may be attached to a term without changing what it computes. -/
inductive Annotation where
  /-- Where in the source the term comes from. -/
  | span (region : FileSpan)
  /-- The term is the lifted form of a computation in the named effect. -/
  | monadic (effect : String)
  deriving Repr, BEq

/-- The pattern of a branch. -/
inductive Pattern where
  /-- A constructor with `fields` fields, each of which the branch binds. -/
  | ctor (name : String) (fields : Nat)
  /-- A literal; binds nothing. -/
  | lit (l : Literal)
  /-- Binds the value that is matched. -/
  | var
  /-- Matches everything and binds nothing. -/
  | wild
  deriving Repr, DecidableEq

/-- How many variables a branch with this pattern binds. -/
def Pattern.binders : Pattern → Nat
  | .ctor _ n => n
  | .var => 1
  | .lit _ | .wild => 0

/-- A branch of a case distinction, with a body of any sort. -/
structure Branch (α : Type) where
  /-- The pattern. -/
  pat : Pattern
  /-- The body, under as many new variables as the pattern binds. -/
  body : α
  deriving Repr

/-! ## Native values -/

/-- What sort of native value a blob holds. -/
inductive BlobKind where
  /-- A proof state. -/
  | proofState
  /-- A goal. -/
  | goal
  /-- An environment. -/
  | env
  /-- An issue. -/
  | error
  /-- A value of the host that is only passed on. -/
  | foreign
  deriving Repr, DecidableEq

/-- The printed name of a kind. -/
def BlobKind.display : BlobKind → String
  | .proofState => "ProofState"
  | .goal => "Goal"
  | .env => "Env"
  | .error => "Error"
  | .foreign => "Opaque"

/-- A native value with an identity. -/
structure Object (β : Type) where
  /-- The identity: two objects are one exactly if these agree. -/
  id : Nat
  /-- The value. -/
  content : β

/-- A native value embedded in a term, under a kind.  Nothing forces the content to be of the
announced kind; whoever takes it out has to look. -/
structure Blob (β : Type) where
  /-- What the content is announced to be. -/
  kind : BlobKind
  /-- The embedded value. -/
  object : Object β

/-- Blobs are the same if they hold one object under one kind. -/
def Blob.same {β : Type} (a b : Blob β) : Bool :=
  a.kind == b.kind && a.object.id == b.object.id

/-- Properties of a step, for evaluators that reduce under binders. -/
structure StepFlags where
  /-- The step may fire under binders. -/
  strongReductionOk : Bool := false
  /-- The result is carried over into the object language without further ado. -/
  autoReflect : Bool := false
  deriving Repr, DecidableEq

/-- A natively implemented function of fixed arity.  Its `body` says what it does; what a body is,
the host decides. -/
structure Step (σ : Type) where
  /-- The identity: a step is equal only to itself. -/
  id : Nat
  /-- The constant that the step implements. -/
  name : String
  /-- How many arguments it takes to fire. -/
  arity : Nat
  /-- Its properties. -/
  flags : StepFlags
  /-- What it does. -/
  body : σ

/-! ## Terms -/

/-- A term of the object language. -/
inductive Term (β σ : Type) where
  /-- A top level definition or a primitive, by name. -/
  | const (name : String)
  /-- A data constructor. -/
  | ctor (name : String)
  /-- A bound variable. -/
  | bvar (index : Nat)
  /-- A free variable. -/
  | free (name : String)
  /-- A placeholder for a term still to be found. -/
  | uvar (id : Nat)
  /-- A literal. -/
  | lit (l : Literal)
  /-- A term applied to arguments. -/
  | app (head : Term β σ) (args : List (Term β σ))
  /-- A function of `arity` arguments. -/
  | lam (arity : Nat) (body : Term β σ)
  /-- A case distinction; the first branch that matches is taken. -/
  | case (scrutinee : Term β σ) (branches : List (Branch (Term β σ)))
  /-- A term with its type. -/
  | ascribed (body type : Term β σ)
  /-- A term with an annotation. -/
  | annotated (body : Term β σ) (note : Annotation)
  /-- The reified form of a computation. -/
  | reify (body : Term β σ)
  /-- An embedded native value. -/
  | blob (b : Blob β)
  /-- A native function without a name in the language. -/
  | native (s : Step σ)

namespace Term

variable {β σ : Type}

instance : Inhabited (Term β σ) := ⟨.lit .unit⟩

/-- The unit literal. -/
def unit : Term β σ := .lit .unit

/-- Apply a term to further arguments: those of an application come first, and no arguments at all
leave the term as it is. -/
def apps : Term β σ → List (Term β σ) → Term β σ
  | t, [] => t
  | .app h as, b :: bs => .app h (as ++ b :: bs)
  | t, b :: bs => .app t (b :: bs)

/-- No arguments leave a term as it is. -/
@[simp]
theorem apps_nil (t : Term β σ) : t.apps [] = t := by
  cases t <;> rfl

/-- Arguments may be given in one go or in two. -/
theorem apps_apps (t : Term β σ) (as bs : List (Term β σ)) :
    (t.apps as).apps bs = t.apps (as ++ bs) := by
  cases bs with
  | nil => simp
  | cons b bs =>
    cases as with
    | nil => simp
    | cons a as => cases t <;> simp [apps]

/-- Bind `n` variables; binding none leaves the body as it is. -/
def lams : Nat → Term β σ → Term β σ
  | 0, body => body
  | n + 1, body => .lam (n + 1) body

/-- Strip annotations and ascriptions from the outside of a term. -/
def strip : Term β σ → Term β σ
  | .annotated t _ => strip t
  | .ascribed t _ => strip t
  | t => t

/-- Stripped terms have nothing left to strip. -/
@[simp]
theorem strip_strip (t : Term β σ) : t.strip.strip = t.strip := by
  fun_induction strip t with
  | case1 t _ ih => exact ih
  | case2 t _ ih => exact ih
  | case3 t h₁ h₂ => cases t <;> simp_all [strip]

/-- Head and arguments; a term that is no application is its own head. -/
def headArgs : Term β σ → Term β σ × List (Term β σ)
  | .app h args => (h, args)
  | t => (t, [])

/-- A constructor with its arguments, seen through wrappers of the term and of its head. -/
def asCtorApp? (t : Term β σ) : Option (String × List (Term β σ)) :=
  match t.strip.headArgs with
  | (h, args) =>
    match h.strip with
    | .ctor c => some (c, args)
    | _ => none

/-- A literal, seen through wrappers. -/
def asLit? (t : Term β σ) : Option Literal :=
  match t.strip with
  | .lit l => some l
  | _ => none

/-- A blob of the given kind, seen through wrappers. -/
def asBlob? (kind : BlobKind) (t : Term β σ) : Option (Blob β) :=
  match t.strip with
  | .blob b => if b.kind = kind then some b else none
  | _ => none

/-! ## Equality -/

mutual
/-- Equality of terms: by structure, with blobs and native steps equal only to themselves.  Lists
of different lengths differ without a look at their items. -/
def same : Term β σ → Term β σ → Bool
  | .const a, .const b => a == b
  | .ctor a, .ctor b => a == b
  | .bvar i, .bvar j => i == j
  | .free a, .free b => a == b
  | .uvar u, .uvar v => u == v
  | .lit a, .lit b => a == b
  | .app f as, .app g bs => f.same g && as.length == bs.length && sameArgs as bs
  | .lam m a, .lam n b => m == n && a.same b
  | .case s as, .case t bs => s.same t && as.length == bs.length && sameBranches as bs
  | .ascribed a s, .ascribed b t => a.same b && s.same t
  | .annotated a m, .annotated b n => a.same b && m == n
  | .reify a, .reify b => a.same b
  | .blob a, .blob b => a.same b
  | .native s, .native t => s.id == t.id
  | _, _ => false

/-- Equality of argument lists. -/
def sameArgs : List (Term β σ) → List (Term β σ) → Bool
  | [], [] => true
  | a :: as, b :: bs => a.same b && sameArgs as bs
  | _, _ => false

/-- Equality of branches. -/
def sameBranches : List (Branch (Term β σ)) → List (Branch (Term β σ)) → Bool
  | [], [] => true
  | ⟨p, a⟩ :: as, ⟨q, b⟩ :: bs => p == q && a.same b && sameBranches as bs
  | _, _ => false
end

instance : BEq (Term β σ) := ⟨same⟩

/-! ## Subterms -/

mutual
/-- A term and all its subterms, those under binders too, from the outside in and from left to
right.  Contents of blobs are not looked into. -/
def subterms : Term β σ → List (Term β σ)
  | .app h args => .app h args :: (h.subterms ++ subtermsArgs args)
  | .lam n b => .lam n b :: b.subterms
  | .case s brs => .case s brs :: (s.subterms ++ subtermsBranches brs)
  | .ascribed a t => .ascribed a t :: (a.subterms ++ t.subterms)
  | .annotated a n => .annotated a n :: a.subterms
  | .reify a => .reify a :: a.subterms
  | t => [t]

/-- The subterms of the arguments. -/
def subtermsArgs : List (Term β σ) → List (Term β σ)
  | [] => []
  | a :: as => a.subterms ++ subtermsArgs as

/-- The subterms of the bodies of branches. -/
def subtermsBranches : List (Branch (Term β σ)) → List (Term β σ)
  | [] => []
  | ⟨_, b⟩ :: brs => b.subterms ++ subtermsBranches brs
end

mutual
/-- Some subterm satisfies `p`.  The search goes in the order of `subterms` and ends at the first
hit. -/
def anySubterm (p : Term β σ → Bool) : Term β σ → Bool
  | .app h args => p (.app h args) || h.anySubterm p || anySubtermArgs p args
  | .lam n b => p (.lam n b) || b.anySubterm p
  | .case s brs => p (.case s brs) || s.anySubterm p || anySubtermBranches p brs
  | .ascribed a t => p (.ascribed a t) || a.anySubterm p || t.anySubterm p
  | .annotated a n => p (.annotated a n) || a.anySubterm p
  | .reify a => p (.reify a) || a.anySubterm p
  | t => p t

/-- Some subterm of an argument satisfies `p`. -/
def anySubtermArgs (p : Term β σ → Bool) : List (Term β σ) → Bool
  | [] => false
  | a :: as => a.anySubterm p || anySubtermArgs p as

/-- Some subterm of the body of a branch satisfies `p`. -/
def anySubtermBranches (p : Term β σ → Bool) : List (Branch (Term β σ)) → Bool
  | [] => false
  | ⟨_, b⟩ :: brs => b.anySubterm p || anySubtermBranches p brs
end

mutual
/-- The search finds what the list of all subterms holds. -/
theorem anySubterm_eq_any (p : Term β σ → Bool) : ∀ t, anySubterm p t = t.subterms.any p
  | .app h args => by
    simp [anySubterm, subterms, anySubterm_eq_any p h, anySubtermArgs_eq_any p args, Bool.or_assoc]
  | .lam _ b => by simp [anySubterm, subterms, anySubterm_eq_any p b]
  | .case s brs => by
    simp [anySubterm, subterms, anySubterm_eq_any p s, anySubtermBranches_eq_any p brs,
      Bool.or_assoc]
  | .ascribed a t => by
    simp [anySubterm, subterms, anySubterm_eq_any p a, anySubterm_eq_any p t, Bool.or_assoc]
  | .annotated a _ => by simp [anySubterm, subterms, anySubterm_eq_any p a]
  | .reify a => by simp [anySubterm, subterms, anySubterm_eq_any p a]
  | .const _ | .ctor _ | .bvar _ | .free _ | .uvar _ | .lit _ | .blob _ | .native _ => by
    simp [anySubterm, subterms]

theorem anySubtermArgs_eq_any (p : Term β σ → Bool) :
    ∀ as, anySubtermArgs p as = (subtermsArgs as).any p
  | [] => rfl
  | a :: as => by
    simp [anySubtermArgs, subtermsArgs, anySubterm_eq_any p a, anySubtermArgs_eq_any p as]

theorem anySubtermBranches_eq_any (p : Term β σ → Bool) :
    ∀ brs, anySubtermBranches p brs = (subtermsBranches brs).any p
  | [] => rfl
  | ⟨_, b⟩ :: brs => by
    simp [anySubtermBranches, subtermsBranches, anySubterm_eq_any p b,
      anySubtermBranches_eq_any p brs]
end

/-- The subterms that a search for `p` looks at: all up to the first hit, the hit included. -/
def searched (p : Term β σ → Bool) (t : Term β σ) : List (Term β σ) :=
  let missed := t.subterms.takeWhile (!p ·)
  missed ++ (t.subterms.drop missed.length).take 1

end Term

end TacticEngine
