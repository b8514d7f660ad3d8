/-
# TacticEngine.Proof.Env -- the environment of a declaration.

An environment says which module is being checked and where, how the type checker is to behave, and
which top level definitions are in scope.  Definitions are kept in the order of their names, one per
name, so two environments with the same definitions are equal.
-/
import TacticEngine.Term.Basic

namespace TacticEngine

open Source

variable {β σ : Type}

/-- A top level definition. -/
structure Definition (β σ : Type) where
  /-- What it stands for; an opaque constant has no body. -/
  body : Option (Term β σ)
  /-- Recursive definitions are never unfolded. -/
  recursive : Bool

/-- Definitions by name, in the order of names. -/
abbrev Definitions (β σ : Type) := List (String × Definition β σ)

/-- The environment that terms are checked and run in. -/
structure Env (β σ : Type) where
  /-- The module being checked. -/
  moduleName : String
  /-- The current region of the source. -/
  range : FileSpan := {}
  /-- A metaprogram is running. -/
  inTactic : Bool := false
  /-- The type checker may leave problems to a metaprogram. -/
  enableDefer : Bool := true
  /-- The definitions in scope. -/
  defs : List (String × Definition β σ) := []

/-- Add a definition, or replace the one of that name. -/
def Definitions.insert (name : String) (d : Definition β σ) : Definitions β σ → Definitions β σ
  | [] => [(name, d)]
  | (n, e) :: rest =>
    if name = n then (name, d) :: rest
    else if name < n then (name, d) :: (n, e) :: rest
    else (n, e) :: Definitions.insert name d rest

/-- The definition of a name. -/
def Definitions.find? (defs : Definitions β σ) (name : String) : Option (Definition β σ) :=
  List.lookup name defs

/-- A definition that was just added is found. -/
theorem Definitions.find?_insert_self (name : String) (d : Definition β σ) (defs : Definitions β σ) :
    Definitions.find? (Definitions.insert name d defs) name = some d := by
  induction defs with
  | nil => simp [find?, insert]
  | cons entry rest ih =>
    obtain ⟨n, e⟩ := entry
    by_cases h : name = n
    · simp [find?, insert, h]
    · have hb : (name == n) = false := by simp [h]
      rw [insert, if_neg h]
      split
      · simp [find?]
      · simpa only [find?, List.lookup_cons, hb] using ih

/-- Adding a definition leaves those of other names alone. -/
theorem Definitions.find?_insert_of_ne {name other : String} (h : other ≠ name)
    (d : Definition β σ) (defs : Definitions β σ) :
    Definitions.find? (Definitions.insert name d defs) other = Definitions.find? defs other := by
  have hname : (other == name) = false := by simp [h]
  induction defs with
  | nil => simp [find?, insert, h]
  | cons entry rest ih =>
    obtain ⟨n, e⟩ := entry
    rw [insert]
    split
    · rename_i hn
      subst hn
      simp only [find?, List.lookup_cons, hname]
    · split
      · simp only [find?, List.lookup_cons, hname]
      · simp only [find?, List.lookup_cons] at ih ⊢
        rw [ih]

namespace Env

/-- Add a definition, or replace the one of that name. -/
def define (e : Env β σ) (name : String) (body : Option (Term β σ)) (recursive : Bool) : Env β σ :=
  { e with defs := Definitions.insert name ⟨body, recursive⟩ e.defs }

/-- The definition of a name. -/
def lookup (e : Env β σ) (name : String) : Option (Definition β σ) :=
  Definitions.find? e.defs name

/-- What a name may be unfolded to: the body of its definition, if it has one and is not
recursive. -/
def unfoldable (e : Env β σ) (name : String) : Option (Term β σ) :=
  match e.lookup name with
  | some ⟨some body, false⟩ => some body
  | _ => none

end Env

end TacticEngine
