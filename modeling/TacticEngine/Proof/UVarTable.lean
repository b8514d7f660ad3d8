/-
# TacticEngine.Proof.UVarTable -- tables indexed by placeholders.

Placeholders are numbered in the order in which they are introduced, so a table is a list that only
grows; an entry may be replaced, and is never removed.
-/
import TacticEngine.Text.Quoted

namespace TacticEngine

variable {α : Type}

/-- Items in brackets. -/
def displayList (items : List String) : String :=
  "[" ++ String.intercalate ", " items ++ "]"

/-- A placeholder as it is written. -/
def displayUVar (id : Nat) : String := "?" ++ toString id

/-- A table with an entry for each placeholder. -/
structure UVarTable (α : Type) where
  /-- The entries, that of placeholder 0 first. -/
  entries : List α := []

namespace UVarTable

/-- The entry of a placeholder. -/
def get? (t : UVarTable α) (u : Nat) : Option α := t.entries[u]?

/-- A new placeholder with its entry.  Placeholders are numbered by machine words of 32 bits; a table is taken to
have fewer than `2 ^ 32` entries, and nothing is said of larger ones. -/
def push (t : UVarTable α) (a : α) : Nat × UVarTable α :=
  (t.entries.length, ⟨t.entries ++ [a]⟩)

/-- Replace the entry of a placeholder, if there is one. -/
def modify (t : UVarTable α) (u : Nat) (f : α → α) : UVarTable α :=
  ⟨t.entries.modify u f⟩

/-- A new placeholder has the entry it was introduced with. -/
theorem get?_push_self (t : UVarTable α) (a : α) : (t.push a).2.get? (t.push a).1 = some a := by
  simp [push, get?]

/-- Introducing a placeholder leaves the others alone. -/
theorem get?_push_of_get? {t : UVarTable α} {u : Nat} {b : α} (h : t.get? u = some b) (a : α) :
    (t.push a).2.get? u = some b := by
  obtain ⟨hlt, rfl⟩ := List.getElem?_eq_some_iff.mp h
  simp [push, get?, List.getElem?_append_left hlt]

/-- A replaced entry is the new one. -/
theorem get?_modify_self (t : UVarTable α) (u : Nat) (f : α → α) :
    (t.modify u f).get? u = (t.get? u).map f := by
  simp [modify, get?]

/-- Replacing an entry leaves the others alone. -/
theorem get?_modify_of_ne {u v : Nat} (h : u ≠ v) (t : UVarTable α) (f : α → α) :
    (t.modify u f).get? v = t.get? v := by
  simp [modify, get?, h]

/-- A table of texts as it is shown. -/
def display (t : UVarTable String) : String :=
  "UVarVec(" ++ displayList (t.entries.map Text.quote) ++ ")"

end UVarTable

end TacticEngine
