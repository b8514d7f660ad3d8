/-
# TacticEngine.Proofs.Machine.Heap -- what the two operations on the heap do.

Slots are only ever added, and a slot is filled at most once.  So a heap only grows: what is in a slot
stays there.
-/
import TacticEngine.Machine.Eval

namespace TacticEngine.Machine

variable {β σ α : Type}

namespace Heap

/-- A slot that holds a value is there. -/
theorem lt_size_of_read {h : Heap β σ} {slot : Nat} {v : Value β σ} (hr : h.read slot = some v) :
    slot < h.slots.size := by
  rcases Nat.lt_or_ge slot h.slots.size with hlt | hge
  · exact hlt
  · simp only [read, Array.getElem?_eq_none hge, Option.join_none] at hr
    cases hr

theorem read_empty (i : Nat) : ({} : Heap β σ).read i = none := by
  simp only [read, List.getElem?_toArray, List.getElem?_nil, Option.join_none]

/-! ## Taking slots -/

theorem reserve_eq (m : Slots α) (h : Heap β σ) :
    h.reserve m = ((m h.slots.size).1,
      { slots := h.slots ++ Array.replicate ((m h.slots.size).2 - h.slots.size) none }) := rfl

/-- Taking slots changes no value. -/
@[simp]
theorem read_reserve (m : Slots α) (h : Heap β σ) (i : Nat) :
    (h.reserve m).2.read i = h.read i := by
  simp only [reserve_eq, read, Array.getElem?_append]
  split
  · rfl
  next hle =>
    rw [Array.getElem?_eq_none (Nat.le_of_not_lt hle), Array.getElem?_replicate]
    split <;> rfl

theorem size_reserve (m : Slots α) (h : Heap β σ) :
    (h.reserve m).2.slots.size = h.slots.size + ((m h.slots.size).2 - h.slots.size) := by
  simp [reserve_eq]

/-! ## Filling a slot -/

@[simp]
theorem size_fill (slot : Nat) (v : Value β σ) (h : Heap β σ) :
    (h.fill slot v).2.slots.size = h.slots.size := by
  unfold fill
  split <;> simp

theorem fill_of_read {slot : Nat} {old : Value β σ} {h : Heap β σ} (hr : h.read slot = some old)
    (v : Value β σ) : h.fill slot v = (old, h) := by
  simp [fill, hr]

theorem fill_fst_of_none {slot : Nat} {h : Heap β σ} (hr : h.read slot = none) (v : Value β σ) :
    (h.fill slot v).1 = v := by
  simp [fill, hr]

/-- Filling an empty slot changes that slot only. -/
theorem read_fill_of_none {slot : Nat} {h : Heap β σ} (hr : h.read slot = none) (v : Value β σ)
    (i : Nat) : (h.fill slot v).2.read i =
      if i = slot ∧ slot < h.slots.size then some v else h.read i := by
  simp only [fill, hr]
  simp only [read, Array.getElem?_setIfInBounds]
  by_cases hi : slot = i
  · subst hi
    by_cases hlt : slot < h.slots.size
    · simp [hlt]
    · simp [hlt]
  · rw [if_neg hi, if_neg (fun h => hi h.1.symm)]

end Heap

/-! ## Acts that leave the heap alone -/

/-- The result of an act in the world, with the heap around it. -/
def onHeap (heap : Heap β σ) :
    EStateM.Result (Halt β) (World β σ) α → EStateM.Result (Halt β) (Memory β σ) α
  | .ok a w => .ok a ⟨heap, w⟩
  | .error e w => .error e ⟨heap, w⟩

theorem inWorld_run (act : Act β σ α) (heap : Heap β σ) (w : World β σ) :
    inWorld act ⟨heap, w⟩ = onHeap heap (act w) := by
  simp only [inWorld]
  cases act w <;> rfl

theorem inHeap_run (f : Heap β σ → α × Heap β σ) (heap : Heap β σ) (w : World β σ) :
    inHeap f ⟨heap, w⟩ = .ok (f heap).1 ⟨(f heap).2, w⟩ := rfl

end TacticEngine.Machine
