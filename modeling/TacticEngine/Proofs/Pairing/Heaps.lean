/-
# TacticEngine.Proofs.Pairing.Heaps -- heaps of two evaluations.

The contents of slots that belong together are paired.  The slots that the code of a suspended term took early are
set aside for it: until the term has been evaluated, they are empty, and they belong to no other slots.

When two evaluations go on beside each other, more and more slots belong together, all of which are new; or they have
been set aside.  All other slots stay as they are (`Pairing.Grows`).  That frame is what a computation needs that has
slots of its own.
-/
import TacticEngine.Proofs.Likeness.State
import TacticEngine.Proofs.Pairing.Values

namespace TacticEngine.Machine

variable {β σ α γ : Type}

namespace Pairing

variable (steps : StepTable σ) (π : Pairing β σ)

/-- The slot is one of those that the code of the term takes, from the given one on. -/
def Within (t : Term β σ) (b i : Nat) : Prop := b ≤ i ∧ i < (compile steps t b).2

/-- The slot has been set aside for code that was made early. -/
def SetAside (i : Nat) : Prop := ∃ s b t, π.early s b t ∧ Within steps t b i

/-- Slots that belong together have paired contents. -/
structure Contents (h h' : Heap β σ) : Prop where
  lt : ∀ {s s'}, π.pairs s s' → s < h.slots.size ∧ s' < h'.slots.size
  unique : ∀ {s s' i i'}, π.pairs s s' → π.pairs i i' → (s = i ↔ s' = i')
  read : ∀ {s s'}, π.pairs s s' → Option.Rel (Value.Paired steps π) (h.read s) (h'.read s')

/-- The slots that have been set aside are spare, as long as they are needed. -/
structure Reserve (h : Heap β σ) : Prop where
  kept : ∀ {s b t}, π.early s b t → ∃ s', π.pairs s s'
  lt : ∀ {i}, π.SetAside steps i → i < h.slots.size
  spare : ∀ {s b t i}, π.early s b t → Within steps t b i → h.read s = none →
    h.read i = none ∧ ∀ j, ¬ π.pairs i j
  apart : ∀ {s b t r c u i}, π.early s b t → π.early r c u → Within steps t b i → Within steps u c i → s = r

/-- The heaps that two evaluations have, beside each other. -/
structure Heaps (h h' : Heap β σ) : Prop where
  contents : π.Contents steps h h'
  reserve : π.Reserve steps h

/-- Heaps that have been paired go on to others, with more pairs. -/
structure Grows (h h' : Heap β σ) (π' : Pairing β σ) (k k' : Heap β σ) : Prop where
  size : h.slots.size ≤ k.slots.size
  size' : h'.slots.size ≤ k'.slots.size
  early : π'.early = π.early
  old : ∀ {s s'}, π.pairs s s' → π'.pairs s s'
  new : ∀ {s s'}, π'.pairs s s' →
    π.pairs s s' ∨ (h.slots.size ≤ s ∨ π.SetAside steps s) ∧ h'.slots.size ≤ s'
  frame : ∀ {i}, i < h.slots.size → (∀ j, ¬ π.pairs i j) → ¬ π.SetAside steps i → k.read i = h.read i
  frame' : ∀ {j}, j < h'.slots.size → (∀ i, ¬ π.pairs i j) → k'.read j = h'.read j

variable {steps} {π} {h h' k k' l l' : Heap β σ} {π' π'' : Pairing β σ}

theorem Grows.le (g : π.Grows steps h h' π' k k') : π.Le π' := ⟨g.old, fun he => g.early ▸ he⟩

theorem Grows.setAside_iff (g : π.Grows steps h h' π' k k') {i : Nat} :
    π'.SetAside steps i ↔ π.SetAside steps i := by rw [SetAside, SetAside, g.early]

/-- A slot that nothing belongs to and that has not been set aside stays like that. -/
theorem Grows.unpaired (g : π.Grows steps h h' π' k k') {i : Nat} (hi : i < h.slots.size)
    (hfree : ∀ j, ¬ π.pairs i j) (haside : ¬ π.SetAside steps i) (j : Nat) : ¬ π'.pairs i j := by
  intro hij
  rcases g.new hij with hold | ⟨hnew | hnew, -⟩
  · exact hfree j hold
  · omega
  · exact haside hnew

theorem Grows.unpaired' (g : π.Grows steps h h' π' k k') {j : Nat} (hj : j < h'.slots.size)
    (hfree : ∀ i, ¬ π.pairs i j) (i : Nat) : ¬ π'.pairs i j := by
  intro hij
  rcases g.new hij with hold | ⟨-, hnew⟩
  · exact hfree i hold
  · omega

theorem Grows.refl (π : Pairing β σ) (h h' : Heap β σ) : π.Grows steps h h' π h h' where
  size := Nat.le_refl _
  size' := Nat.le_refl _
  early := rfl
  old := id
  new := .inl
  frame _ _ _ := rfl
  frame' _ _ := rfl

theorem Grows.trans (g : π.Grows steps h h' π' k k') (g' : π'.Grows steps k k' π'' l l') :
    π.Grows steps h h' π'' l l' where
  size := Nat.le_trans g.size g'.size
  size' := Nat.le_trans g.size' g'.size'
  early := g'.early.trans g.early
  old hs := g'.old (g.old hs)
  new := by
    intro s s' hs
    rcases g'.new hs with hs | ⟨hs, hs'⟩
    · exact g.new hs
    · refine .inr ⟨?_, Nat.le_trans g.size' hs'⟩
      exact hs.imp (Nat.le_trans g.size) g.setAside_iff.mp
  frame := by
    intro i hi hfree haside
    rw [← g.frame hi hfree haside]
    exact g'.frame (Nat.lt_of_lt_of_le hi g.size) (g.unpaired hi hfree haside) (mt g.setAside_iff.mp haside)
  frame' := by
    intro j hj hfree
    rw [← g.frame' hj hfree]
    exact g'.frame' (Nat.lt_of_lt_of_le hj g.size') (g.unpaired' hj hfree)

/-! ## Taking slots -/

/-- More slots belong together, from the given ones on. -/
def extend (π : Pairing β σ) (n n' w : Nat) : Pairing β σ where
  pairs s s' := π.pairs s s' ∨ ∃ i < w, s = n + i ∧ s' = n' + i
  early := π.early

theorem le_extend (n n' w : Nat) : π.Le (π.extend n n' w) := ⟨.inl, id⟩

theorem read_of_ge {h : Heap β σ} {i : Nat} (hi : h.slots.size ≤ i) : h.read i = none := by
  rw [Heap.read, Array.getElem?_eq_none hi, Option.join_none]

/-- More slots make no difference to what belongs together. -/
theorem Heaps.more (hh : π.Heaps steps h h') (hk : h.slots.size ≤ k.slots.size)
    (hk' : h'.slots.size ≤ k'.slots.size) (hread : ∀ i, k.read i = h.read i) (hread' : ∀ i, k'.read i = h'.read i) :
    π.Heaps steps k k' where
  contents := {
    lt := fun hs => ⟨Nat.lt_of_lt_of_le (hh.contents.lt hs).1 hk, Nat.lt_of_lt_of_le (hh.contents.lt hs).2 hk'⟩
    unique := hh.contents.unique
    read := fun hs => by
      rw [hread, hread']
      exact hh.contents.read hs }
  reserve := {
    kept := hh.reserve.kept
    lt := fun hi => Nat.lt_of_lt_of_le (hh.reserve.lt hi) hk
    spare := fun he hi hs => by
      rw [hread] at hs ⊢
      exact hh.reserve.spare he hi hs
    apart := hh.reserve.apart }

/-- New slots on the left may be taken to belong to empty slots on the right to which nothing belongs. -/
theorem Contents.extend (hc : π.Contents steps h h') {n' w : Nat} (hk : h.slots.size + w ≤ k.slots.size)
    (hk' : h'.slots.size ≤ k'.slots.size) (hread : ∀ i, k.read i = h.read i) (hread' : ∀ i, k'.read i = h'.read i)
    (hnew : ∀ i < w, n' + i < k'.slots.size ∧ h'.read (n' + i) = none ∧ ∀ s, ¬ π.pairs s (n' + i)) :
    (π.extend h.slots.size n' w).Contents steps k k' where
  lt := by
    rintro s s' (hs | ⟨i, hi, rfl, rfl⟩)
    · have hlt := hc.lt hs
      omega
    · exact ⟨by omega, (hnew i hi).1⟩
  unique := by
    -- an old slot differs from a new one on the left by its number, and on the right because something belongs to it
    rintro s s' r r' (hs | ⟨i, hi, rfl, rfl⟩) (hr | ⟨j, hj, rfl, rfl⟩)
    · exact hc.unique hs hr
    · have hlt := hc.lt hs
      refine ⟨fun heq => by omega, fun heq => ?_⟩
      exact absurd (heq ▸ hs) ((hnew j hj).2.2 s)
    · have hlt := hc.lt hr
      refine ⟨fun heq => by omega, fun heq => ?_⟩
      exact absurd (heq ▸ hr) ((hnew i hi).2.2 r)
    · omega
  read := by
    rintro s s' (hs | ⟨i, hi, rfl, rfl⟩)
    · rw [hread, hread']
      exact rel_imp (fun _ _ hv => hv.mono (le_extend _ _ _)) (hc.read hs)
    · rw [hread, hread', read_of_ge (Nat.le_add_right _ _), (hnew i hi).2.1]
      exact .none

theorem Reserve.extend (hr : π.Reserve steps h) (n' w : Nat) (hk : h.slots.size ≤ k.slots.size)
    (hread : ∀ i, k.read i = h.read i) : (π.extend h.slots.size n' w).Reserve steps k where
  kept he := by
    obtain ⟨s', hs'⟩ := hr.kept he
    exact ⟨s', .inl hs'⟩
  lt hi := Nat.lt_of_lt_of_le (hr.lt hi) hk
  spare := by
    intro s b t i he hi hs
    rw [hread] at hs
    obtain ⟨hempty, hfree⟩ := hr.spare he hi hs
    have hlt := hr.lt ⟨s, b, t, he, hi⟩
    refine ⟨(hread i).trans hempty, ?_⟩
    rintro j (hj | ⟨w, -, rfl, -⟩)
    · exact hfree j hj
    · omega
  apart := hr.apart

/-- New slots on both sides belong together. -/
theorem Heaps.extend (hh : π.Heaps steps h h') {w : Nat} (hk : h.slots.size + w ≤ k.slots.size)
    (hk' : h'.slots.size + w ≤ k'.slots.size) (hread : ∀ i, k.read i = h.read i)
    (hread' : ∀ i, k'.read i = h'.read i) :
    (π.extend h.slots.size h'.slots.size w).Heaps steps k k' ∧
      π.Grows steps h h' (π.extend h.slots.size h'.slots.size w) k k' where
  left := by
    refine ⟨hh.contents.extend hk (by omega) hread hread' fun i hi => ⟨by omega, ?_, fun s hs => ?_⟩,
      hh.reserve.extend _ _ (by omega) hread⟩
    · exact read_of_ge (Nat.le_add_right _ _)
    · have hlt := hh.contents.lt hs
      omega
  right := {
    size := by omega
    size' := by omega
    early := rfl
    old := .inl
    new := by
      rintro s s' (hs | ⟨i, hi, rfl, rfl⟩)
      · exact .inl hs
      · exact .inr ⟨.inl (Nat.le_add_right _ _), Nat.le_add_right _ _⟩
    frame := fun _ _ _ => hread _
    frame' := fun _ _ => hread' _ }

/-! ## Filling slots -/

section

variable {s s' : Nat} {v v' : Value β σ}

/-- Slots that belong together are filled with paired values. -/
theorem Contents.fill (hc : π.Contents steps h h') (hs : π.pairs s s') (hv : Value.Paired steps π v v') :
    Value.Paired steps π (h.fill s v).1 (h'.fill s' v').1 ∧ π.Contents steps (h.fill s v).2 (h'.fill s' v').2 := by
  have hold := hc.read hs
  generalize hx : h.read s = x at hold
  generalize hx' : h'.read s' = x' at hold
  cases hold with
  | some hu =>
      -- full slots keep what is in them, and both are full
      rw [Heap.fill_of_read hx, Heap.fill_of_read hx']
      exact ⟨hu, hc⟩
  | none =>
      obtain ⟨hlt, hlt'⟩ := hc.lt hs
      rw [Heap.fill_fst_of_none hx, Heap.fill_fst_of_none hx']
      refine ⟨hv, fun hi => ?_, hc.unique, fun {i i'} hi => ?_⟩
      · rw [Heap.size_fill, Heap.size_fill]
        exact hc.lt hi
      · rw [Heap.read_fill_of_none hx, Heap.read_fill_of_none hx']
        have hiff := hc.unique hi hs
        by_cases his : i = s
        · rw [if_pos ⟨his, hlt⟩, if_pos ⟨hiff.mp his, hlt'⟩]
          exact .some hv
        · rw [if_neg fun h => his h.1, if_neg fun h => his (hiff.mpr h.1)]
          exact hc.read hi

theorem read_fill_of_ne {i : Nat} (hi : i ≠ s) : (h.fill s v).2.read i = h.read i := by
  cases hx : h.read s with
  | some u => rw [Heap.fill_of_read hx]
  | none => rw [Heap.read_fill_of_none hx, if_neg fun h => hi h.1]

/-- Filling a slot does not empty one. -/
theorem read_of_read_fill {i : Nat} (hi : (h.fill s v).2.read i = none) : h.read i = none := by
  cases hx : h.read s with
  | some u => rwa [Heap.fill_of_read hx] at hi
  | none =>
      by_cases his : i = s
      · rw [his, hx]
      · rwa [read_fill_of_ne his] at hi

theorem Reserve.fill (hr : π.Reserve steps h) (hs : π.pairs s s') : π.Reserve steps (h.fill s v).2 where
  kept := hr.kept
  lt hi := by
    rw [Heap.size_fill]
    exact hr.lt hi
  spare := by
    intro r b t i he hi hread
    obtain ⟨hempty, hfree⟩ := hr.spare he hi (read_of_read_fill hread)
    -- nothing belongs to a spare slot, but something does to the one that is filled
    have hne : i ≠ s := by
      rintro rfl
      exact hfree s' hs
    exact ⟨(read_fill_of_ne hne).trans hempty, hfree⟩
  apart := hr.apart

theorem Grows.fill (g : π.Grows steps h h' π' k k') (hs : π.pairs s s') :
    π.Grows steps h h' π' (k.fill s v).2 (k'.fill s' v').2 where
  size := by
    rw [Heap.size_fill]
    exact g.size
  size' := by
    rw [Heap.size_fill]
    exact g.size'
  early := g.early
  old := g.old
  new := g.new
  frame := by
    intro i hi hfree haside
    have hne : i ≠ s := by
      rintro rfl
      exact hfree s' hs
    rw [read_fill_of_ne hne]
    exact g.frame hi hfree haside
  frame' := by
    intro j hj hfree
    have hne : j ≠ s' := by
      rintro rfl
      exact hfree s hs
    rw [read_fill_of_ne hne]
    exact g.frame' hj hfree

end

/-! ## Slots of its own -/

/-- Nothing belongs together. -/
def empty : Pairing β σ where
  pairs _ _ := False
  early _ _ _ := False

/-- What belongs together in either pairing; no more code has been made early than in the first one. -/
def join (π ρ : Pairing β σ) : Pairing β σ where
  pairs s s' := π.pairs s s' ∨ ρ.pairs s s'
  early := π.early

theorem le_join (π ρ : Pairing β σ) : π.Le (π.join ρ) := ⟨.inl, id⟩

section

variable {t : Term β σ} {b w s s' : Nat} {ρ : Pairing β σ}

theorem within_iff (hw : (compile steps t b).2 = b + w) {i : Nat} :
    Within steps t b i ↔ ∃ j < w, i = b + j := by
  rw [Within, hw]
  constructor
  · rintro ⟨hle, hlt⟩
    exact ⟨i - b, by omega, by omega⟩
  · rintro ⟨j, hj, rfl⟩
    omega

theorem not_setAside_own {n' i : Nat} : ¬ (empty.extend b n' w : Pairing β σ).SetAside steps i := by
  rintro ⟨_, _, _, he, -⟩
  exact he

/-- Slots that are empty on both sides may be taken to belong together. -/
theorem heaps_own (hlt : ∀ i < w, b + i < h.slots.size) (hsize : k'.slots.size = h'.slots.size + w)
    (hread : ∀ i < w, h.read (b + i) = none) (hread' : ∀ j, k'.read j = h'.read j) :
    (empty.extend b h'.slots.size w : Pairing β σ).Heaps steps h k' where
  contents := {
    lt := by
      rintro s s' (hs | ⟨i, hi, rfl, rfl⟩)
      · exact hs.elim
      · exact ⟨hlt i hi, by omega⟩
    unique := by
      rintro s s' r r' (hs | ⟨i, hi, rfl, rfl⟩) (hr | ⟨j, hj, rfl, rfl⟩)
      · exact hs.elim
      · exact hs.elim
      · exact hr.elim
      · omega
    read := by
      rintro s s' (hs | ⟨i, hi, rfl, rfl⟩)
      · exact hs.elim
      · rw [hread i hi, hread', read_of_ge (Nat.le_add_right _ _)]
        exact .none }
  reserve := {
    kept := False.elim
    lt := fun hi => absurd hi not_setAside_own
    spare := False.elim
    apart := False.elim }

variable (hh : π.Heaps steps h h') (hs : π.pairs s s') (he : π.early s b t)
  (hw : (compile steps t b).2 = b + w) (hsize : k'.slots.size = h'.slots.size + w)
  (hread' : ∀ j, k'.read j = h'.read j)
  (g : (empty.extend b h'.slots.size w : Pairing β σ).Grows steps h k' ρ l l')

include g in
theorem Grows.own_le : ρ.Le (π.join ρ) where
  pairs := .inr
  early he := by
    rw [g.early] at he
    exact he.elim

include hh he hw hsize g

/-- Slots of its own are all that a computation has to do with. -/
theorem Heaps.own_new (hempty : h.read s = none) {r r' : Nat} (hr : ρ.pairs r r') :
    (h.slots.size ≤ r ∨ Within steps t b r) ∧ (∀ j, ¬ π.pairs r j) ∧ h'.slots.size ≤ r' := by
  have hblock (i : Nat) (hi : i < w) := hh.reserve.spare he ((within_iff hw).mpr ⟨i, hi, rfl⟩) hempty
  have hfresh (hr : h.slots.size ≤ r) (j : Nat) : ¬ π.pairs r j := fun hj => by
    have hlt := hh.contents.lt hj
    omega
  rcases g.new hr with (hr | ⟨i, hi, rfl, rfl⟩) | ⟨hr | hr, hr'⟩
  · exact hr.elim
  · exact ⟨.inr ((within_iff hw).mpr ⟨i, hi, rfl⟩), (hblock i hi).2, Nat.le_add_right _ _⟩
  · exact ⟨.inl hr, hfresh hr, by omega⟩
  · exact absurd hr not_setAside_own

omit hh he hsize in
theorem Grows.own_frame {i : Nat} (hi : i < h.slots.size) (hout : ¬ Within steps t b i) :
    l.read i = h.read i := by
  refine g.frame hi (fun j hj => ?_) not_setAside_own
  rcases hj with hj | ⟨x, hx, rfl, -⟩
  · exact hj
  · exact hout ((within_iff hw).mpr ⟨x, hx, rfl⟩)

omit hh he hw in
include hread' in
theorem Grows.own_frame' {j : Nat} (hj : j < h'.slots.size) : l'.read j = h'.read j := by
  rw [← hread' j]
  refine g.frame' (by omega) fun i hi => ?_
  rcases hi with hi | ⟨x, -, -, rfl⟩
  · exact hi
  · omega

include hread'

/-- What belonged together before is as it was. -/
theorem Heaps.own_old (hempty : h.read s = none) {i j : Nat} (hij : π.pairs i j) :
    l.read i = h.read i ∧ l'.read j = h'.read j := by
  obtain ⟨hi, hj⟩ := hh.contents.lt hij
  have hout : ¬ Within steps t b i := fun hin => (hh.reserve.spare he hin hempty).2 j hij
  exact ⟨g.own_frame hw hi hout, g.own_frame' hsize hread' hj⟩

theorem Heaps.own_contents (hempty : h.read s = none) (hρ : ρ.Contents steps l l') :
    (π.join ρ).Contents steps l l' := by
  have hnew {r r' : Nat} (hr : ρ.pairs r r') := hh.own_new he hw hsize g hempty hr
  have hsizes : h.slots.size ≤ l.slots.size ∧ h'.slots.size ≤ l'.slots.size :=
    ⟨g.size, Nat.le_trans (by omega) g.size'⟩
  refine ⟨?_, ?_, ?_⟩
  · rintro r r' (hr | hr)
    · have hlt := hh.contents.lt hr
      omega
    · exact hρ.lt hr
  · -- its own slots are new or were set aside, so nothing belonged to them before
    rintro r r' i i' (hr | hr) (hi | hi)
    · exact hh.contents.unique hr hi
    · have hlt := hh.contents.lt hr
      obtain ⟨-, hfree, hge⟩ := hnew hi
      refine ⟨fun heq => ?_, fun heq => by omega⟩
      subst heq
      exact absurd hr (hfree r')
    · have hlt := hh.contents.lt hi
      obtain ⟨-, hfree, hge⟩ := hnew hr
      refine ⟨fun heq => ?_, fun heq => by omega⟩
      subst heq
      exact absurd hi (hfree i')
    · exact hρ.unique hr hi
  · rintro r r' (hr | hr)
    · obtain ⟨hl, hl'⟩ := hh.own_old he hw hsize hread' g hempty hr
      rw [hl, hl']
      exact rel_imp (fun _ _ hv => hv.mono (le_join _ _)) (hh.contents.read hr)
    · exact rel_imp (fun _ _ hv => hv.mono g.own_le) (hρ.read hr)

include hs

theorem Heaps.own_reserve (hempty : h.read s = none) (v : Value β σ) :
    (π.join ρ).Reserve steps (l.fill s v).2 where
  kept hr := by
    obtain ⟨r', hr'⟩ := hh.reserve.kept hr
    exact ⟨r', .inl hr'⟩
  lt hi := by
    rw [Heap.size_fill]
    exact Nat.lt_of_lt_of_le (hh.reserve.lt hi) g.size
  spare := by
    intro r c u i hr hi hread
    have hls : l.read s = none := (hh.own_old he hw hsize hread' g hempty hs).1.trans hempty
    -- the slot that has just been filled needs its code no more
    have hrs : r ≠ s := by
      rintro rfl
      rw [Heap.read_fill_of_none hls,
        if_pos ⟨rfl, Nat.lt_of_lt_of_le (hh.contents.lt hs).1 g.size⟩] at hread
      cases hread
    obtain ⟨r', hr'⟩ := hh.reserve.kept hr
    have hold := (hh.own_old he hw hsize hread' g hempty hr').1
    rw [read_fill_of_ne hrs, hold] at hread
    obtain ⟨hspare, hfree⟩ := hh.reserve.spare hr hi hread
    have hlt : i < h.slots.size := hh.reserve.lt ⟨r, c, u, hr, hi⟩
    -- and what has been set aside for others is none of its own slots
    have hout : ¬ Within steps t b i := fun hin => hrs (hh.reserve.apart hr he hi hin)
    have his : i ≠ s := by
      rintro rfl
      exact hfree s' hs
    refine ⟨?_, ?_⟩
    · rw [read_fill_of_ne his, g.own_frame hw hlt hout]
      exact hspare
    · rintro j (hj | hj)
      · exact hfree j hj
      · rcases (hh.own_new he hw hsize g hempty hj).1 with hge | hin
        · omega
        · exact hout hin
  apart := hh.reserve.apart

/-- The value of a term whose code was made early is found with the slots of this code, and new ones. -/
theorem Heaps.own (hempty : h.read s = none) (hρ : ρ.Contents steps l l') {v v' : Value β σ}
    (hv : Value.Paired steps ρ v v') :
    Value.Paired steps (π.join ρ) (l.fill s v).1 (l'.fill s' v').1 ∧
      (π.join ρ).Heaps steps (l.fill s v).2 (l'.fill s' v').2 ∧
      π.Grows steps h h' (π.join ρ) (l.fill s v).2 (l'.fill s' v').2 := by
  have hjoin : (π.join ρ).pairs s s' := .inl hs
  obtain ⟨hfilled, hcontents⟩ :=
    (hh.own_contents he hw hsize hread' g hempty hρ).fill hjoin (hv.mono g.own_le)
  refine ⟨hfilled, ⟨hcontents, hh.own_reserve hs he hw hsize hread' g hempty v⟩, Grows.fill ?_ hs⟩
  exact {
    size := g.size
    size' := Nat.le_trans (by omega) g.size'
    early := rfl
    old := .inl
    new := by
      rintro r r' (hr | hr)
      · exact .inl hr
      · obtain ⟨hr, -, hr'⟩ := hh.own_new he hw hsize g hempty hr
        exact .inr ⟨hr.imp_right fun hin => ⟨s, b, t, he, hin⟩, hr'⟩
    frame := fun hi _ haside => g.own_frame hw hi fun hin => haside ⟨s, b, t, he, hin⟩
    frame' := fun hj _ => g.own_frame' hsize hread' hj }

end

end Pairing

end TacticEngine.Machine
