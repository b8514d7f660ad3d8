/-
# TacticEngine.Proofs.Likeness.Self -- likeness as a property of one term.

A term is alike to itself exactly if all that a likeness asks for holds of it: it is closed and
canonical as far as that is asked for, and its constants, blobs and native steps fit.  Two terms that
are alike under a likeness whose native values have to be equal are equal, so such a likeness is
nothing but a property, and what holds of alike terms is an invariant.
-/
import TacticEngine.Proofs.Likeness.Term

namespace TacticEngine

variable {β σ : Type}

namespace Likeness

/-- The same likeness read from right to left. -/
def flip (L : Likeness β σ) : Likeness β σ :=
  { L with blob := fun b b' => L.blob b' b, step := fun s s' => L.step s' s }

/-- Native values have to be equal. -/
structure Strict (L : Likeness β σ) : Prop where
  /-- Blobs at corresponding places are equal. -/
  blob_eq : ∀ {b b'}, L.blob b b' → b = b'
  /-- Native steps at corresponding places are equal. -/
  step_eq : ∀ {s s'}, L.step s s' → s = s'

/-- Native values can be compared in two steps. -/
structure Transitive (L : Likeness β σ) : Prop where
  /-- Blobs. -/
  blob : ∀ {a b c}, L.blob a b → L.blob b c → L.blob a c
  /-- Native steps. -/
  step : ∀ {a b c}, L.step a b → L.step b c → L.step a c

/-- Native values can be compared in either direction. -/
structure Symmetric (L : Likeness β σ) : Prop where
  /-- Blobs. -/
  blob : ∀ {a b}, L.blob a b → L.blob b a
  /-- Native steps. -/
  step : ∀ {a b}, L.step a b → L.step b a

theorem Symmetric.flip_eq {L : Likeness β σ} (hL : L.Symmetric) : L.flip = L := by
  have hblob : (fun b b' => L.blob b' b) = L.blob :=
    funext fun _ => funext fun _ => propext ⟨hL.blob, hL.blob⟩
  have hstep : (fun s s' => L.step s' s) = L.step :=
    funext fun _ => funext fun _ => propext ⟨hL.step, hL.step⟩
  rw [flip, hblob, hstep]

/-- What a likeness asks of a constant, a blob or a native step that corresponds to itself. -/
def Fits (L : Likeness β σ) : Term β σ → Prop
  | .const c => L.const c
  | .blob b => L.blob b b
  | .native s => L.step s s
  | _ => True

end Likeness

namespace Term

variable {L : Likeness β σ}

/-! ## From right to left -/

mutual
theorem Alike.flip : ∀ {k : Nat} {t t' : Term β σ}, L.Alike k t t' → L.flip.Alike k t' t
  | _, _, _, .const h => .const h
  | _, _, _, .ctor => .ctor
  | _, _, _, .bvar h => .bvar h
  | _, _, _, .free => .free
  | _, _, _, .uvar => .uvar
  | _, _, _, .lit => .lit
  | _, _, _, .app hc h has =>
      .app (fun c => ⟨h.isApp_eq ▸ (hc c).1, fun hnil => (hc c).2 (has.eq_nil_iff.mpr hnil)⟩)
        h.flip has.flip
  | _, _, _, .lam hn h => .lam hn h.flip
  | _, _, _, .case h hbrs => .case h.flip hbrs.flip
  | _, _, _, .ascribed h h₂ => .ascribed h.flip h₂.flip
  | _, _, _, .annotated h => .annotated h.flip
  | _, _, _, .reify h => .reify h.flip
  | _, _, _, .blob h => .blob h
  | _, _, _, .native h => .native h

theorem AlikeArgs.flip : ∀ {k : Nat} {as as' : List (Term β σ)}, L.AlikeArgs k as as' →
    L.flip.AlikeArgs k as' as
  | _, _, _, .nil => .nil
  | _, _, _, .cons h has => .cons h.flip has.flip

theorem AlikeBranches.flip : ∀ {k : Nat} {brs brs' : List (Branch (Term β σ))},
    L.AlikeBranches k brs brs' → L.flip.AlikeBranches k brs' brs
  | _, _, _, .nil => .nil
  | _, _, _, .cons h hbrs => .cons h.flip hbrs.flip
end

theorem Alike.symm (hL : L.Symmetric) {k : Nat} {t u : Term β σ} (h : L.Alike k t u) :
    L.Alike k u t := by
  have hflip := h.flip
  rwa [hL.flip_eq] at hflip

theorem AlikeArgs.symm (hL : L.Symmetric) {k : Nat} {as bs : List (Term β σ)}
    (h : L.AlikeArgs k as bs) : L.AlikeArgs k bs as := by
  have hflip := h.flip
  rwa [hL.flip_eq] at hflip

/-! ## Likeness in two steps -/

mutual
/-- Likeness is transitive if it is on native values. -/
theorem Alike.trans (hL : L.Transitive) :
    ∀ {k : Nat} {t u v : Term β σ}, L.Alike k t u → L.Alike k u v → L.Alike k t v
  | _, _, _, _, .const h, .const _ => .const h
  | _, _, _, _, .ctor, .ctor => .ctor
  | _, _, _, _, .bvar h, .bvar _ => .bvar h
  | _, _, _, _, .free, .free => .free
  | _, _, _, _, .uvar, .uvar => .uvar
  | _, _, _, _, .lit, .lit => .lit
  | _, _, _, _, .app hc h has, .app _ h' has' => .app hc (h.trans hL h') (has.trans hL has')
  | _, _, _, _, .lam hn h, .lam _ h' => .lam hn (h.trans hL h')
  | _, _, _, _, .case h hbrs, .case h' hbrs' => .case (h.trans hL h') (hbrs.trans hL hbrs')
  | _, _, _, _, .ascribed h h₂, .ascribed h' h₂' =>
      .ascribed (h.trans hL h') (h₂.trans hL h₂')
  | _, _, _, _, .annotated h, .annotated h' => .annotated (h.trans hL h')
  | _, _, _, _, .reify h, .reify h' => .reify (h.trans hL h')
  | _, _, _, _, .blob h, .blob h' => .blob (hL.blob h h')
  | _, _, _, _, .native h, .native h' => .native (hL.step h h')

theorem AlikeArgs.trans (hL : L.Transitive) : ∀ {k : Nat} {as bs cs : List (Term β σ)},
    L.AlikeArgs k as bs → L.AlikeArgs k bs cs → L.AlikeArgs k as cs
  | _, _, _, _, .nil, .nil => .nil
  | _, _, _, _, .cons h has, .cons h' has' => .cons (h.trans hL h') (has.trans hL has')

theorem AlikeBranches.trans (hL : L.Transitive) : ∀ {k : Nat} {as bs cs : List (Branch (Term β σ))},
    L.AlikeBranches k as bs → L.AlikeBranches k bs cs → L.AlikeBranches k as cs
  | _, _, _, _, .nil, .nil => .nil
  | _, _, _, _, .cons h has, .cons h' has' => .cons (h.trans hL h') (has.trans hL has')
end

/-! ## What likeness asks of the terms -/

mutual
theorem Alike.closedBelow (hL : L.closed) :
    ∀ {k : Nat} {t t' : Term β σ}, L.Alike k t t' → t.ClosedBelow k
  | _, _, _, .bvar h => h hL
  | _, _, _, .app _ h has => ⟨h.closedBelow hL, has.closedBelowArgs hL⟩
  | _, _, _, .lam _ h => h.closedBelow hL
  | _, _, _, .case h hbrs => ⟨h.closedBelow hL, hbrs.closedBelowBranches hL⟩
  | _, _, _, .ascribed h h₂ => ⟨h.closedBelow hL, h₂.closedBelow hL⟩
  | _, _, _, .annotated h => h.closedBelow hL
  | _, _, _, .reify h => h.closedBelow hL
  | _, _, _, .const _ | _, _, _, .ctor | _, _, _, .free | _, _, _, .uvar | _, _, _, .lit
  | _, _, _, .blob _ | _, _, _, .native _ => trivial

theorem AlikeArgs.closedBelowArgs (hL : L.closed) :
    ∀ {k : Nat} {as as' : List (Term β σ)}, L.AlikeArgs k as as' → ClosedBelowArgs k as
  | _, _, _, .nil => trivial
  | _, _, _, .cons h has => ⟨h.closedBelow hL, has.closedBelowArgs hL⟩

theorem AlikeBranches.closedBelowBranches (hL : L.closed) :
    ∀ {k : Nat} {brs brs' : List (Branch (Term β σ))}, L.AlikeBranches k brs brs' →
      ClosedBelowBranches k brs
  | _, _, _, .nil => trivial
  | _, _, _, .cons h hbrs => ⟨h.closedBelow hL, hbrs.closedBelowBranches hL⟩
end

mutual
theorem Alike.canonical (hL : L.canonical) :
    ∀ {k : Nat} {t t' : Term β σ}, L.Alike k t t' → t.Canonical
  | _, _, _, .app hc h has => ⟨(hc hL).1, (hc hL).2, h.canonical hL, has.canonicalArgs hL⟩
  | _, _, _, .lam hn h => ⟨hn hL, h.canonical hL⟩
  | _, _, _, .case h hbrs => ⟨h.canonical hL, hbrs.canonicalBranches hL⟩
  | _, _, _, .ascribed h h₂ => ⟨h.canonical hL, h₂.canonical hL⟩
  | _, _, _, .annotated h => h.canonical hL
  | _, _, _, .reify h => h.canonical hL
  | _, _, _, .const _ | _, _, _, .ctor | _, _, _, .bvar _ | _, _, _, .free | _, _, _, .uvar
  | _, _, _, .lit | _, _, _, .blob _ | _, _, _, .native _ => trivial

theorem AlikeArgs.canonicalArgs (hL : L.canonical) :
    ∀ {k : Nat} {as as' : List (Term β σ)}, L.AlikeArgs k as as' → CanonicalArgs as
  | _, _, _, .nil => trivial
  | _, _, _, .cons h has => ⟨h.canonical hL, has.canonicalArgs hL⟩

theorem AlikeBranches.canonicalBranches (hL : L.canonical) :
    ∀ {k : Nat} {brs brs' : List (Branch (Term β σ))}, L.AlikeBranches k brs brs' →
      CanonicalBranches brs
  | _, _, _, .nil => trivial
  | _, _, _, .cons h hbrs => ⟨h.canonical hL, hbrs.canonicalBranches hL⟩
end

/-! ## Terms alike to themselves -/

mutual
/-- Terms alike under a strict likeness are equal. -/
theorem Alike.eq (hL : L.Strict) : ∀ {k : Nat} {t t' : Term β σ}, L.Alike k t t' → t = t'
  | _, _, _, .app _ h has => by rw [h.eq hL, has.eq hL]
  | _, _, _, .lam _ h => by rw [h.eq hL]
  | _, _, _, .case h hbrs => by rw [h.eq hL, hbrs.eq hL]
  | _, _, _, .ascribed h h₂ => by rw [h.eq hL, h₂.eq hL]
  | _, _, _, .annotated h => by rw [h.eq hL]
  | _, _, _, .reify h => by rw [h.eq hL]
  | _, _, _, .blob h => by rw [hL.blob_eq h]
  | _, _, _, .native h => by rw [hL.step_eq h]
  | _, _, _, .const _ | _, _, _, .ctor | _, _, _, .bvar _ | _, _, _, .free | _, _, _, .uvar
  | _, _, _, .lit => rfl

theorem AlikeArgs.eq (hL : L.Strict) :
    ∀ {k : Nat} {as as' : List (Term β σ)}, L.AlikeArgs k as as' → as = as'
  | _, _, _, .nil => rfl
  | _, _, _, .cons h has => by rw [h.eq hL, has.eq hL]

theorem AlikeBranches.eq (hL : L.Strict) :
    ∀ {k : Nat} {brs brs' : List (Branch (Term β σ))}, L.AlikeBranches k brs brs' → brs = brs'
  | _, _, _, .nil => rfl
  | _, _, _, .cons h hbrs => by rw [h.eq hL, hbrs.eq hL]
end

mutual
/-- A term is alike to itself if it is closed and canonical and everything in it fits. -/
theorem alike_self {k : Nat} : ∀ {t : Term β σ}, (L.closed → t.ClosedBelow k) →
    (L.canonical → t.Canonical) → (∀ u ∈ t.subterms, L.Fits u) → L.Alike k t t
  | .const c, _, _, hf => .const (hf (.const c) (by simp [subterms]))
  | .ctor _, _, _, _ => .ctor
  | .bvar _, hb, _, _ => .bvar hb
  | .free _, _, _, _ => .free
  | .uvar _, _, _, _ => .uvar
  | .lit _, _, _, _ => .lit
  | .app h as, hb, hc, hf => by
      simp only [subterms, List.forall_mem_cons, List.forall_mem_append] at hf
      exact .app (fun c => ⟨(hc c).1, (hc c).2.1⟩)
        (alike_self (fun c => (hb c).1) (fun c => (hc c).2.2.1) hf.2.1)
        (alikeArgs_self (fun c => (hb c).2) (fun c => (hc c).2.2.2) hf.2.2)
  | .lam n b, hb, hc, hf => by
      simp only [subterms, List.forall_mem_cons] at hf
      exact .lam (fun c => (hc c).1) (alike_self hb (fun c => (hc c).2) hf.2)
  | .case s brs, hb, hc, hf => by
      simp only [subterms, List.forall_mem_cons, List.forall_mem_append] at hf
      exact .case (alike_self (fun c => (hb c).1) (fun c => (hc c).1) hf.2.1)
        (alikeBranches_self (fun c => (hb c).2) (fun c => (hc c).2) hf.2.2)
  | .ascribed a t, hb, hc, hf => by
      simp only [subterms, List.forall_mem_cons, List.forall_mem_append] at hf
      exact .ascribed (alike_self (fun c => (hb c).1) (fun c => (hc c).1) hf.2.1)
        (alike_self (fun c => (hb c).2) (fun c => (hc c).2) hf.2.2)
  | .annotated a n, hb, hc, hf => by
      simp only [subterms, List.forall_mem_cons] at hf
      exact .annotated (alike_self hb hc hf.2)
  | .reify a, hb, hc, hf => by
      simp only [subterms, List.forall_mem_cons] at hf
      exact .reify (alike_self hb hc hf.2)
  | .blob b, _, _, hf => .blob (hf (.blob b) (by simp [subterms]))
  | .native s, _, _, hf => .native (hf (.native s) (by simp [subterms]))

theorem alikeArgs_self {k : Nat} : ∀ {as : List (Term β σ)}, (L.closed → ClosedBelowArgs k as) →
    (L.canonical → CanonicalArgs as) → (∀ u ∈ subtermsArgs as, L.Fits u) → L.AlikeArgs k as as
  | [], _, _, _ => .nil
  | a :: as, hb, hc, hf => by
      simp only [subtermsArgs, List.forall_mem_append] at hf
      exact .cons (alike_self (fun c => (hb c).1) (fun c => (hc c).1) hf.1)
        (alikeArgs_self (fun c => (hb c).2) (fun c => (hc c).2) hf.2)

theorem alikeBranches_self {k : Nat} : ∀ {brs : List (Branch (Term β σ))},
    (L.closed → ClosedBelowBranches k brs) → (L.canonical → CanonicalBranches brs) →
    (∀ u ∈ subtermsBranches brs, L.Fits u) → L.AlikeBranches k brs brs
  | [], _, _, _ => .nil
  | ⟨_, b⟩ :: brs, hb, hc, hf => by
      simp only [subtermsBranches, List.forall_mem_append] at hf
      exact .cons (alike_self (fun c => (hb c).1) (fun c => (hc c).1) hf.1)
        (alikeBranches_self (fun c => (hb c).2) (fun c => (hc c).2) hf.2)
end

mutual
/-- Everything in a term that is alike to itself fits. -/
theorem Alike.fits {k : Nat} : ∀ {t : Term β σ}, L.Alike k t t → ∀ u ∈ t.subterms, L.Fits u
  | .const _, .const h => by simpa [subterms, Likeness.Fits] using h
  | .ctor _, _ | .bvar _, _ | .free _, _ | .uvar _, _ | .lit _, _ => by
      simp [subterms, Likeness.Fits]
  | .app _ _, .app _ h has => by
      simp only [subterms, List.forall_mem_cons, List.forall_mem_append]
      exact ⟨trivial, h.fits, has.fits⟩
  | .lam _ _, .lam _ h => by
      simp only [subterms, List.forall_mem_cons]
      exact ⟨trivial, h.fits⟩
  | .case _ _, .case h hbrs => by
      simp only [subterms, List.forall_mem_cons, List.forall_mem_append]
      exact ⟨trivial, h.fits, hbrs.fits⟩
  | .ascribed _ _, .ascribed h h₂ => by
      simp only [subterms, List.forall_mem_cons, List.forall_mem_append]
      exact ⟨trivial, h.fits, h₂.fits⟩
  | .annotated _ _, .annotated h => by
      simp only [subterms, List.forall_mem_cons]
      exact ⟨trivial, h.fits⟩
  | .reify _, .reify h => by
      simp only [subterms, List.forall_mem_cons]
      exact ⟨trivial, h.fits⟩
  | .blob _, .blob h => by simpa [subterms, Likeness.Fits] using h
  | .native _, .native h => by simpa [subterms, Likeness.Fits] using h

theorem AlikeArgs.fits {k : Nat} : ∀ {as : List (Term β σ)}, L.AlikeArgs k as as →
    ∀ u ∈ subtermsArgs as, L.Fits u
  | [], _ => by simp [subtermsArgs]
  | _ :: _, .cons h has => by
      simp only [subtermsArgs, List.forall_mem_append]
      exact ⟨h.fits, has.fits⟩

theorem AlikeBranches.fits {k : Nat} : ∀ {brs : List (Branch (Term β σ))},
    L.AlikeBranches k brs brs → ∀ u ∈ subtermsBranches brs, L.Fits u
  | [], _ => by simp [subtermsBranches]
  | ⟨_, _⟩ :: _, .cons h hbrs => by
      simp only [subtermsBranches, List.forall_mem_append]
      exact ⟨h.fits, hbrs.fits⟩
end

end Term

end TacticEngine
