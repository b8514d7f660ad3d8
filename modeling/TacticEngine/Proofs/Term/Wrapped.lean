/-
# TacticEngine.Proofs.Term.Wrapped -- terms with wrappers put around them.

Annotations and ascriptions do not change what a term stands for.  `Wrapped` puts any number of them
around a term as a whole.  `WrappedDeep` also puts them around the parts of data: around the head of a
constructor application and, to any depth, around its arguments.

What sees through wrappers is described by these relations: stripping undoes `Wrapped`, and the views of a
term as a literal, a blob or a constructor application find exactly the wrapped ones.
-/
import Mathlib.Data.List.Forall2
import TacticEngine.Proofs.Term.Closed

namespace TacticEngine.Term

variable {β σ : Type}

/-- The second term is the first one in annotations and ascriptions, in any number and order. -/
inductive Wrapped (t : Term β σ) : Term β σ → Prop where
  /-- No wrappers. -/
  | self : Wrapped t t
  /-- One more annotation. -/
  | annotated {u : Term β σ} {n : Annotation} : Wrapped t u → Wrapped t (.annotated u n)
  /-- One more ascription, of any type. -/
  | ascribed {u type : Term β σ} : Wrapped t u → Wrapped t (.ascribed u type)

/-- The second term is the first one with wrappers around the whole, around heads of constructor
applications and, to any depth, around their arguments. -/
inductive WrappedDeep : Term β σ → Term β σ → Prop where
  /-- Wrappers around the whole only. -/
  | outside {t u : Term β σ} : Wrapped t u → WrappedDeep t u
  /-- Wrappers around a constructor application, around its head and in its arguments. -/
  | ctorApp {c : String} {h u : Term β σ} {as bs : List (Term β σ)} : Wrapped (.ctor c) h →
      List.Forall₂ WrappedDeep as bs → Wrapped (.app h bs) u → WrappedDeep (.app (.ctor c) as) u

variable {t u h : Term β σ} {as bs : List (Term β σ)} {c : String}

/-! ## Stripping -/

theorem Wrapped.strip_eq (hw : Wrapped t u) : u.strip = t.strip := by
  induction hw with
  | self => rfl
  | annotated _ ih => exact ih
  | ascribed _ ih => exact ih

theorem wrapped_strip (t : Term β σ) : Wrapped t.strip t := by
  fun_induction strip t with
  | case1 t n ih => exact ih.annotated
  | case2 t type ih => exact ih.ascribed
  | case3 t _ _ => exact .self

/-- A term that is no wrapper itself is found by stripping in exactly the terms that wrap it. -/
theorem strip_eq_iff (ht : t.strip = t) : u.strip = t ↔ Wrapped t u :=
  ⟨fun hu => hu ▸ wrapped_strip u, fun hw => hw.strip_eq.trans ht⟩

theorem strip_ne_annotated {n : Annotation} : t.strip ≠ .annotated u n := by
  fun_induction strip t with
  | case1 _ _ ih => exact ih
  | case2 _ _ ih => exact ih
  | case3 t hn _ => exact hn u n

theorem strip_ne_ascribed {type : Term β σ} : t.strip ≠ .ascribed u type := by
  fun_induction strip t with
  | case1 _ _ ih => exact ih
  | case2 _ _ ih => exact ih
  | case3 t _ ha => exact ha u type

theorem Canonical.strip (ht : t.Canonical) : t.strip.Canonical := by
  fun_induction Term.strip t with
  | case1 t n ih => exact ih ht
  | case2 t type ih => exact ih ht.1
  | case3 t _ _ => exact ht

/-! ## Views -/

theorem asLit?_eq_some_iff {l : Literal} : u.asLit? = some l ↔ Wrapped (.lit l) u := by
  rw [← strip_eq_iff rfl, asLit?]
  cases u.strip <;> simp

/-- In canonical terms, a constructor without arguments is found in what wraps it, and nowhere
else. -/
theorem asCtorApp?_eq_some_nil_iff (hu : u.Canonical) :
    u.asCtorApp? = some (c, []) ↔ Wrapped (.ctor c) u := by
  rw [← strip_eq_iff rfl, asCtorApp?]
  have hs := hu.strip
  cases hstrip : u.strip with
  | app h as =>
      rw [hstrip] at hs
      have has : as ≠ [] := hs.2.1
      simp only [headArgs, reduceCtorEq, iff_false]
      split <;> simp_all
  | annotated => exact absurd hstrip strip_ne_annotated
  | ascribed => exact absurd hstrip strip_ne_ascribed
  | _ => simp [headArgs, Term.strip]

/-- A constructor with arguments is found in what wraps an application of its wrapped head. -/
theorem asCtorApp?_eq_some_iff (has : as ≠ []) :
    u.asCtorApp? = some (c, as) ↔ ∃ h, Wrapped (.ctor c) h ∧ Wrapped (.app h as) u := by
  constructor
  · intro hu
    rw [asCtorApp?] at hu
    cases hstrip : u.strip with
    | app h bs =>
        simp only [hstrip, headArgs] at hu
        split at hu
        next c' hc =>
          simp only [Option.some.injEq, Prod.mk.injEq] at hu
          obtain ⟨rfl, rfl⟩ := hu
          exact ⟨h, (strip_eq_iff rfl).mp hc, (strip_eq_iff rfl).mp hstrip⟩
        next => cases hu
    | _ =>
        simp only [hstrip, headArgs] at hu
        split at hu <;> simp_all
  · rintro ⟨h, hh, hu⟩
    rw [asCtorApp?, (strip_eq_iff rfl).mpr hu]
    simp only [headArgs, (strip_eq_iff rfl).mpr hh]

theorem Canonical.of_asCtorApp? (hu : u.Canonical) (h : u.asCtorApp? = some (c, as)) :
    ∀ a ∈ as, a.Canonical := by
  rw [asCtorApp?] at h
  have hs := hu.strip
  cases hstrip : u.strip with
  | app f bs =>
      rw [hstrip] at hs h
      simp only [headArgs] at h
      split at h
      next =>
        simp only [Option.some.injEq, Prod.mk.injEq] at h
        obtain ⟨-, rfl⟩ := h
        exact canonicalArgs_iff.mp hs.2.2.2
      next => cases h
  | _ =>
      simp only [hstrip, headArgs] at h
      split at h <;> simp_all

/-! ## Deep wrappers -/

theorem wrappedDeep_lit_iff {l : Literal} : WrappedDeep (.lit l) u ↔ Wrapped (.lit l) u :=
  ⟨fun | .outside hw => hw, .outside⟩

theorem wrappedDeep_ctor_iff : WrappedDeep (.ctor c) u ↔ Wrapped (.ctor c) u :=
  ⟨fun | .outside hw => hw, .outside⟩

theorem WrappedDeep.refl (t : Term β σ) : WrappedDeep t t := .outside .self

theorem forall₂_wrappedDeep_refl (as : List (Term β σ)) : List.Forall₂ WrappedDeep as as :=
  List.forall₂_same.mpr fun a _ => .refl a

/-- Deep wrappers of a constructor application are found by the view as such an application. -/
theorem wrappedDeep_ctorApp_iff (has : as ≠ []) :
    WrappedDeep (.app (.ctor c) as) u ↔
      ∃ bs, u.asCtorApp? = some (c, bs) ∧ List.Forall₂ WrappedDeep as bs := by
  constructor
  · intro hw
    cases hw with
    | outside hw =>
        exact ⟨as, (asCtorApp?_eq_some_iff has).mpr ⟨_, .self, hw⟩, forall₂_wrappedDeep_refl as⟩
    | ctorApp hh hbs hw =>
        refine ⟨_, (asCtorApp?_eq_some_iff ?_).mpr ⟨_, hh, hw⟩, hbs⟩
        rintro rfl
        cases hbs
        exact has rfl
  · rintro ⟨bs, hu, hbs⟩
    have hbs' : bs ≠ [] := by
      rintro rfl
      cases hbs
      exact has rfl
    obtain ⟨h, hh, hw⟩ := (asCtorApp?_eq_some_iff hbs').mp hu
    exact .ctorApp hh hbs hw

theorem wrappedDeep_ctorApp_one_iff {a : Term β σ} :
    WrappedDeep (.app (.ctor c) [a]) u ↔ ∃ a', u.asCtorApp? = some (c, [a']) ∧ WrappedDeep a a' := by
  simp only [wrappedDeep_ctorApp_iff (List.cons_ne_nil _ _), List.forall₂_cons_left_iff,
    List.forall₂_nil_left_iff]
  constructor
  · rintro ⟨_, hu, a', _, ha, rfl, rfl⟩
    exact ⟨a', hu, ha⟩
  · rintro ⟨a', hu, ha⟩
    exact ⟨_, hu, a', [], ha, rfl, rfl⟩

theorem wrappedDeep_ctorApp_two_iff {a b : Term β σ} :
    WrappedDeep (.app (.ctor c) [a, b]) u ↔
      ∃ a' b', u.asCtorApp? = some (c, [a', b']) ∧ WrappedDeep a a' ∧ WrappedDeep b b' := by
  simp only [wrappedDeep_ctorApp_iff (List.cons_ne_nil _ _), List.forall₂_cons_left_iff,
    List.forall₂_nil_left_iff]
  constructor
  · rintro ⟨_, hu, a', _, ha, ⟨b', _, hb, rfl, rfl⟩, rfl⟩
    exact ⟨a', b', hu, ha, hb⟩
  · rintro ⟨a', b', hu, ha, hb⟩
    exact ⟨_, hu, a', [b'], ha, ⟨b', [], hb, rfl, rfl⟩, rfl⟩

end TacticEngine.Term
