/-
# TacticEngine.Proofs.Term.Canonical -- terms stay in canonical form.

Equality of terms, the view of a term as a constructor application and the count of arguments all take a
term as it stands: an application is flat and has arguments, and a lambda binds something.  `apps` and `lams`
build such terms, and so do shifting and instantiation, also where a head is replaced by an application or a
lambda.  Both go through an application argument by argument, whatever becomes of its head.
-/
import TacticEngine.Proofs.Likeness.Self

namespace TacticEngine

variable {β σ : Type}

/-- The likeness that stands for canonical form and asks for nothing else. -/
def Likeness.flat (β σ : Type) : Likeness β σ where
  closed := False
  canonical := True
  const _ := True
  blob := Eq
  step := Eq

theorem Likeness.flat_strict : (Likeness.flat β σ).Strict := ⟨id, id⟩

namespace Term

variable {k : Nat} {t u : Term β σ} {as us : List (Term β σ)}

theorem alike_flat_iff : (Likeness.flat β σ).Alike k t t ↔ t.Canonical := by
  constructor
  · intro h
    exact h.canonical trivial
  · intro h
    refine alike_self False.elim (fun _ => h) fun u _ => ?_
    cases u <;> first | exact rfl | trivial

theorem alikeArgs_flat_iff :
    (Likeness.flat β σ).AlikeArgs k as as ↔ ∀ a ∈ as, a.Canonical := by
  rw [alikeArgs_iff_forall₂, List.forall₂_same]
  exact forall₂_congr fun a _ => alike_flat_iff

theorem alikeBranches_flat_iff {brs : List (Branch (Term β σ))} :
    (Likeness.flat β σ).AlikeBranches k brs brs ↔ CanonicalBranches brs := by
  constructor
  · intro h
    exact h.canonicalBranches trivial
  · intro h
    induction brs with
    | nil => exact .nil
    | cons br brs ih => exact .cons (alike_flat_iff.mpr h.1) (ih h.2)

/-- A term that is there on both sides of the comparison is canonical. -/
theorem canonical_of_rel {t? : Option (Term β σ)} (h : Option.Rel ((Likeness.flat β σ).Alike k) t? t?)
    (ht : t? = some t) : t.Canonical := by
  subst ht
  cases h with
  | some h => exact alike_flat_iff.mp h

/-! ## What builds canonical terms -/

namespace Canonical

theorem apps (ht : t.Canonical) (has : ∀ a ∈ as, a.Canonical) : (t.apps as).Canonical :=
  alike_flat_iff.mp ((alike_flat_iff (k := 0).mpr ht).apps (alikeArgs_flat_iff.mpr has))

theorem lams (ht : t.Canonical) (n : Nat) : (Term.lams n t).Canonical :=
  alike_flat_iff.mp (Alike.lams (k := 0) (alike_flat_iff.mpr ht))

theorem shift (ht : t.Canonical) (amount cutoff : Nat) : (t.shift amount cutoff).Canonical :=
  alike_flat_iff.mp (Alike.shift (d := 0) (alike_flat_iff.mpr ht))

theorem instantiate (ht : t.Canonical) (hus : ∀ u ∈ us, u.Canonical) (cutoff : Nat) :
    (t.instantiate cutoff us).Canonical :=
  alike_flat_iff.mp (Alike.instantiate (e := 0) (alikeArgs_flat_iff.mpr hus) (alike_flat_iff.mpr ht))

theorem beta (ht : t.Canonical) (has : ∀ a ∈ as, a.Canonical) : (t.beta as).Canonical :=
  ht.instantiate (fun a ha => has a (List.mem_reverse.mp ha)) 0

/-! Where indices stay in their range, shifting and instantiating do the same as without a range. -/

theorem shift? (ht : t.Canonical) {amount cutoff : Nat} (hu : t.shift? amount cutoff = some u) :
    u.Canonical := by
  rw [shift_of_shift? hu]
  exact ht.shift amount cutoff

theorem instantiate? (ht : t.Canonical) (hus : ∀ u ∈ us, u.Canonical) {cutoff : Nat}
    (hu : t.instantiate? cutoff us = some u) : u.Canonical := by
  rw [instantiate_of_instantiate? hu]
  exact ht.instantiate hus cutoff

theorem beta? (ht : t.Canonical) (has : ∀ a ∈ as, a.Canonical) (hu : t.beta? as = some u) :
    u.Canonical := by
  rw [beta_of_beta? hu]
  exact ht.beta has

end Canonical

/-! ## Through applications, argument by argument -/

theorem mapFreeArgs_eq_map (f : Nat → Nat → Term β σ) (k : Nat) (as : List (Term β σ)) :
    mapFreeArgs f k as = as.map (mapFree f k) := by
  induction as with
  | nil => rfl
  | cons a as ih => rw [mapFreeArgs, ih, List.map_cons]

theorem mapFreeArgs?_eq_mapM (f : Nat → Nat → Option (Term β σ)) (k : Nat) (as : List (Term β σ)) :
    mapFreeArgs? f k as = as.mapM (mapFree? f k) := by
  induction as with
  | nil => rfl
  | cons a as ih => rw [mapFreeArgs?, ih, List.mapM_cons]

/-- Rebuilding an application is rebuilding its parts, in order. -/
theorem mapFree?_apps_eq (f : Nat → Nat → Option (Term β σ)) (k : Nat) (t : Term β σ)
    (as : List (Term β σ)) :
    mapFree? f k (t.apps as) = do
      let t ← mapFree? f k t
      let as ← mapFreeArgs? f k as
      return t.apps as := by
  by_cases hnil : as = []
  · subst hnil
    simp [mapFreeArgs?]
  · cases happ : t.isApp with
    | false => rw [apps_of_not_isApp happ hnil, mapFree?]
    | true =>
        -- the arguments that are there already are rebuilt first
        obtain ⟨h, bs, rfl⟩ := isApp_eq_true_iff.mp happ
        rw [app_apps, mapFree?, mapFree?]
        simp only [mapFreeArgs?_eq_mapM, List.mapM_append, Option.bind_eq_bind, Option.pure_def,
          Option.bind_assoc, Option.bind_some, apps_apps]

theorem shift_apps (t : Term β σ) (as : List (Term β σ)) (amount cutoff : Nat) :
    (t.apps as).shift amount cutoff =
      (t.shift amount cutoff).apps (as.map (·.shift amount cutoff)) := by
  unfold shift
  split
  · rw [List.map_id']
  · rw [mapFree_apps, mapFreeArgs_eq_map]

theorem instantiate_apps (t : Term β σ) (as : List (Term β σ)) (cutoff : Nat)
    (us : List (Term β σ)) :
    (t.apps as).instantiate cutoff us =
      (t.instantiate cutoff us).apps (as.map (·.instantiate cutoff us)) := by
  unfold instantiate
  split
  · rw [List.map_id']
  · rw [mapFree_apps, mapFreeArgs_eq_map]

/-- Arguments that stay as they are. -/
theorem mapM_some (as : List (Term β σ)) : as.mapM some = some as :=
  (List.mapM_pure (m := Option) (f := id)).trans (congrArg some (List.map_id as))

theorem shift?_apps (t : Term β σ) (as : List (Term β σ)) (amount cutoff : Nat) :
    (t.apps as).shift? amount cutoff = do
      let t ← t.shift? amount cutoff
      let as ← as.mapM (·.shift? amount cutoff)
      return t.apps as := by
  unfold shift?
  split
  · simp [mapM_some]
  · rw [mapFree?_apps_eq, mapFreeArgs?_eq_mapM]

theorem instantiate?_apps (t : Term β σ) (as : List (Term β σ)) (cutoff : Nat)
    (us : List (Term β σ)) :
    (t.apps as).instantiate? cutoff us = do
      let t ← t.instantiate? cutoff us
      let as ← as.mapM (·.instantiate? cutoff us)
      return t.apps as := by
  unfold instantiate?
  split
  · simp [mapM_some]
  · rw [mapFree?_apps_eq, mapFreeArgs?_eq_mapM]

end Term

end TacticEngine
