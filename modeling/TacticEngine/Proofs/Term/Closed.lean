/-
# TacticEngine.Proofs.Term.Closed -- closed terms in canonical form.

A term is closed below `k` if it has no variables but those of `k` binders around it.  It is canonical
if its applications are flat and have arguments and its lambdas bind something, which is how `apps`
and `lams` build terms.  Substitution leaves closed canonical terms as they are.

The functions that keep indices within their range agree with the unbounded ones wherever they have a
result.
-/
import TacticEngine.Term.Bounded

namespace TacticEngine.Term

variable {β σ : Type}

/-! ## Canonical and closed terms -/

/-- Whether a term is an application. -/
def isApp : Term β σ → Bool
  | .app .. => true
  | _ => false

mutual
/-- Applications are flat and have arguments, and lambdas bind something. -/
def Canonical : Term β σ → Prop
  | .app h as => h.isApp = false ∧ as ≠ [] ∧ h.Canonical ∧ CanonicalArgs as
  | .lam n b => 0 < n ∧ b.Canonical
  | .case s brs => s.Canonical ∧ CanonicalBranches brs
  | .ascribed a t => a.Canonical ∧ t.Canonical
  | .annotated a _ => a.Canonical
  | .reify a => a.Canonical
  | _ => True

/-- Each argument is canonical. -/
def CanonicalArgs : List (Term β σ) → Prop
  | [] => True
  | a :: as => a.Canonical ∧ CanonicalArgs as

/-- The body of each branch is canonical. -/
def CanonicalBranches : List (Branch (Term β σ)) → Prop
  | [] => True
  | ⟨_, b⟩ :: brs => b.Canonical ∧ CanonicalBranches brs
end

mutual
/-- All variables are bound, be it by the term itself or by the `k` binders around it. -/
def ClosedBelow : Nat → Term β σ → Prop
  | k, .bvar i => i < k
  | k, .app h as => ClosedBelow k h ∧ ClosedBelowArgs k as
  | k, .lam n b => ClosedBelow (k + n) b
  | k, .case s brs => ClosedBelow k s ∧ ClosedBelowBranches k brs
  | k, .ascribed a t => ClosedBelow k a ∧ ClosedBelow k t
  | k, .annotated a _ => ClosedBelow k a
  | k, .reify a => ClosedBelow k a
  | _, _ => True

/-- All variables of the arguments are bound. -/
def ClosedBelowArgs : Nat → List (Term β σ) → Prop
  | _, [] => True
  | k, a :: as => ClosedBelow k a ∧ ClosedBelowArgs k as

/-- All variables of the branches are bound. -/
def ClosedBelowBranches : Nat → List (Branch (Term β σ)) → Prop
  | _, [] => True
  | k, ⟨p, b⟩ :: brs => ClosedBelow (k + p.binders) b ∧ ClosedBelowBranches k brs
end

/-- A term without free variables. -/
def Closed (t : Term β σ) : Prop := t.ClosedBelow 0

theorem Closed.ne_bvar {t : Term β σ} (ht : t.Closed) (i : Nat) : t ≠ .bvar i := by
  rintro rfl
  exact Nat.not_lt_zero i ht

theorem canonicalArgs_iff {as : List (Term β σ)} : CanonicalArgs as ↔ ∀ a ∈ as, a.Canonical := by
  induction as with
  | nil => simp [CanonicalArgs]
  | cons a as ih => simp [CanonicalArgs, ih]

theorem closedBelowArgs_iff {k : Nat} {as : List (Term β σ)} :
    ClosedBelowArgs k as ↔ ∀ a ∈ as, a.ClosedBelow k := by
  induction as with
  | nil => simp [ClosedBelowArgs]
  | cons a as ih => simp [ClosedBelowArgs, ih]

mutual
/-- More binders around a term do no harm. -/
theorem ClosedBelow.mono {k m : Nat} (hkm : k ≤ m) :
    ∀ {t : Term β σ}, t.ClosedBelow k → t.ClosedBelow m
  | .bvar i, h => by
      simp only [ClosedBelow] at h ⊢
      omega
  | .app t as, h => by
      simp only [ClosedBelow] at h ⊢
      exact ⟨h.1.mono hkm, closedBelowArgs_mono hkm h.2⟩
  | .lam n b, h => by
      simp only [ClosedBelow] at h ⊢
      exact h.mono (Nat.add_le_add_right hkm n)
  | .case s brs, h => by
      simp only [ClosedBelow] at h ⊢
      exact ⟨h.1.mono hkm, closedBelowBranches_mono hkm h.2⟩
  | .ascribed a t, h => by
      simp only [ClosedBelow] at h ⊢
      exact ⟨h.1.mono hkm, h.2.mono hkm⟩
  | .annotated a n, h => by
      simp only [ClosedBelow] at h ⊢
      exact h.mono hkm
  | .reify a, h => by
      simp only [ClosedBelow] at h ⊢
      exact h.mono hkm
  | .const _, _ | .ctor _, _ | .free _, _ | .uvar _, _ | .lit _, _ | .blob _, _
  | .native _, _ => by simp [ClosedBelow]

theorem closedBelowArgs_mono {k m : Nat} (hkm : k ≤ m) :
    ∀ {as : List (Term β σ)}, ClosedBelowArgs k as → ClosedBelowArgs m as
  | [], _ => trivial
  | _ :: _, h => ⟨h.1.mono hkm, closedBelowArgs_mono hkm h.2⟩

theorem closedBelowBranches_mono {k m : Nat} (hkm : k ≤ m) :
    ∀ {brs : List (Branch (Term β σ))}, ClosedBelowBranches k brs → ClosedBelowBranches m brs
  | [], _ => trivial
  | ⟨p, _⟩ :: _, h =>
      ⟨h.1.mono (Nat.add_le_add_right hkm p.binders), closedBelowBranches_mono hkm h.2⟩
end

/-! ## Applications -/

theorem apps_of_not_isApp {t : Term β σ} {as : List (Term β σ)} (ht : t.isApp = false)
    (has : as ≠ []) : t.apps as = .app t as := by
  obtain ⟨a, as, rfl⟩ := List.exists_cons_of_ne_nil has
  cases t <;> first | rfl | cases ht

theorem app_apps (h : Term β σ) (as bs : List (Term β σ)) :
    (Term.app h as).apps bs = .app h (as ++ bs) := by
  cases bs <;> simp [apps]

theorem isApp_eq_true_iff {t : Term β σ} : t.isApp = true ↔ ∃ h as, t = .app h as := by
  cases t <;> simp [isApp]

theorem mapFree_apps (f : Nat → Nat → Term β σ) (k : Nat) (t : Term β σ) (as : List (Term β σ)) :
    mapFree f k (t.apps as) = (mapFree f k t).apps (mapFreeArgs f k as) := by
  have happ : ∀ bs : List (Term β σ), ∀ cs,
      mapFreeArgs f k (bs ++ cs) = mapFreeArgs f k bs ++ mapFreeArgs f k cs := by
    intro bs cs
    induction bs with
    | nil => simp [mapFreeArgs]
    | cons b bs ih => simp [mapFreeArgs, ih]
  cases as with
  | nil => simp [mapFreeArgs]
  | cons a as =>
      cases t with
      | app h bs => simp only [app_apps, mapFree, happ, apps_apps]
      | _ => rfl

theorem mapFree_lams (f : Nat → Nat → Term β σ) (k n : Nat) (b : Term β σ) :
    mapFree f k (lams n b) = lams n (mapFree f (k + n) b) := by
  cases n <;> simp [lams, mapFree]

theorem mapFreeArgs?_append {f : Nat → Nat → Option (Term β σ)} {k : Nat}
    {as as' bs bs' : List (Term β σ)} (ha : mapFreeArgs? f k as = some as')
    (hb : mapFreeArgs? f k bs = some bs') : mapFreeArgs? f k (as ++ bs) = some (as' ++ bs') := by
  induction as generalizing as' with
  | nil =>
      cases ha
      exact hb
  | cons a as ih =>
      simp only [mapFreeArgs?, Option.bind_eq_bind, Option.bind_eq_some_iff, Option.pure_def,
        Option.some.injEq] at ha
      obtain ⟨u, hu, us, hus, rfl⟩ := ha
      simp [mapFreeArgs?, hu, ih hus]

theorem mapFree?_apps {f : Nat → Nat → Option (Term β σ)} {k : Nat} {t u : Term β σ}
    {as us : List (Term β σ)} (ht : mapFree? f k t = some u) (has : mapFreeArgs? f k as = some us) :
    mapFree? f k (t.apps as) = some (u.apps us) := by
  by_cases hnil : as = []
  · subst hnil
    cases has
    rw [apps_nil, apps_nil, ht]
  · cases happ : t.isApp
    case false =>
      rw [apps_of_not_isApp happ hnil]
      simp [mapFree?, ht, has]
    case true =>
      obtain ⟨h, bs, rfl⟩ := isApp_eq_true_iff.mp happ
      simp only [mapFree?, Option.bind_eq_bind, Option.bind_eq_some_iff, Option.pure_def,
        Option.some.injEq] at ht
      obtain ⟨h', hh, bs', hbs, rfl⟩ := ht
      rw [app_apps, apps_apps]
      simp [mapFree?, hh, mapFreeArgs?_append hbs has]

/-! ## Substitution that does nothing -/

mutual
/-- Rebuilding a canonical term does nothing if its free variables are put for themselves. -/
theorem mapFree_eq_self {f : Nat → Nat → Term β σ} {d : Nat}
    (hf : ∀ m i, m ≤ i → i < m + d → f m i = .bvar i) :
    ∀ {k : Nat} {t : Term β σ}, t.Canonical → t.ClosedBelow (k + d) → mapFree f k t = t
  | k, .bvar i, _, hb => by
      simp only [ClosedBelow] at hb
      simp only [mapFree]
      split
      · exact hf k i ‹_› hb
      · rfl
  | k, .app h as, hc, hb => by
      simp only [Canonical, ClosedBelow] at hc hb
      rw [mapFree, mapFree_eq_self hf hc.2.2.1 hb.1, mapFreeArgs_eq_self hf hc.2.2.2 hb.2]
      exact apps_of_not_isApp hc.1 hc.2.1
  | k, .lam n b, hc, hb => by
      simp only [Canonical, ClosedBelow] at hc hb
      rw [mapFree, mapFree_eq_self hf hc.2 (by rwa [Nat.add_right_comm])]
      obtain ⟨n, rfl⟩ := Nat.exists_eq_succ_of_ne_zero (Nat.pos_iff_ne_zero.mp hc.1)
      rfl
  | k, .case s brs, hc, hb => by
      simp only [Canonical, ClosedBelow] at hc hb
      rw [mapFree, mapFree_eq_self hf hc.1 hb.1, mapFreeBranches_eq_self hf hc.2 hb.2]
  | k, .ascribed a t, hc, hb => by
      simp only [Canonical, ClosedBelow] at hc hb
      rw [mapFree, mapFree_eq_self hf hc.1 hb.1, mapFree_eq_self hf hc.2 hb.2]
  | k, .annotated a n, hc, hb => by
      simp only [Canonical, ClosedBelow] at hc hb
      rw [mapFree, mapFree_eq_self hf hc hb]
  | k, .reify a, hc, hb => by
      simp only [Canonical, ClosedBelow] at hc hb
      rw [mapFree, mapFree_eq_self hf hc hb]
  | _, .const _, _, _ | _, .ctor _, _, _ | _, .free _, _, _ | _, .uvar _, _, _ | _, .lit _, _, _
  | _, .blob _, _, _ | _, .native _, _, _ => by simp [mapFree]

theorem mapFreeArgs_eq_self {f : Nat → Nat → Term β σ} {d : Nat}
    (hf : ∀ m i, m ≤ i → i < m + d → f m i = .bvar i) :
    ∀ {k : Nat} {as : List (Term β σ)}, CanonicalArgs as → ClosedBelowArgs (k + d) as →
      mapFreeArgs f k as = as
  | _, [], _, _ => rfl
  | _, _ :: _, hc, hb => by
      simp only [CanonicalArgs, ClosedBelowArgs] at hc hb
      rw [mapFreeArgs, mapFree_eq_self hf hc.1 hb.1, mapFreeArgs_eq_self hf hc.2 hb.2]

theorem mapFreeBranches_eq_self {f : Nat → Nat → Term β σ} {d : Nat}
    (hf : ∀ m i, m ≤ i → i < m + d → f m i = .bvar i) :
    ∀ {k : Nat} {brs : List (Branch (Term β σ))}, CanonicalBranches brs →
      ClosedBelowBranches (k + d) brs → mapFreeBranches f k brs = brs
  | _, [], _, _ => rfl
  | k, ⟨p, b⟩ :: brs, hc, hb => by
      simp only [CanonicalBranches, ClosedBelowBranches] at hc hb
      rw [mapFreeBranches, mapFree_eq_self hf hc.1 (by rw [Nat.add_right_comm]; exact hb.1),
        mapFreeBranches_eq_self hf hc.2 hb.2]
end

/-- Instantiating a closed canonical term does nothing. -/
theorem instantiate_eq_self {t : Term β σ} {c : Nat} (hc : t.Canonical) (hb : t.ClosedBelow c)
    (vals : List (Term β σ)) : t.instantiate c vals = t := by
  rw [instantiate]
  split
  · rfl
  · exact mapFree_eq_self (d := 0) (fun m i h₁ h₂ => by omega) hc hb

theorem instantiate_nil (t : Term β σ) (c : Nat) : t.instantiate c [] = t := rfl

theorem instantiate_of_ne_nil {vals : List (Term β σ)} (h : vals ≠ []) (t : Term β σ) (c : Nat) :
    t.instantiate c vals = mapFree (instantiateVar vals) c t := by
  rw [instantiate, if_neg (by simpa using h)]

/-! ## Indices within their range -/

mutual
/-- Where rebuilding within the range of indices succeeds, it is rebuilding. -/
theorem mapFree_of_mapFree? {f? : Nat → Nat → Option (Term β σ)} {f : Nat → Nat → Term β σ}
    (hf : ∀ m i v, f? m i = some v → v = f m i) :
    ∀ {k : Nat} {t u : Term β σ}, mapFree? f? k t = some u → u = mapFree f k t
  | k, .bvar i, u, h => by
      simp only [mapFree?] at h
      simp only [mapFree]
      split at h
      · rw [if_pos ‹_›]
        exact hf _ _ _ h
      · rw [if_neg ‹_›]
        exact (Option.some.inj h).symm
  | k, .app t as, u, h => by
      simp only [mapFree?, Option.bind_eq_bind, Option.bind_eq_some_iff, Option.pure_def,
        Option.some.injEq] at h
      obtain ⟨t', ht, as', has, rfl⟩ := h
      rw [mapFree, ← mapFree_of_mapFree? hf ht, ← mapFreeArgs_of_mapFreeArgs? hf has]
  | k, .lam n b, u, h => by
      simp only [mapFree?, addIndex?, Option.bind_eq_bind, Option.bind_eq_some_iff,
        Option.pure_def, Option.some.injEq, Option.ite_none_right_eq_some] at h
      obtain ⟨_, ⟨_, rfl⟩, b', hb, rfl⟩ := h
      rw [mapFree, ← mapFree_of_mapFree? hf hb]
  | k, .case s brs, u, h => by
      simp only [mapFree?, Option.bind_eq_bind, Option.bind_eq_some_iff, Option.pure_def,
        Option.some.injEq] at h
      obtain ⟨s', hs, brs', hbrs, rfl⟩ := h
      rw [mapFree, ← mapFree_of_mapFree? hf hs, ← mapFreeBranches_of_mapFreeBranches? hf hbrs]
  | k, .ascribed a t, u, h => by
      simp only [mapFree?, Option.bind_eq_bind, Option.bind_eq_some_iff, Option.pure_def,
        Option.some.injEq] at h
      obtain ⟨a', ha, t', ht, rfl⟩ := h
      rw [mapFree, ← mapFree_of_mapFree? hf ha, ← mapFree_of_mapFree? hf ht]
  | k, .annotated a n, u, h => by
      simp only [mapFree?, Option.bind_eq_bind, Option.bind_eq_some_iff, Option.pure_def,
        Option.some.injEq] at h
      obtain ⟨a', ha, rfl⟩ := h
      rw [mapFree, ← mapFree_of_mapFree? hf ha]
  | k, .reify a, u, h => by
      simp only [mapFree?, Option.bind_eq_bind, Option.bind_eq_some_iff, Option.pure_def,
        Option.some.injEq] at h
      obtain ⟨a', ha, rfl⟩ := h
      rw [mapFree, ← mapFree_of_mapFree? hf ha]
  | _, .const _, _, h | _, .ctor _, _, h | _, .free _, _, h | _, .uvar _, _, h
  | _, .lit _, _, h | _, .blob _, _, h | _, .native _, _, h => by
      simpa [mapFree?, mapFree, eq_comm] using h

theorem mapFreeArgs_of_mapFreeArgs? {f? : Nat → Nat → Option (Term β σ)}
    {f : Nat → Nat → Term β σ} (hf : ∀ m i v, f? m i = some v → v = f m i) :
    ∀ {k : Nat} {as us : List (Term β σ)}, mapFreeArgs? f? k as = some us →
      us = mapFreeArgs f k as
  | _, [], _, h => by simpa [mapFreeArgs?, mapFreeArgs, eq_comm] using h
  | k, a :: as, _, h => by
      simp only [mapFreeArgs?, Option.bind_eq_bind, Option.bind_eq_some_iff, Option.pure_def,
        Option.some.injEq] at h
      obtain ⟨a', ha, as', has, rfl⟩ := h
      rw [mapFreeArgs, ← mapFree_of_mapFree? hf ha, ← mapFreeArgs_of_mapFreeArgs? hf has]

theorem mapFreeBranches_of_mapFreeBranches? {f? : Nat → Nat → Option (Term β σ)}
    {f : Nat → Nat → Term β σ} (hf : ∀ m i v, f? m i = some v → v = f m i) :
    ∀ {k : Nat} {brs us : List (Branch (Term β σ))}, mapFreeBranches? f? k brs = some us →
      us = mapFreeBranches f k brs
  | _, [], _, h => by simpa [mapFreeBranches?, mapFreeBranches, eq_comm] using h
  | k, ⟨p, b⟩ :: brs, _, h => by
      simp only [mapFreeBranches?, addIndex?, Option.bind_eq_bind, Option.bind_eq_some_iff,
        Option.pure_def, Option.some.injEq, Option.ite_none_right_eq_some] at h
      obtain ⟨_, ⟨_, rfl⟩, b', hb, brs', hbrs, rfl⟩ := h
      rw [mapFreeBranches, ← mapFree_of_mapFree? hf hb,
        ← mapFreeBranches_of_mapFreeBranches? hf hbrs]
end

mutual
/-- What is put for variables matters only for those that are free. -/
theorem mapFree?_congr {f g : Nat → Nat → Option (Term β σ)} (hfg : ∀ k i, k ≤ i → f k i = g k i) :
    ∀ (k : Nat) (t : Term β σ), mapFree? f k t = mapFree? g k t
  | k, .bvar i => by
      rw [mapFree?, mapFree?]
      split
      next hk => exact hfg k i hk
      next => rfl
  | k, .app h as => by
      rw [mapFree?, mapFree?, mapFree?_congr hfg k h, mapFreeArgs?_congr hfg k as]
  | k, .lam n b => by simp only [mapFree?, mapFree?_congr hfg _ b]
  | k, .case s brs => by
      rw [mapFree?, mapFree?, mapFree?_congr hfg k s, mapFreeBranches?_congr hfg k brs]
  | k, .ascribed a t => by rw [mapFree?, mapFree?, mapFree?_congr hfg k a, mapFree?_congr hfg k t]
  | k, .annotated a n => by rw [mapFree?, mapFree?, mapFree?_congr hfg k a]
  | k, .reify a => by rw [mapFree?, mapFree?, mapFree?_congr hfg k a]
  | _, .const _ | _, .ctor _ | _, .free _ | _, .uvar _ | _, .lit _ | _, .blob _ | _, .native _ => rfl

theorem mapFreeArgs?_congr {f g : Nat → Nat → Option (Term β σ)}
    (hfg : ∀ k i, k ≤ i → f k i = g k i) :
    ∀ (k : Nat) (as : List (Term β σ)), mapFreeArgs? f k as = mapFreeArgs? g k as
  | _, [] => rfl
  | k, a :: as => by
      rw [mapFreeArgs?, mapFreeArgs?, mapFree?_congr hfg k a, mapFreeArgs?_congr hfg k as]

theorem mapFreeBranches?_congr {f g : Nat → Nat → Option (Term β σ)}
    (hfg : ∀ k i, k ≤ i → f k i = g k i) :
    ∀ (k : Nat) (brs : List (Branch (Term β σ))), mapFreeBranches? f k brs = mapFreeBranches? g k brs
  | _, [] => rfl
  | k, ⟨p, b⟩ :: brs => by
      simp only [mapFreeBranches?, mapFree?_congr hfg _ b, mapFreeBranches?_congr hfg k brs]
end

theorem shift_of_shift? {t u : Term β σ} {amount c : Nat} (h : t.shift? amount c = some u) :
    u = t.shift amount c := by
  rw [shift?] at h
  rw [shift]
  split at h
  · rw [if_pos ‹_›]
    exact (Option.some.inj h).symm
  · rw [if_neg ‹_›]
    refine mapFree_of_mapFree? (fun m i v hv => ?_) h
    simp only [addIndex?, Option.map_eq_some_iff, Option.ite_none_right_eq_some,
      Option.some.injEq] at hv
    obtain ⟨_, ⟨_, rfl⟩, rfl⟩ := hv
    rfl

theorem instantiate_of_instantiate? {t u : Term β σ} {c : Nat} {vals : List (Term β σ)}
    (h : t.instantiate? c vals = some u) : u = t.instantiate c vals := by
  rw [instantiate?] at h
  rw [instantiate]
  split at h
  · rw [if_pos ‹_›]
    exact (Option.some.inj h).symm
  · rw [if_neg ‹_›]
    refine mapFree_of_mapFree? (fun m i v hv => ?_) h
    cases hw : vals[i - m]? with
    | some w =>
        simp only [instantiateVar?, hw] at hv
        simp only [instantiateVar, hw]
        exact shift_of_shift? hv
    | none =>
        simp only [instantiateVar?, hw] at hv
        simp only [instantiateVar, hw]
        exact (Option.some.inj hv).symm

theorem beta_of_beta? {t u : Term β σ} {as : List (Term β σ)} (h : t.beta? as = some u) :
    u = t.beta as :=
  instantiate_of_instantiate? h

end TacticEngine.Term
