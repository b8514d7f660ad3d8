/-
# TacticEngine.Proofs.Term.Erased -- terms without their wrappers.

`erase` removes every annotation, ascription and reification from a term.  An application whose head was
wrapped may then have an application for its head, which `apps` makes flat again.

Erasing commutes with what evaluators do to terms: with applying, with substituting, as far as indices stay
in range, and with looking at data that has no wrappers outside.
-/
import TacticEngine.Proofs.Term.Closed

namespace TacticEngine

variable {β σ : Type}

namespace Term

mutual
/-- The term without wrappers, those of its subterms included. -/
def erase : Term β σ → Term β σ
  | .app h as => h.erase.apps (eraseArgs as)
  | .lam n b => .lam n b.erase
  | .case s brs => .case s.erase (eraseBranches brs)
  | .ascribed t _ => t.erase
  | .annotated t _ => t.erase
  | .reify t => t.erase
  | t => t

/-- Arguments without wrappers. -/
def eraseArgs : List (Term β σ) → List (Term β σ)
  | [] => []
  | a :: as => a.erase :: eraseArgs as

/-- Branches whose bodies are without wrappers. -/
def eraseBranches : List (Branch (Term β σ)) → List (Branch (Term β σ))
  | [] => []
  | ⟨p, b⟩ :: brs => ⟨p, b.erase⟩ :: eraseBranches brs
end

/-- Whether a term is wrapped. -/
def isWrapper : Term β σ → Bool
  | .ascribed .. | .annotated .. | .reify _ => true
  | _ => false

theorem eraseArgs_eq_map (as : List (Term β σ)) : eraseArgs as = as.map erase := by
  induction as with
  | nil => rfl
  | cons a as ih => rw [eraseArgs, ih, List.map_cons]

theorem erase_app (h : Term β σ) (as : List (Term β σ)) :
    (Term.app h as).erase = h.erase.apps (as.map erase) := by
  rw [erase, eraseArgs_eq_map]

/-- Erasing goes into an application. -/
@[simp]
theorem erase_apps (t : Term β σ) (as : List (Term β σ)) :
    (t.apps as).erase = t.erase.apps (as.map erase) := by
  by_cases has : as = []
  · subst has
    rw [apps_nil, List.map_nil, apps_nil]
  · cases happ : t.isApp
    case false => rw [apps_of_not_isApp happ has, erase_app]
    case true =>
      obtain ⟨h, bs, rfl⟩ := isApp_eq_true_iff.mp happ
      rw [app_apps, erase_app, erase_app, apps_apps, List.map_append]

theorem erase_lams (n : Nat) (b : Term β σ) : (lams n b).erase = lams n b.erase := by
  cases n <;> rfl

/-! ## Substitution -/

section

variable {f f' : Nat → Nat → Option (Term β σ)}

mutual
/-- Where a term can be rebuilt, so can the erased term, and gives the erased result. -/
theorem mapFree?_erase (hf : ∀ m i v, f m i = some v → f' m i = some v.erase) :
    ∀ {k : Nat} {t u : Term β σ}, mapFree? f k t = some u → mapFree? f' k t.erase = some u.erase
  | k, .bvar i, u, h => by
      simp only [mapFree?, erase] at h ⊢
      split at h
      · rw [if_pos ‹_›]
        exact hf _ _ _ h
      · rw [if_neg ‹_›, ← Option.some.inj h]
        rfl
  | k, .app t as, u, h => by
      simp only [mapFree?, Option.bind_eq_bind, Option.bind_eq_some_iff, Option.pure_def,
        Option.some.injEq] at h
      obtain ⟨t', ht, as', has, rfl⟩ := h
      rw [erase, erase_apps, ← eraseArgs_eq_map]
      exact mapFree?_apps (mapFree?_erase hf ht) (mapFreeArgs?_erase hf has)
  | k, .lam n b, u, h => by
      simp only [mapFree?, Option.bind_eq_bind, Option.bind_eq_some_iff, Option.pure_def,
        Option.some.injEq] at h
      obtain ⟨m, hm, b', hb, rfl⟩ := h
      simp [erase, mapFree?, hm, mapFree?_erase hf hb, erase_lams]
  | k, .case s brs, u, h => by
      simp only [mapFree?, Option.bind_eq_bind, Option.bind_eq_some_iff, Option.pure_def,
        Option.some.injEq] at h
      obtain ⟨s', hs, brs', hbrs, rfl⟩ := h
      simp [erase, mapFree?, mapFree?_erase hf hs, mapFreeBranches?_erase hf hbrs]
  | k, .ascribed a s, u, h => by
      simp only [mapFree?, Option.bind_eq_bind, Option.bind_eq_some_iff, Option.pure_def,
        Option.some.injEq] at h
      obtain ⟨a', ha, s', hs, rfl⟩ := h
      simpa only [erase] using mapFree?_erase hf ha
  | k, .annotated a n, u, h => by
      simp only [mapFree?, Option.bind_eq_bind, Option.bind_eq_some_iff, Option.pure_def,
        Option.some.injEq] at h
      obtain ⟨a', ha, rfl⟩ := h
      simpa only [erase] using mapFree?_erase hf ha
  | k, .reify a, u, h => by
      simp only [mapFree?, Option.bind_eq_bind, Option.bind_eq_some_iff, Option.pure_def,
        Option.some.injEq] at h
      obtain ⟨a', ha, rfl⟩ := h
      simpa only [erase] using mapFree?_erase hf ha
  | _, .const _, _, h | _, .ctor _, _, h | _, .free _, _, h | _, .uvar _, _, h
  | _, .lit _, _, h | _, .blob _, _, h | _, .native _, _, h => by
      cases h
      rfl

theorem mapFreeArgs?_erase (hf : ∀ m i v, f m i = some v → f' m i = some v.erase) :
    ∀ {k : Nat} {as us : List (Term β σ)}, mapFreeArgs? f k as = some us →
      mapFreeArgs? f' k (eraseArgs as) = some (eraseArgs us)
  | _, [], _, h => by
      cases h
      rfl
  | k, a :: as, _, h => by
      simp only [mapFreeArgs?, Option.bind_eq_bind, Option.bind_eq_some_iff, Option.pure_def,
        Option.some.injEq] at h
      obtain ⟨a', ha, as', has, rfl⟩ := h
      simp [eraseArgs, mapFreeArgs?, mapFree?_erase hf ha, mapFreeArgs?_erase hf has]

theorem mapFreeBranches?_erase (hf : ∀ m i v, f m i = some v → f' m i = some v.erase) :
    ∀ {k : Nat} {brs us : List (Branch (Term β σ))}, mapFreeBranches? f k brs = some us →
      mapFreeBranches? f' k (eraseBranches brs) = some (eraseBranches us)
  | _, [], _, h => by
      cases h
      rfl
  | k, ⟨p, b⟩ :: brs, _, h => by
      simp only [mapFreeBranches?, Option.bind_eq_bind, Option.bind_eq_some_iff, Option.pure_def,
        Option.some.injEq] at h
      obtain ⟨m, hm, b', hb, brs', hbrs, rfl⟩ := h
      simp [eraseBranches, mapFreeBranches?, hm, mapFree?_erase hf hb, mapFreeBranches?_erase hf hbrs]
end

end

theorem shift?_erase {amount cutoff : Nat} {t u : Term β σ} (h : t.shift? amount cutoff = some u) :
    t.erase.shift? amount cutoff = some u.erase := by
  rw [shift?] at h ⊢
  split at h
  · rw [if_pos ‹_›, ← Option.some.inj h]
  · rw [if_neg ‹_›]
    refine mapFree?_erase (fun m i v hv => ?_) h
    rw [hv]
    obtain ⟨j, -, rfl⟩ := Option.map_eq_some_iff.mp hv
    rfl

theorem instantiateVar?_erase {vals : List (Term β σ)} {k i : Nat} {v : Term β σ}
    (h : instantiateVar? vals k i = some v) :
    instantiateVar? (vals.map erase) k i = some v.erase := by
  rw [instantiateVar?] at h
  rw [instantiateVar?, List.getElem?_map]
  cases hv : vals[i - k]? with
  | some w =>
      rw [hv] at h
      exact shift?_erase h
  | none =>
      rw [hv] at h
      cases h
      rw [List.length_map]
      rfl

/-- Erased arguments put into an erased body give the erased result. -/
theorem beta?_erase {as : List (Term β σ)} {b u : Term β σ} (h : b.beta? as = some u) :
    b.erase.beta? (as.map erase) = some u.erase := by
  rw [beta?, instantiate?] at h ⊢
  rw [← List.map_reverse, List.isEmpty_map]
  split at h
  · rw [if_pos ‹_›, ← Option.some.inj h]
  · rw [if_neg ‹_›]
    exact mapFree?_erase (fun _ _ _ => instantiateVar?_erase) h

/-! ## Terms without wrappers outside -/

/-- Neither the term nor the head of the application that it is has a wrapper, and the application is flat
and proper. -/
def Exposed : Term β σ → Prop
  | .app h as => h.isApp = false ∧ h.isWrapper = false ∧ as ≠ []
  | t => t.isWrapper = false

variable {t h s : Term β σ} {as : List (Term β σ)}

theorem Exposed.isWrapper_eq (ht : t.Exposed) : t.isWrapper = false := by
  cases t <;> first | exact ht | rfl

theorem exposed_of_not_isApp (happ : t.isApp = false) (hw : t.isWrapper = false) : t.Exposed := by
  cases t with
  | app => cases happ
  | _ => exact hw

theorem Exposed.apps (ht : t.Exposed) (as : List (Term β σ)) : (t.apps as).Exposed := by
  by_cases has : as = []
  · subst has
    rwa [apps_nil]
  · cases happ : t.isApp
    case false =>
      rw [apps_of_not_isApp happ has]
      exact ⟨happ, ht.isWrapper_eq, has⟩
    case true =>
      obtain ⟨h, bs, rfl⟩ := isApp_eq_true_iff.mp happ
      rw [app_apps]
      exact ⟨ht.1, ht.2.1, List.append_ne_nil_of_left_ne_nil ht.2.2 as⟩

/-- Erasing an exposed application leaves the head and the number of arguments. -/
theorem Exposed.erase_app (ht : (Term.app h as).Exposed) :
    (Term.app h as).erase = .app h.erase (as.map erase) := by
  obtain ⟨happ, hw, hne⟩ := ht
  rw [Term.erase_app]
  refine apps_of_not_isApp ?_ (by simpa using hne)
  cases h with
  | app => cases happ
  | ascribed | annotated | reify => cases hw
  | _ => rfl

/-- Erasing an exposed term leaves its shape. -/
theorem Exposed.isApp_erase (ht : t.Exposed) : t.erase.isApp = t.isApp := by
  cases t with
  | app h as => rw [ht.erase_app]; rfl
  | ascribed | annotated | reify => cases ht
  | _ => rfl

theorem Exposed.asLit?_erase (ht : t.Exposed) : t.erase.asLit? = t.asLit? := by
  cases t with
  | app h as => rw [ht.erase_app]; rfl
  | ascribed | annotated | reify => cases ht
  | _ => rfl

theorem Exposed.asCtorApp?_erase (ht : t.Exposed) :
    t.erase.asCtorApp? = t.asCtorApp?.map fun (c, as) => (c, as.map erase) := by
  cases t with
  | app h as =>
      rw [ht.erase_app]
      obtain ⟨happ, hw, -⟩ := ht
      cases h with
      | app => cases happ
      | ascribed | annotated | reify => cases hw
      | _ => rfl
  | ascribed | annotated | reify => cases ht
  | _ => rfl

theorem Exposed.isWrapper_erase (ht : t.Exposed) : t.erase.isWrapper = false := by
  cases t with
  | app h as => rw [ht.erase_app]; rfl
  | ascribed | annotated | reify => cases ht
  | _ => rfl

/-- What an exposed term looks like, read off the erased one. -/
theorem Exposed.shape (ht : t.Exposed) : match t.erase with
    | .app h' as' => ∃ h as, t = .app h as ∧ h.erase = h' ∧ as.map erase = as'
    | .lam n b' => ∃ b, t = .lam n b ∧ b.erase = b'
    | .case s' brs' => ∃ s brs, t = .case s brs ∧ s.erase = s' ∧ eraseBranches brs = brs'
    | u => t = u := by
  cases t with
  | app h as =>
      rw [ht.erase_app]
      exact ⟨h, as, rfl, rfl, rfl⟩
  | lam n b => exact ⟨b, rfl, rfl⟩
  | case s brs => exact ⟨s, brs, rfl, rfl, rfl⟩
  | ascribed | annotated | reify => cases ht
  | _ => exact rfl

end Term

end TacticEngine
