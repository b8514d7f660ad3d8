/-
# TacticEngine.Proofs.Term.Naming -- a term put for a name.

A free name stands for a term that is given from outside, so wherever the name occurs, the term is put with
its variables shifted past the binders there.  This commutes with every rebuilding of the surrounding term
that treats the shifted term as it treats any other (`put_mapFree`), hence with shifts and with the
instantiation that applying a lambda or taking a branch comes to.  A canonical term in which the name is
fresh stays as it is.
-/
import TacticEngine.Proofs.Term.Substitution

namespace TacticEngine.Term

variable {β σ : Type}

/-! ## Putting a term for a name -/

section

variable (a : String) (v : Term β σ)

mutual
/-- A term under `k` binders with `v`, which is not under them, for the name `a`. -/
def put : Nat → Term β σ → Term β σ
  | k, .free b => if b = a then v.shift k 0 else .free b
  | k, .app h as => (put k h).apps (putArgs k as)
  | k, .lam n b => .lam n (put (k + n) b)
  | k, .case s brs => .case (put k s) (putBranches k brs)
  | k, .ascribed t u => .ascribed (put k t) (put k u)
  | k, .annotated t n => .annotated (put k t) n
  | k, .reify t => .reify (put k t)
  | _, t => t

/-- `put` on each argument. -/
def putArgs : Nat → List (Term β σ) → List (Term β σ)
  | _, [] => []
  | k, t :: ts => put k t :: putArgs k ts

/-- `put` on the body of each branch, under the variables that its pattern binds. -/
def putBranches : Nat → List (Branch (Term β σ)) → List (Branch (Term β σ))
  | _, [] => []
  | k, ⟨p, b⟩ :: brs => ⟨p, put (k + p.binders) b⟩ :: putBranches k brs
end

end

/-- The name does not occur in the term. -/
def Fresh (a : String) (t : Term β σ) : Prop := .free a ∉ t.subterms

variable {a : String} {v : Term β σ}

@[simp]
theorem put_free_self (k : Nat) : put a v k (.free a) = v.shift k 0 := by
  simp [put]

theorem put_free_of_ne {b : String} (hb : b ≠ a) (k : Nat) : put a v k (.free b) = .free b := by
  rw [put, if_neg hb]

theorem putArgs_eq_map (k : Nat) (ts : List (Term β σ)) : putArgs a v k ts = ts.map (put a v k) := by
  induction ts with
  | nil => rfl
  | cons t ts ih => rw [putArgs, ih, List.map_cons]

theorem put_app (k : Nat) (h : Term β σ) (as : List (Term β σ)) :
    put a v k (.app h as) = (put a v k h).apps (as.map (put a v k)) := by
  rw [put, putArgs_eq_map]

theorem put_apps (k : Nat) (t : Term β σ) (as : List (Term β σ)) :
    put a v k (t.apps as) = (put a v k t).apps (as.map (put a v k)) := by
  by_cases hnil : as = []
  · simp [hnil]
  · cases happ : t.isApp
    case false => rw [apps_of_not_isApp happ hnil, put_app]
    case true =>
      obtain ⟨h, bs, rfl⟩ := isApp_eq_true_iff.mp happ
      rw [app_apps, put_app, put_app, apps_apps, List.map_append]

theorem put_lams (k n : Nat) (b : Term β σ) : put a v k (lams n b) = lams n (put a v (k + n) b) := by
  cases n <;> simp [lams, put]

/-! ## Putting and rebuilding -/

section

variable {f g : Nat → Nat → Term β σ} {p q : Nat}

mutual
/-- Putting a term for a name commutes with rebuilding: what is put for the variables beforehand is put into
afterwards, and the term that is put comes out with the shift that it needs in the end. -/
theorem put_mapFree (hvar : ∀ m i, m ≤ i → put a v (m + p) (f m i) = g m i)
    (hname : ∀ m, mapFree g m (v.shift (m + q) 0) = v.shift (m + p) 0) :
    ∀ (k : Nat) (t : Term β σ), put a v (k + p) (mapFree f k t) = mapFree g k (put a v (k + q) t)
  | k, .bvar i => by
      by_cases hk : k ≤ i
      · simp [mapFree, put, hk, hvar k i hk]
      · simp [mapFree, put, hk]
  | k, .free b => by
      by_cases hb : b = a
      · simp [mapFree, put, hb, hname k]
      · simp [mapFree, put, hb]
  | k, .app t as => by
      rw [mapFree, put_apps, put_mapFree hvar hname, ← putArgs_eq_map, putArgs_mapFreeArgs hvar hname, put,
        mapFree_apps]
  | k, .lam m b => by
      rw [mapFree, put_lams, put, mapFree, Nat.add_right_comm k p, Nat.add_right_comm k q,
        put_mapFree hvar hname]
  | k, .case s brs => by
      rw [mapFree, put, put, mapFree, put_mapFree hvar hname, putBranches_mapFreeBranches hvar hname]
  | k, .ascribed t u => by
      rw [mapFree, put, put, mapFree, put_mapFree hvar hname, put_mapFree hvar hname]
  | k, .annotated t _ => by rw [mapFree, put, put, mapFree, put_mapFree hvar hname]
  | k, .reify t => by rw [mapFree, put, put, mapFree, put_mapFree hvar hname]
  | _, .const _ | _, .ctor _ | _, .uvar _ | _, .lit _ | _, .blob _ | _, .native _ => by
      simp [mapFree, put]

theorem putArgs_mapFreeArgs (hvar : ∀ m i, m ≤ i → put a v (m + p) (f m i) = g m i)
    (hname : ∀ m, mapFree g m (v.shift (m + q) 0) = v.shift (m + p) 0) :
    ∀ (k : Nat) (ts : List (Term β σ)),
      putArgs a v (k + p) (mapFreeArgs f k ts) = mapFreeArgs g k (putArgs a v (k + q) ts)
  | _, [] => rfl
  | k, t :: ts => by
      rw [mapFreeArgs, putArgs, putArgs, mapFreeArgs, put_mapFree hvar hname,
        putArgs_mapFreeArgs hvar hname]

theorem putBranches_mapFreeBranches (hvar : ∀ m i, m ≤ i → put a v (m + p) (f m i) = g m i)
    (hname : ∀ m, mapFree g m (v.shift (m + q) 0) = v.shift (m + p) 0) :
    ∀ (k : Nat) (brs : List (Branch (Term β σ))),
      putBranches a v (k + p) (mapFreeBranches f k brs) = mapFreeBranches g k (putBranches a v (k + q) brs)
  | _, [] => rfl
  | k, ⟨π, b⟩ :: brs => by
      rw [mapFreeBranches, putBranches, putBranches, mapFreeBranches, Nat.add_right_comm k p,
        Nat.add_right_comm k q, put_mapFree hvar hname, putBranches_mapFreeBranches hvar hname]
end

end

/-- A term that is moved under `s` binders has the name put there. -/
theorem put_shift (k s : Nat) (t : Term β σ) :
    put a v (k + s) (t.shift s 0) = (put a v k t).shift s 0 := by
  rcases Nat.eq_zero_or_pos s with rfl | hs
  · rfl
  · rw [shift_of_pos hs, shift_of_pos hs]
    have hmoved := put_mapFree (a := a) (v := v) (f := fun _ i => .bvar (i + s))
      (g := fun _ i => .bvar (i + s)) (p := k + s) (q := k) (fun m i _ => by simp [put])
      (fun m => by
        have hshift := shift_shift v (m + k) s 0 m (Nat.le_add_right m k)
        rw [Nat.zero_add, shift_of_pos hs] at hshift
        rw [hshift, Nat.add_assoc]) 0 t
    rwa [Nat.zero_add, Nat.zero_add] at hmoved

/-- Values for variables are put into like the term that they are put for. -/
theorem put_instantiate (hv : v.Canonical) (k : Nat) (us : List (Term β σ)) (t : Term β σ) :
    put a v k (t.instantiate 0 us) =
      (put a v (k + us.length) t).instantiate 0 (us.map (put a v k)) := by
  by_cases hnil : us = []
  · subst hnil
    rfl
  · have hmap : us.map (put a v k) ≠ [] := by simpa using hnil
    rw [instantiate_of_ne_nil hnil, instantiate_of_ne_nil hmap]
    have hput := put_mapFree (a := a) (v := v) (f := instantiateVar us)
      (g := instantiateVar (us.map (put a v k))) (p := k) (q := k + us.length) (fun m i _ => by
        rw [instantiateVar, instantiateVar, List.getElem?_map]
        cases us[i - m]? with
        | some u => rw [Option.map_some, Nat.add_comm m k, put_shift]
        | none => simp [put])
      (fun m => by
        have hcancel := instantiate_shift_cancel hv (us.map (put a v k)) (m + k) 0 m (Nat.le_add_right m k)
        rw [Nat.zero_add, List.length_map, instantiate_of_ne_nil hmap] at hcancel
        rw [← hcancel, Nat.add_assoc]) 0 t
    rwa [Nat.zero_add, Nat.zero_add] at hput

/-! ## Fresh names -/

mutual
/-- Nothing is put for a name that does not occur. -/
theorem put_of_fresh : ∀ {t : Term β σ} {k : Nat}, t.Canonical → t.Fresh a → put a v k t = t
  | .free b, k, _, hf => by
      have hb : b ≠ a := fun hb => hf (by simp [subterms, hb])
      rw [put_free_of_ne hb]
  | .app h as, k, hc, hf => by
      simp only [Canonical] at hc
      simp only [Fresh, subterms, List.mem_cons, List.mem_append, not_or] at hf
      rw [put, put_of_fresh hc.2.2.1 hf.2.1, putArgs_of_fresh hc.2.2.2 hf.2.2]
      exact apps_of_not_isApp hc.1 hc.2.1
  | .lam n b, k, hc, hf => by
      simp only [Canonical] at hc
      simp only [Fresh, subterms, List.mem_cons, not_or] at hf
      rw [put, put_of_fresh hc.2 hf.2]
  | .case s brs, k, hc, hf => by
      simp only [Canonical] at hc
      simp only [Fresh, subterms, List.mem_cons, List.mem_append, not_or] at hf
      rw [put, put_of_fresh hc.1 hf.2.1, putBranches_of_fresh hc.2 hf.2.2]
  | .ascribed t u, k, hc, hf => by
      simp only [Canonical] at hc
      simp only [Fresh, subterms, List.mem_cons, List.mem_append, not_or] at hf
      rw [put, put_of_fresh hc.1 hf.2.1, put_of_fresh hc.2 hf.2.2]
  | .annotated t n, k, hc, hf => by
      simp only [Canonical] at hc
      simp only [Fresh, subterms, List.mem_cons, not_or] at hf
      rw [put, put_of_fresh hc hf.2]
  | .reify t, k, hc, hf => by
      simp only [Canonical] at hc
      simp only [Fresh, subterms, List.mem_cons, not_or] at hf
      rw [put, put_of_fresh hc hf.2]
  | .const _, _, _, _ | .ctor _, _, _, _ | .bvar _, _, _, _ | .uvar _, _, _, _ | .lit _, _, _, _
  | .blob _, _, _, _ | .native _, _, _, _ => by simp [put]

theorem putArgs_of_fresh : ∀ {ts : List (Term β σ)} {k : Nat}, CanonicalArgs ts →
    .free a ∉ subtermsArgs ts → putArgs a v k ts = ts
  | [], _, _, _ => rfl
  | t :: ts, k, hc, hf => by
      simp only [CanonicalArgs] at hc
      simp only [subtermsArgs, List.mem_append, not_or] at hf
      rw [putArgs, put_of_fresh hc.1 hf.1, putArgs_of_fresh hc.2 hf.2]

theorem putBranches_of_fresh : ∀ {brs : List (Branch (Term β σ))} {k : Nat}, CanonicalBranches brs →
    .free a ∉ subtermsBranches brs → putBranches a v k brs = brs
  | [], _, _, _ => rfl
  | ⟨p, b⟩ :: brs, k, hc, hf => by
      simp only [CanonicalBranches] at hc
      simp only [subtermsBranches, List.mem_append, not_or] at hf
      rw [putBranches, put_of_fresh hc.1 hf.1, putBranches_of_fresh hc.2 hf.2]
end

/-- To put a fresh name for a variable and then a term for the name is to put the term for the
variable. -/
theorem put_instantiate_free (hv : v.Canonical) {t : Term β σ} (ht : t.Canonical) (hfresh : t.Fresh a) :
    put a v 0 (t.instantiate 0 [.free a]) = t.instantiate 0 [v] := by
  rw [put_instantiate hv, put_of_fresh ht hfresh]
  simp [shift_zero]

end TacticEngine.Term
