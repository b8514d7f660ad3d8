/-
# TacticEngine.Proofs.Term.Substitution -- the laws of substitution, for open terms.

All of them come from one fact about `mapFree`: two rebuildings in a row are one (`mapFree_mapFree`),
where each of the two may skip binders that the other one goes under.  What is left to show is then a
statement about a single variable, which is inside the binders that are skipped, among those that get
values, or beyond them.

The order of the laws is that of their use.  Shifting twice is shifting once; putting values below
binders that a shift has made room for commutes with the shift, and putting them for exactly those
binders undoes it.  With these, the values of two groups of binders may be put in either order
(`substitution_lemma`), or all at once (`instantiate_instantiate`).
-/
import TacticEngine.Proofs.Term.Closed

namespace TacticEngine.Term

variable {β σ : Type}

/-! ## Rebuilding twice -/

section

variable {f g h : Nat → Nat → Term β σ} {p q : Nat}

mutual
/-- Two rebuildings in a row are one.  The inner one skips the variables of `p` more binders, the outer
one those of `q`. -/
theorem mapFree_mapFree
    (hv : ∀ m i, m ≤ i → mapFree g (m + q) (if m + p ≤ i then f (m + p) i else .bvar i) = h m i) :
    ∀ (k : Nat) (t : Term β σ), mapFree g (k + q) (mapFree f (k + p) t) = mapFree h k t
  | k, .bvar i => by
      by_cases hk : k ≤ i
      · rw [mapFree, mapFree, if_pos hk, ← hv k i hk]
      · simp only [mapFree, show ¬k + p ≤ i by omega, show ¬k + q ≤ i by omega, hk, if_false]
  | k, .app t as => by
      rw [mapFree, mapFree_apps, mapFree_mapFree hv, mapFreeArgs_mapFreeArgs hv, mapFree]
  | k, .lam m b => by
      rw [mapFree, mapFree_lams, Nat.add_right_comm k p, Nat.add_right_comm k q,
        mapFree_mapFree hv, mapFree]
  | k, .case s brs => by
      rw [mapFree, mapFree, mapFree_mapFree hv, mapFreeBranches_mapFreeBranches hv, mapFree]
  | k, .ascribed a t => by
      rw [mapFree, mapFree, mapFree_mapFree hv, mapFree_mapFree hv, mapFree]
  | k, .annotated a m => by rw [mapFree, mapFree, mapFree_mapFree hv, mapFree]
  | k, .reify a => by rw [mapFree, mapFree, mapFree_mapFree hv, mapFree]
  | _, .const _ | _, .ctor _ | _, .free _ | _, .uvar _ | _, .lit _ | _, .blob _
  | _, .native _ => by simp [mapFree]

theorem mapFreeArgs_mapFreeArgs
    (hv : ∀ m i, m ≤ i → mapFree g (m + q) (if m + p ≤ i then f (m + p) i else .bvar i) = h m i) :
    ∀ (k : Nat) (as : List (Term β σ)),
      mapFreeArgs g (k + q) (mapFreeArgs f (k + p) as) = mapFreeArgs h k as
  | _, [] => rfl
  | k, a :: as => by
      rw [mapFreeArgs, mapFreeArgs, mapFree_mapFree hv, mapFreeArgs_mapFreeArgs hv, mapFreeArgs]

theorem mapFreeBranches_mapFreeBranches
    (hv : ∀ m i, m ≤ i → mapFree g (m + q) (if m + p ≤ i then f (m + p) i else .bvar i) = h m i) :
    ∀ (k : Nat) (brs : List (Branch (Term β σ))),
      mapFreeBranches g (k + q) (mapFreeBranches f (k + p) brs) = mapFreeBranches h k brs
  | _, [] => rfl
  | k, ⟨π, b⟩ :: brs => by
      rw [mapFreeBranches, mapFreeBranches, Nat.add_right_comm k p, Nat.add_right_comm k q,
        mapFree_mapFree hv, mapFreeBranches_mapFreeBranches hv, mapFreeBranches]
end

end

mutual
/-- Under enough binders, every term is closed. -/
theorem exists_closedBelow : ∀ t : Term β σ, ∃ k, t.ClosedBelow k
  | .bvar i => ⟨i + 1, by simp [ClosedBelow]⟩
  | .app h as => by
      obtain ⟨k, hk⟩ := exists_closedBelow h
      obtain ⟨m, hm⟩ := exists_closedBelowArgs as
      exact ⟨max k m, hk.mono (Nat.le_max_left k m), closedBelowArgs_mono (Nat.le_max_right k m) hm⟩
  | .lam n b => by
      obtain ⟨k, hk⟩ := exists_closedBelow b
      exact ⟨k, hk.mono (Nat.le_add_right k n)⟩
  | .case s brs => by
      obtain ⟨k, hk⟩ := exists_closedBelow s
      obtain ⟨m, hm⟩ := exists_closedBelowBranches brs
      exact ⟨max k m, hk.mono (Nat.le_max_left k m),
        closedBelowBranches_mono (Nat.le_max_right k m) hm⟩
  | .ascribed a t => by
      obtain ⟨k, hk⟩ := exists_closedBelow a
      obtain ⟨m, hm⟩ := exists_closedBelow t
      exact ⟨max k m, hk.mono (Nat.le_max_left k m), hm.mono (Nat.le_max_right k m)⟩
  | .annotated a _ => exists_closedBelow a
  | .reify a => exists_closedBelow a
  | .const _ | .ctor _ | .free _ | .uvar _ | .lit _ | .blob _ | .native _ => ⟨0, trivial⟩

theorem exists_closedBelowArgs : ∀ as : List (Term β σ), ∃ k, ClosedBelowArgs k as
  | [] => ⟨0, trivial⟩
  | a :: as => by
      obtain ⟨k, hk⟩ := exists_closedBelow a
      obtain ⟨m, hm⟩ := exists_closedBelowArgs as
      exact ⟨max k m, hk.mono (Nat.le_max_left k m), closedBelowArgs_mono (Nat.le_max_right k m) hm⟩

theorem exists_closedBelowBranches : ∀ brs : List (Branch (Term β σ)), ∃ k, ClosedBelowBranches k brs
  | [] => ⟨0, trivial⟩
  | ⟨p, b⟩ :: brs => by
      obtain ⟨k, hk⟩ := exists_closedBelow b
      obtain ⟨m, hm⟩ := exists_closedBelowBranches brs
      exact ⟨max k m, hk.mono (by omega), closedBelowBranches_mono (Nat.le_max_right k m) hm⟩
end

/-- Putting each variable for itself leaves a canonical term as it is, open or not. -/
theorem mapFree_bvar {f : Nat → Nat → Term β σ} (hf : ∀ m i, m ≤ i → f m i = .bvar i) {t : Term β σ}
    (ht : t.Canonical) (k : Nat) : mapFree f k t = t := by
  obtain ⟨d, hd⟩ := exists_closedBelow t
  exact mapFree_eq_self (fun m i hm _ => hf m i hm) ht (hd.mono (Nat.le_add_left d k))

/-! ## Shifts -/

theorem shift_zero (t : Term β σ) (c : Nat) : t.shift 0 c = t := rfl

theorem shift_of_pos {a : Nat} (h : 0 < a) (t : Term β σ) (c : Nat) :
    t.shift a c = mapFree (fun _ i => .bvar (i + a)) c t := by
  rw [shift, if_neg (Nat.pos_iff_ne_zero.mp h)]

/-- Variables that are shifted may be shifted further, from any place in the room that was made. -/
theorem shift_shift (t : Term β σ) (a b c d : Nat) (hd : d ≤ a) :
    (t.shift a c).shift b (c + d) = t.shift (a + b) c := by
  rcases Nat.eq_zero_or_pos a with rfl | ha
  · obtain rfl : d = 0 := Nat.le_zero.mp hd
    rw [shift_zero, Nat.zero_add, Nat.add_zero]
  · rcases Nat.eq_zero_or_pos b with rfl | hb
    · rfl
    · rw [shift_of_pos ha, shift_of_pos hb, shift_of_pos (by omega)]
      refine mapFree_mapFree (p := 0) (fun m i hm => ?_) c t
      rw [Nat.add_zero, if_pos hm, mapFree, if_pos (by omega), Nat.add_assoc]

/-- Values for the innermost of the binders that a shift has made room for only undo so much of the
shift. -/
theorem instantiate_shift_cancel {t : Term β σ} (ht : t.Canonical) (us : List (Term β σ))
    (a c d : Nat) (hd : d ≤ a) :
    (t.shift (a + us.length) c).instantiate (c + d) us = t.shift a c := by
  by_cases hnil : us = []
  · subst hnil
    rfl
  · have hlen : 0 < us.length := List.length_pos_iff.mpr hnil
    rw [shift_of_pos (by omega), instantiate_of_ne_nil hnil]
    have hfused : mapFree (instantiateVar us) (c + d)
        (mapFree (fun _ i => .bvar (i + (a + us.length))) (c + 0) t) =
          mapFree (fun _ i => .bvar (i + a)) c t := by
      refine mapFree_mapFree (fun m i hm => ?_) c t
      have hout : us[i + (a + us.length) - (m + d)]? = none :=
        List.getElem?_eq_none_iff.mpr (by omega)
      rw [Nat.add_zero, if_pos hm, mapFree, if_pos (by omega), instantiateVar, hout,
        ← Nat.add_assoc, Nat.add_sub_cancel]
    rw [Nat.add_zero] at hfused
    rw [hfused]
    rcases Nat.eq_zero_or_pos a with rfl | ha
    · rw [shift_zero]
      exact mapFree_bvar (fun m i _ => rfl) ht c
    · rw [shift_of_pos ha]

/-- What a shift of an instantiated variable comes to: the variable is instantiated past the room that
the shift makes. -/
theorem mapFree_shift_instantiateVar (vs : List (Term β σ)) (a : Nat) {m c i : Nat} (ha : 0 < a)
    (hi : m + c ≤ i) :
    mapFree (fun _ i => .bvar (i + a)) m (instantiateVar vs (m + c) i) =
      instantiateVar vs (m + (a + c)) (i + a) := by
  have hindex : i + a - (m + (a + c)) = i - (m + c) := by omega
  rw [instantiateVar, instantiateVar, hindex]
  split
  next v hv =>
    have hshift := shift_shift v (m + c) a 0 m (Nat.le_add_right m c)
    rw [Nat.zero_add, shift_of_pos ha] at hshift
    rw [hshift]
    congr 1
    omega
  next hv =>
    have hlen : vs.length ≤ i - (m + c) := List.getElem?_eq_none_iff.mp hv
    rw [mapFree, if_pos (by omega)]
    congr 1
    omega

/-- Values for binders further out may be put before or after room is made for inner ones. -/
theorem instantiate_shift (t : Term β σ) (vs : List (Term β σ)) (a k c : Nat) :
    (t.shift a k).instantiate (k + (a + c)) vs = (t.instantiate (k + c) vs).shift a k := by
  rcases Nat.eq_zero_or_pos a with rfl | ha
  · rw [shift_zero, shift_zero, Nat.zero_add]
  · by_cases hnil : vs = []
    · subst hnil
      rfl
    · rw [shift_of_pos ha, shift_of_pos ha, instantiate_of_ne_nil hnil, instantiate_of_ne_nil hnil]
      refine (mapFree_mapFree (p := 0) (fun _ _ _ => rfl) k t).trans
        (mapFree_mapFree (q := 0) (fun m i hm => ?_) k t).symm
      rw [Nat.add_zero, if_pos hm, mapFree]
      split
      next hi => rw [mapFree_shift_instantiateVar vs a ha hi, if_pos (by omega)]
      next hi => rw [mapFree, if_pos hm, if_neg (by omega)]

/-! ## Instantiating twice -/

/-- Values of outer binders may be put first and those of inner ones later, or all at once. -/
theorem instantiate_instantiate {as fs : List (Term β σ)} (hfs : ∀ f ∈ fs, f.Canonical) (c : Nat)
    (t : Term β σ) :
    (t.instantiate (c + as.length) fs).instantiate c as = t.instantiate c (as ++ fs) := by
  by_cases has : as = []
  · subst has
    rfl
  · by_cases hnil : fs = []
    · subst hnil
      rw [instantiate_nil, List.append_nil]
    · rw [instantiate_of_ne_nil hnil, instantiate_of_ne_nil has,
        instantiate_of_ne_nil (by simp [has])]
      refine mapFree_mapFree (q := 0) (fun m i hm => ?_) c t
      rw [Nat.add_zero]
      split
      next hi =>
        have hindex : i - m - as.length = i - (m + as.length) := by omega
        have happ : (as ++ fs)[i - m]? = fs[i - (m + as.length)]? := by
          rw [List.getElem?_append_right (by omega), hindex]
        rw [instantiateVar, instantiateVar, happ]
        split
        next f hf =>
          rw [← instantiate_of_ne_nil has, ← Nat.zero_add m]
          exact instantiate_shift_cancel (hfs f (List.mem_of_getElem? hf)) as (0 + m) 0 m (by omega)
        next hf =>
          have hlen : fs.length ≤ i - (m + as.length) := List.getElem?_eq_none_iff.mp hf
          have hnone : as[i - fs.length - m]? = none := List.getElem?_eq_none_iff.mpr (by omega)
          rw [mapFree, if_pos (by omega), instantiateVar, hnone, List.length_append]
          show Term.bvar _ = Term.bvar _
          rw [Nat.sub_sub, Nat.add_comm fs.length]
      next hi =>
        rw [mapFree, if_pos hm, instantiateVar, instantiateVar, List.getElem?_append_left (by omega),
          List.getElem?_eq_getElem (by omega)]

/-- What the two orders of instantiating put for a variable. -/
theorem instantiateVar_comm {us vs : List (Term β σ)} (hus : us ≠ []) (hvs : ∀ v ∈ vs, v.Canonical)
    (c : Nat) {m i : Nat} (hm : m ≤ i) :
    (instantiateVar us m i).instantiate (m + c) vs =
      (if m + (us.length + c) ≤ i then instantiateVar vs (m + (us.length + c)) i
      else .bvar i).instantiate m (us.map (·.instantiate c vs)) := by
  have hmap : us.map (·.instantiate c vs) ≠ [] := by simpa using hus
  by_cases hinner : i - m < us.length
  · -- one of the inner values, which the outer ones are put into
    rw [if_neg (by omega), instantiate_of_ne_nil hmap, mapFree, if_pos hm, instantiateVar,
      instantiateVar, List.getElem?_map, List.getElem?_eq_getElem hinner, Option.map_some]
    have hshift := instantiate_shift us[i - m] vs m 0 c
    rwa [Nat.zero_add, Nat.zero_add] at hshift
  · have hnone : us[i - m]? = none := List.getElem?_eq_none_iff.mpr (by omega)
    rw [instantiateVar, hnone]
    by_cases hnil : vs = []
    · subst hnil
      simp only [instantiate_nil, instantiateVar, List.getElem?_nil, List.length_nil, Nat.sub_zero,
        ite_self, List.map_id']
      rw [instantiate_of_ne_nil hus, mapFree, if_pos hm, instantiateVar, hnone]
    · rw [instantiate_of_ne_nil hnil, mapFree]
      by_cases hbetween : i < m + (us.length + c)
      · -- bound between the two groups: lowered past the inner values only
        rw [if_neg (by omega), if_neg (by omega), instantiate_of_ne_nil hmap, mapFree, if_pos hm,
          instantiateVar, List.getElem?_map, hnone, Option.map_none, List.length_map]
      · -- an outer value, put where the inner binders are and then taken out of there
        have hindex : i - us.length - (m + c) = i - (m + (us.length + c)) := by omega
        rw [if_pos (by omega), if_pos (by omega), instantiateVar, instantiateVar, hindex]
        split
        next v hv =>
          have hcancel := instantiate_shift_cancel (hvs v (List.mem_of_getElem? hv))
            (us.map (·.instantiate c vs)) (m + c) 0 m (Nat.le_add_right m c)
          rw [Nat.zero_add, List.length_map] at hcancel
          rw [← hcancel]
          congr 2
          omega
        next hv =>
          have hlen : vs.length ≤ i - (m + (us.length + c)) := List.getElem?_eq_none_iff.mp hv
          have hout : us[i - vs.length - m]? = none := List.getElem?_eq_none_iff.mpr (by omega)
          rw [instantiate_of_ne_nil hmap, mapFree, if_pos (by omega), instantiateVar,
            List.getElem?_map, hout, Option.map_none, List.length_map, Nat.sub_right_comm]

/-- The values of two groups of binders may be put in either order; if the outer ones come first, the
inner values do not see them yet. -/
theorem instantiate_comm (us : List (Term β σ)) {vs : List (Term β σ)} (hvs : ∀ v ∈ vs, v.Canonical)
    (k c : Nat) (t : Term β σ) :
    (t.instantiate k us).instantiate (k + c) vs =
      (t.instantiate (k + us.length + c) vs).instantiate k (us.map (·.instantiate c vs)) := by
  by_cases hus : us = []
  · subst hus
    rfl
  · by_cases hnil : vs = []
    · subst hnil
      simp only [instantiate_nil, List.map_id']
    · have hmap : us.map (·.instantiate c vs) ≠ [] := by simpa using hus
      rw [instantiate_of_ne_nil hus, instantiate_of_ne_nil hnil, instantiate_of_ne_nil hnil,
        instantiate_of_ne_nil hmap, Nat.add_assoc]
      refine (mapFree_mapFree (p := 0) (fun _ _ _ => rfl) k t).trans
        (mapFree_mapFree (q := 0) (fun m i hm => ?_) k t).symm
      rw [Nat.add_zero, if_pos hm, ← instantiate_of_ne_nil hmap, ← instantiate_of_ne_nil hnil]
      exact (instantiateVar_comm hus hvs c hm).symm

/-! ## Within the range of indices -/

section

variable {f g : Nat → Nat → Option (Term β σ)}

mutual
/-- If putting `g` takes back what `f` puts for a variable, it takes back what `f` makes of a canonical
term.  The binders are the same, so that nothing leaves the range on the way back. -/
theorem mapFree?_leftInverse (hv : ∀ m i u, m ≤ i → f m i = some u → mapFree? g m u = some (.bvar i)) :
    ∀ {k : Nat} {t u : Term β σ}, t.Canonical → mapFree? f k t = some u → mapFree? g k u = some t
  | k, .bvar i, u, _, h => by
      rw [mapFree?] at h
      split at h
      next hi => exact hv k i u hi h
      next hi =>
        cases h
        rw [mapFree?, if_neg hi]
  | k, .app t as, u, hc, h => by
      simp only [Canonical] at hc
      simp only [mapFree?, Option.bind_eq_bind, Option.bind_eq_some_iff, Option.pure_def,
        Option.some.injEq] at h
      obtain ⟨t', ht, as', has, rfl⟩ := h
      rw [mapFree?_apps (mapFree?_leftInverse hv hc.2.2.1 ht)
        (mapFreeArgs?_leftInverse hv hc.2.2.2 has), apps_of_not_isApp hc.1 hc.2.1]
  | k, .lam n b, u, hc, h => by
      simp only [Canonical] at hc
      simp only [mapFree?, Option.bind_eq_bind, Option.bind_eq_some_iff, Option.pure_def,
        Option.some.injEq] at h
      obtain ⟨inner, hinner, b', hb, rfl⟩ := h
      obtain ⟨n, rfl⟩ := Nat.exists_eq_succ_of_ne_zero (Nat.pos_iff_ne_zero.mp hc.1)
      simp [lams, mapFree?, hinner, mapFree?_leftInverse hv hc.2 hb]
  | k, .case s brs, u, hc, h => by
      simp only [Canonical] at hc
      simp only [mapFree?, Option.bind_eq_bind, Option.bind_eq_some_iff, Option.pure_def,
        Option.some.injEq] at h
      obtain ⟨s', hs, brs', hbrs, rfl⟩ := h
      simp [mapFree?, mapFree?_leftInverse hv hc.1 hs, mapFreeBranches?_leftInverse hv hc.2 hbrs]
  | k, .ascribed a t, u, hc, h => by
      simp only [Canonical] at hc
      simp only [mapFree?, Option.bind_eq_bind, Option.bind_eq_some_iff, Option.pure_def,
        Option.some.injEq] at h
      obtain ⟨a', ha, t', ht, rfl⟩ := h
      simp [mapFree?, mapFree?_leftInverse hv hc.1 ha, mapFree?_leftInverse hv hc.2 ht]
  | k, .annotated a n, u, hc, h => by
      simp only [Canonical] at hc
      simp only [mapFree?, Option.bind_eq_bind, Option.bind_eq_some_iff, Option.pure_def,
        Option.some.injEq] at h
      obtain ⟨a', ha, rfl⟩ := h
      simp [mapFree?, mapFree?_leftInverse hv hc ha]
  | k, .reify a, u, hc, h => by
      simp only [Canonical] at hc
      simp only [mapFree?, Option.bind_eq_bind, Option.bind_eq_some_iff, Option.pure_def,
        Option.some.injEq] at h
      obtain ⟨a', ha, rfl⟩ := h
      simp [mapFree?, mapFree?_leftInverse hv hc ha]
  | _, .const _, _, _, h | _, .ctor _, _, _, h | _, .free _, _, _, h | _, .uvar _, _, _, h
  | _, .lit _, _, _, h | _, .blob _, _, _, h | _, .native _, _, _, h => by
      cases h
      simp [mapFree?]

theorem mapFreeArgs?_leftInverse
    (hv : ∀ m i u, m ≤ i → f m i = some u → mapFree? g m u = some (.bvar i)) :
    ∀ {k : Nat} {as us : List (Term β σ)}, CanonicalArgs as → mapFreeArgs? f k as = some us →
      mapFreeArgs? g k us = some as
  | _, [], _, _, h => by
      cases h
      rfl
  | k, a :: as, _, hc, h => by
      simp only [CanonicalArgs] at hc
      simp only [mapFreeArgs?, Option.bind_eq_bind, Option.bind_eq_some_iff, Option.pure_def,
        Option.some.injEq] at h
      obtain ⟨a', ha, as', has, rfl⟩ := h
      simp [mapFreeArgs?, mapFree?_leftInverse hv hc.1 ha, mapFreeArgs?_leftInverse hv hc.2 has]

theorem mapFreeBranches?_leftInverse
    (hv : ∀ m i u, m ≤ i → f m i = some u → mapFree? g m u = some (.bvar i)) :
    ∀ {k : Nat} {brs us : List (Branch (Term β σ))}, CanonicalBranches brs →
      mapFreeBranches? f k brs = some us → mapFreeBranches? g k us = some brs
  | _, [], _, _, h => by
      cases h
      rfl
  | k, ⟨p, b⟩ :: brs, _, hc, h => by
      simp only [CanonicalBranches] at hc
      simp only [mapFreeBranches?, Option.bind_eq_bind, Option.bind_eq_some_iff, Option.pure_def,
        Option.some.injEq] at h
      obtain ⟨inner, hinner, b', hb, brs', hbrs, rfl⟩ := h
      simp [mapFreeBranches?, hinner, mapFree?_leftInverse hv hc.1 hb,
        mapFreeBranches?_leftInverse hv hc.2 hbrs]
end

end

/-- Once there is room for some binders, putting values for them is possible and undoes the shift. -/
theorem instantiate?_of_shift? {t u : Term β σ} (ht : t.Canonical) {us : List (Term β σ)} {k : Nat}
    (h : t.shift? us.length k = some u) : u.instantiate? k us = some t := by
  by_cases hnil : us = []
  · subst hnil
    simpa [instantiate?, shift?, eq_comm] using h
  · have hlen : us.length ≠ 0 := by simpa using hnil
    rw [shift?, if_neg hlen] at h
    rw [instantiate?, if_neg (by simpa using hnil)]
    refine mapFree?_leftInverse (fun m i v hm hv => ?_) ht h
    simp only [addIndex?, Option.map_eq_some_iff, Option.ite_none_right_eq_some,
      Option.some.injEq] at hv
    obtain ⟨_, ⟨_, rfl⟩, rfl⟩ := hv
    have hout : us[i + us.length - m]? = none := List.getElem?_eq_none_iff.mpr (by omega)
    rw [mapFree?, if_pos (by omega), instantiateVar?, hout, Nat.add_sub_cancel]

theorem map_instantiate_of_mapM {us ws vs : List (Term β σ)} {c : Nat}
    (h : us.mapM (·.instantiate? c vs) = some ws) : ws = us.map (·.instantiate c vs) := by
  induction us generalizing ws with
  | nil =>
      cases h
      rfl
  | cons u us ih =>
      simp only [List.mapM_cons, Option.bind_eq_bind, Option.bind_eq_some_iff, Option.pure_def,
        Option.some.injEq] at h
      obtain ⟨w, hw, ws, hws, rfl⟩ := h
      rw [List.map_cons, ← instantiate_of_instantiate? hw, ← ih hws]

/-- **The substitution lemma.**  Values for the `us.length` binders at `k` and values for those that are
`c` binders further out may be put one after the other in either order, where the first order puts the
outer values into the inner ones afterwards and the second one beforehand.  Making room for binders and
then putting values for them changes nothing.  Both hold within the range of indices as well: the two
orders never end in different terms, and room that could be made can be taken back. -/
theorem substitution_lemma {t : Term β σ} {us vs : List (Term β σ)} (ht : t.Canonical)
    (hvs : ∀ v ∈ vs, v.Canonical) (k c : Nat) :
    (t.instantiate k us).instantiate (k + c) vs =
        (t.instantiate (k + us.length + c) vs).instantiate k (us.map (·.instantiate c vs)) ∧
      (t.shift us.length k).instantiate k us = t ∧
      (∀ l r,
        (do
          let t' ← t.instantiate? k us
          t'.instantiate? (k + c) vs) = some l →
        (do
          let t' ← t.instantiate? (k + us.length + c) vs
          let us' ← us.mapM (·.instantiate? c vs)
          t'.instantiate? k us') = some r →
        l = r) ∧
      ∀ t', t.shift? us.length k = some t' → t'.instantiate? k us = some t := by
  have hcomm := instantiate_comm us hvs k c t
  refine ⟨hcomm, ?_, ?_, fun t' h => instantiate?_of_shift? ht h⟩
  · have hcancel := instantiate_shift_cancel ht us 0 k 0 (Nat.le_refl 0)
    rwa [Nat.zero_add, shift_zero] at hcancel
  · intro l r hl hr
    simp only [Option.bind_eq_bind, Option.bind_eq_some_iff] at hl hr
    obtain ⟨t₁, h₁, hl⟩ := hl
    obtain ⟨t₂, h₂, us', hus, hr⟩ := hr
    rw [instantiate_of_instantiate? hl, instantiate_of_instantiate? h₁, hcomm,
      instantiate_of_instantiate? hr, instantiate_of_instantiate? h₂, map_instantiate_of_mapM hus]

/-- A function whose body looks into its argument's surroundings: of the variables that are free in it,
number 0 is applied to numbers 1, 2 and 3, under three binders. -/
def nestedSample : Term Unit Unit :=
  .lam 1 (.case (.bvar 0) [⟨.ctor "pair" 2, .app (.bvar 3) [.bvar 4, .bvar 5, .bvar 6]⟩])

/-- `nestedSample` with `#0 #1` for number 0 and `fun/1 (#0 #1)` for what is number 1 from then on. -/
def nestedSampleFilled : Term Unit Unit :=
  .lam 1 (.case (.bvar 0) [⟨.ctor "pair" 2, .app (.bvar 3)
    [.lam 1 (.app (.bvar 0) [.bvar 5]), .bvar 3, .lam 1 (.app (.bvar 0) [.bvar 5]), .bvar 4]⟩])

theorem substitution_lemma_nested :
    (nestedSample.instantiate 2 [.lam 1 (.app (.bvar 0) [.bvar 1])]).instantiate 0
        [.app (.bvar 0) [.lam 1 (.app (.bvar 0) [.bvar 2])]] = nestedSampleFilled ∧
      (do
        let t ← nestedSample.instantiate? 0 [.app (.bvar 0) [.bvar 1]]
        t.instantiate? 1 [.lam 1 (.app (.bvar 0) [.bvar 1])]) = some nestedSampleFilled ∧
      (do
        let t ← nestedSample.instantiate? 2 [.lam 1 (.app (.bvar 0) [.bvar 1])]
        t.instantiate? 0 [.app (.bvar 0) [.lam 1 (.app (.bvar 0) [.bvar 2])]]) =
          some nestedSampleFilled ∧
      (nestedSample.shift 1 0).instantiate 0 [.app (.bvar 0) [.bvar 1]] = nestedSample := by
  have h := @substitution_lemma _ _ nestedSample [.app (.bvar 0) [.bvar 1]]
    [.lam 1 (.app (.bvar 0) [.bvar 1])]
    (by simp [nestedSample, Canonical, CanonicalArgs, CanonicalBranches, isApp])
    (by simp [Canonical, CanonicalArgs, isApp]) 0 1
  exact ⟨h.1.symm, rfl, rfl, h.2.1⟩

end TacticEngine.Term
