/-
# TacticEngine.Proofs.Term.Words -- substitution in words of 32 bits.

A recursion that rebuilds a term adds up the binders that it goes under, and what it puts for a variable is
computed from that sum and the variable.  `depths` lists the sums and `occurrences` the variables with the sum at
each, so a recursion stays within the range of indices exactly if all the sums do and every variable that it looks
at can be replaced (`isSome_mapFree?_iff`).  All sums do exactly if the largest one does
(`forall_depths_lt_iff`).  For `shift?` this says when it fails.  For `instantiate?` it gives a bound under which
nothing fails, not even if every operation is checked, subtractions and the count of the values included
(`instantiateWords?`).
-/
import TacticEngine.Proofs.Term.Closed

namespace TacticEngine

/-- The difference of two indices, if there is as much as is to be taken away. -/
def subIndex? (m n : Nat) : Option Nat :=
  if n ≤ m then some (m - n) else none

namespace Term

variable {β σ : Type}

/-! ## Binders and variables -/

mutual
/-- The largest number of variables bound along a path through a term. -/
def binderDepth : Term β σ → Nat
  | .app h args => max h.binderDepth (binderDepthArgs args)
  | .lam n b => n + b.binderDepth
  | .case s brs => max s.binderDepth (binderDepthBranches brs)
  | .ascribed a t => max a.binderDepth t.binderDepth
  | .annotated a _ => a.binderDepth
  | .reify a => a.binderDepth
  | _ => 0

/-- `binderDepth` of the arguments. -/
def binderDepthArgs : List (Term β σ) → Nat
  | [] => 0
  | a :: as => max a.binderDepth (binderDepthArgs as)

/-- `binderDepth` of the branches, what their patterns bind included. -/
def binderDepthBranches : List (Branch (Term β σ)) → Nat
  | [] => 0
  | ⟨p, b⟩ :: brs => max (p.binders + b.binderDepth) (binderDepthBranches brs)
end

mutual
/-- How many variables are bound inside of each binder of a term, with `k` of them bound around the term. -/
def depths : Nat → Term β σ → List Nat
  | k, .app h args => depths k h ++ depthsArgs k args
  | k, .lam n b => (k + n) :: depths (k + n) b
  | k, .case s brs => depths k s ++ depthsBranches k brs
  | k, .ascribed a t => depths k a ++ depths k t
  | k, .annotated a _ => depths k a
  | k, .reify a => depths k a
  | _, _ => []

/-- `depths` of the arguments. -/
def depthsArgs : Nat → List (Term β σ) → List Nat
  | _, [] => []
  | k, a :: as => depths k a ++ depthsArgs k as

/-- `depths` of the branches, which are binders themselves. -/
def depthsBranches : Nat → List (Branch (Term β σ)) → List Nat
  | _, [] => []
  | k, ⟨p, b⟩ :: brs => (k + p.binders) :: depths (k + p.binders) b ++ depthsBranches k brs
end

mutual
/-- The bound variables in a term, each after the number of variables that are bound at its place, with `k` of
them bound around the term. -/
def occurrences : Nat → Term β σ → List (Nat × Nat)
  | k, .bvar i => [(k, i)]
  | k, .app h args => occurrences k h ++ occurrencesArgs k args
  | k, .lam n b => occurrences (k + n) b
  | k, .case s brs => occurrences k s ++ occurrencesBranches k brs
  | k, .ascribed a t => occurrences k a ++ occurrences k t
  | k, .annotated a _ => occurrences k a
  | k, .reify a => occurrences k a
  | _, _ => []

/-- `occurrences` in the arguments. -/
def occurrencesArgs : Nat → List (Term β σ) → List (Nat × Nat)
  | _, [] => []
  | k, a :: as => occurrences k a ++ occurrencesArgs k as

/-- `occurrences` in the bodies of the branches. -/
def occurrencesBranches : Nat → List (Branch (Term β σ)) → List (Nat × Nat)
  | _, [] => []
  | k, ⟨p, b⟩ :: brs => occurrences (k + p.binders) b ++ occurrencesBranches k brs
end

/-- The indices that are free in a term, as they are called outside of it. -/
def freeIndices (t : Term β σ) : List Nat :=
  ((t.occurrences 0).filter fun o => o.1 ≤ o.2).map fun o => o.2 - o.1

theorem mem_freeIndices {t : Term β σ} {d i : Nat} (ho : (d, i) ∈ t.occurrences 0) (hfree : d ≤ i) :
    i - d ∈ t.freeIndices :=
  List.mem_map.mpr ⟨(d, i), List.mem_filter.mpr ⟨ho, decide_eq_true hfree⟩, rfl⟩

/-! ## Sums of binders -/

mutual
/-- All sums of binders are below a bound exactly if the largest one is. -/
theorem forall_depths_lt_iff {m : Nat} : ∀ {k : Nat} (t : Term β σ), k < m →
    ((∀ d ∈ depths k t, d < m) ↔ k + t.binderDepth < m)
  | k, .app h as, hk => by
      simp only [depths, binderDepth, List.forall_mem_append, forall_depths_lt_iff h hk,
        forall_depthsArgs_lt_iff as hk]
      omega
  | k, .lam n b, hk => by
      simp only [depths, binderDepth, List.forall_mem_cons, ← Nat.add_assoc]
      constructor
      · rintro ⟨hkn, hb⟩
        exact (forall_depths_lt_iff b hkn).mp hb
      · intro hb
        have hkn : k + n < m := by omega
        exact ⟨hkn, (forall_depths_lt_iff b hkn).mpr hb⟩
  | k, .case s brs, hk => by
      simp only [depths, binderDepth, List.forall_mem_append, forall_depths_lt_iff s hk,
        forall_depthsBranches_lt_iff brs hk]
      omega
  | k, .ascribed a t, hk => by
      simp only [depths, binderDepth, List.forall_mem_append, forall_depths_lt_iff a hk,
        forall_depths_lt_iff t hk]
      omega
  | k, .annotated a _, hk | k, .reify a, hk => by
      simp only [depths, binderDepth, forall_depths_lt_iff a hk]
  | _, .const _, hk | _, .ctor _, hk | _, .bvar _, hk | _, .free _, hk | _, .uvar _, hk | _, .lit _, hk
  | _, .blob _, hk | _, .native _, hk => by
      simpa [depths, binderDepth] using hk

theorem forall_depthsArgs_lt_iff {m : Nat} : ∀ {k : Nat} (as : List (Term β σ)), k < m →
    ((∀ d ∈ depthsArgs k as, d < m) ↔ k + binderDepthArgs as < m)
  | _, [], hk => by simpa [depthsArgs, binderDepthArgs] using hk
  | k, a :: as, hk => by
      simp only [depthsArgs, binderDepthArgs, List.forall_mem_append, forall_depths_lt_iff a hk,
        forall_depthsArgs_lt_iff as hk]
      omega

theorem forall_depthsBranches_lt_iff {m : Nat} : ∀ {k : Nat} (brs : List (Branch (Term β σ))), k < m →
    ((∀ d ∈ depthsBranches k brs, d < m) ↔ k + binderDepthBranches brs < m)
  | _, [], hk => by simpa [depthsBranches, binderDepthBranches] using hk
  | k, ⟨p, b⟩ :: brs, hk => by
      simp only [depthsBranches, binderDepthBranches, List.forall_mem_append, List.forall_mem_cons,
        forall_depthsBranches_lt_iff brs hk]
      constructor
      · rintro ⟨⟨hkp, hb⟩, hbrs⟩
        have hdepth := (forall_depths_lt_iff b hkp).mp hb
        omega
      · intro hdepth
        have hkp : k + p.binders < m := by omega
        exact ⟨⟨hkp, (forall_depths_lt_iff b hkp).mpr (by omega)⟩, by omega⟩
end

mutual
/-- A variable is under no more binders than there are along any path. -/
theorem le_of_mem_occurrences {o : Nat × Nat} : ∀ {k : Nat} (t : Term β σ), o ∈ occurrences k t →
    o.1 ≤ k + t.binderDepth
  | k, .bvar i, ho => by
      obtain rfl := List.mem_singleton.mp ho
      exact Nat.le_add_right _ _
  | k, .app h as, ho => by
      rw [binderDepth]
      rcases List.mem_append.mp ho with ho | ho
      · have hh := le_of_mem_occurrences h ho
        omega
      · have has := le_of_mem_occurrencesArgs as ho
        omega
  | k, .lam n b, ho => by
      have hb := le_of_mem_occurrences b ho
      rw [binderDepth]
      omega
  | k, .case s brs, ho => by
      rw [binderDepth]
      rcases List.mem_append.mp ho with ho | ho
      · have hs := le_of_mem_occurrences s ho
        omega
      · have hbrs := le_of_mem_occurrencesBranches brs ho
        omega
  | k, .ascribed a t, ho => by
      rw [binderDepth]
      rcases List.mem_append.mp ho with ho | ho
      · have ha := le_of_mem_occurrences a ho
        omega
      · have ht := le_of_mem_occurrences t ho
        omega
  | k, .annotated a _, ho | k, .reify a, ho => le_of_mem_occurrences a ho
  | _, .const _, ho | _, .ctor _, ho | _, .free _, ho | _, .uvar _, ho | _, .lit _, ho | _, .blob _, ho
  | _, .native _, ho => absurd ho List.not_mem_nil

theorem le_of_mem_occurrencesArgs {o : Nat × Nat} : ∀ {k : Nat} (as : List (Term β σ)),
    o ∈ occurrencesArgs k as → o.1 ≤ k + binderDepthArgs as
  | _, [], ho => absurd ho List.not_mem_nil
  | k, a :: as, ho => by
      rw [binderDepthArgs]
      rcases List.mem_append.mp ho with ho | ho
      · have ha := le_of_mem_occurrences a ho
        omega
      · have has := le_of_mem_occurrencesArgs as ho
        omega

theorem le_of_mem_occurrencesBranches {o : Nat × Nat} : ∀ {k : Nat} (brs : List (Branch (Term β σ))),
    o ∈ occurrencesBranches k brs → o.1 ≤ k + binderDepthBranches brs
  | _, [], ho => absurd ho List.not_mem_nil
  | k, ⟨p, b⟩ :: brs, ho => by
      rw [binderDepthBranches]
      rcases List.mem_append.mp ho with ho | ho
      · have hb := le_of_mem_occurrences b ho
        omega
      · have hbrs := le_of_mem_occurrencesBranches brs ho
        omega
end

/-! ## When rebuilding succeeds -/

theorem isSome_addIndex? {m n : Nat} : (addIndex? m n).isSome ↔ m + n < indexLimit := by
  rw [addIndex?, Option.isSome_ite]

theorem isSome_last {α γ : Type} {x : Option α} {f : α → γ} :
    (do let a ← x; return f a : Option γ).isSome ↔ x.isSome := by
  cases x <;> rfl

/-- Two computations in a row succeed if each does. -/
theorem isSome_both {α γ δ : Type} {x : Option α} {y : Option γ} {f : α → γ → δ} :
    (do let a ← x; let c ← y; return f a c : Option δ).isSome ↔ x.isSome ∧ y.isSome := by
  cases x <;> cases y <;> simp

/-- A computation under a further binder succeeds if the sum of binders is in range and it succeeds there. -/
theorem isSome_under {α : Type} {k n : Nat} {x : Nat → Option α} :
    (do let inner ← addIndex? k n; x inner : Option α).isSome ↔ k + n < indexLimit ∧ (x (k + n)).isSome := by
  rw [addIndex?]
  split
  next hin => simp [hin]
  next hout => simp [hout]

mutual
/-- Rebuilding succeeds exactly if all sums of binders are in range and every free variable is replaced. -/
theorem isSome_mapFree?_iff (f : Nat → Nat → Option (Term β σ)) : ∀ (k : Nat) (t : Term β σ),
    (mapFree? f k t).isSome ↔ (∀ d ∈ depths k t, d < indexLimit) ∧
      ∀ o ∈ occurrences k t, o.1 ≤ o.2 → (f o.1 o.2).isSome
  | k, .bvar i => by
      simp only [mapFree?, depths, occurrences, List.forall_mem_singleton, List.not_mem_nil]
      split
      next hfree => simp [hfree]
      next hbound => simp [hbound]
  | k, .app h as => by
      simp only [mapFree?, isSome_both, isSome_mapFree?_iff f k h, isSome_mapFreeArgs?_iff f k as, depths,
        occurrences, List.forall_mem_append]
      exact and_and_and_comm
  | k, .lam n b => by
      simp only [mapFree?, isSome_under, isSome_last, isSome_mapFree?_iff f (k + n) b, depths, occurrences,
        List.forall_mem_cons, and_assoc]
  | k, .case s brs => by
      simp only [mapFree?, isSome_both, isSome_mapFree?_iff f k s, isSome_mapFreeBranches?_iff f k brs, depths,
        occurrences, List.forall_mem_append]
      exact and_and_and_comm
  | k, .ascribed a t => by
      simp only [mapFree?, isSome_both, isSome_mapFree?_iff f k a, isSome_mapFree?_iff f k t, depths,
        occurrences, List.forall_mem_append]
      exact and_and_and_comm
  | k, .annotated a _ | k, .reify a => by
      simp only [mapFree?, isSome_last, isSome_mapFree?_iff f k a, depths, occurrences]
  | _, .const _ | _, .ctor _ | _, .free _ | _, .uvar _ | _, .lit _ | _, .blob _ | _, .native _ => by
      simp [mapFree?, depths, occurrences]

theorem isSome_mapFreeArgs?_iff (f : Nat → Nat → Option (Term β σ)) : ∀ (k : Nat) (as : List (Term β σ)),
    (mapFreeArgs? f k as).isSome ↔ (∀ d ∈ depthsArgs k as, d < indexLimit) ∧
      ∀ o ∈ occurrencesArgs k as, o.1 ≤ o.2 → (f o.1 o.2).isSome
  | _, [] => by simp [mapFreeArgs?, depthsArgs, occurrencesArgs]
  | k, a :: as => by
      simp only [mapFreeArgs?, isSome_both, isSome_mapFree?_iff f k a, isSome_mapFreeArgs?_iff f k as,
        depthsArgs, occurrencesArgs, List.forall_mem_append]
      exact and_and_and_comm

theorem isSome_mapFreeBranches?_iff (f : Nat → Nat → Option (Term β σ)) :
    ∀ (k : Nat) (brs : List (Branch (Term β σ))),
      (mapFreeBranches? f k brs).isSome ↔ (∀ d ∈ depthsBranches k brs, d < indexLimit) ∧
        ∀ o ∈ occurrencesBranches k brs, o.1 ≤ o.2 → (f o.1 o.2).isSome
  | _, [] => by simp [mapFreeBranches?, depthsBranches, occurrencesBranches]
  | k, ⟨p, b⟩ :: brs => by
      simp only [mapFreeBranches?, isSome_under, isSome_both, isSome_mapFree?_iff f _ b,
        isSome_mapFreeBranches?_iff f k brs, depthsBranches, occurrencesBranches, List.forall_mem_append,
        List.forall_mem_cons, and_assoc]
      refine and_congr_right fun _ => and_congr_right fun _ => ?_
      exact and_left_comm
end

/-! ## Shifting -/

/-- A shift by something fails exactly if some sum of binders or some raised variable leaves the range. -/
theorem isSome_shift?_iff {amount : Nat} (hamount : 0 < amount) (cutoff : Nat) (t : Term β σ) :
    (t.shift? amount cutoff).isSome ↔ (∀ d ∈ t.depths cutoff, d < indexLimit) ∧
      ∀ o ∈ t.occurrences cutoff, o.1 ≤ o.2 → o.2 + amount < indexLimit := by
  rw [shift?, if_neg (by omega), isSome_mapFree?_iff]
  simp only [Option.isSome_map, isSome_addIndex?]

/-- A value can be put under `k` binders if its free variables leave room for these and its own. -/
theorem isSome_shift?_of_room {v : Term β σ} {k : Nat} (hdepth : v.binderDepth < indexLimit)
    (hroom : ∀ x ∈ v.freeIndices, x + (k + v.binderDepth) < indexLimit) : (v.shift? k 0).isSome := by
  rcases Nat.eq_zero_or_pos k with rfl | hk
  · rfl
  · refine (isSome_shift?_iff hk 0 v).mpr ⟨?_, ?_⟩
    · refine (forall_depths_lt_iff v (by decide)).mpr ?_
      rwa [Nat.zero_add]
    · rintro ⟨d, i⟩ ho hfree
      have hd : d ≤ 0 + v.binderDepth := le_of_mem_occurrences v ho
      have hx := hroom _ (mem_freeIndices ho hfree)
      dsimp only at hfree ⊢
      omega

/-! ## Instantiation -/

/-- `instantiateVar?` with every operation in words: the count of the values is cut down to a word, and to take
away more than there is fails. -/
def instantiateWord? (vals : List (Term β σ)) (k i : Nat) : Option (Term β σ) := do
  let count := vals.length % indexLimit
  let j ← subIndex? i k
  if j < count then
    let v ← vals[j]?
    v.shift? k 0
  else
    let lowered ← subIndex? i count
    return .bvar lowered

/-- `instantiate?` with every operation in words. -/
def instantiateWords? (cutoff : Nat) (vals : List (Term β σ)) (t : Term β σ) : Option (Term β σ) :=
  if vals.isEmpty then some t else mapFree? (instantiateWord? vals) cutoff t

/-- On free variables, subtractions do not fail, and the count of the values is right unless there are too many. -/
theorem instantiateWord?_eq {vals : List (Term β σ)} (hcount : vals.length < indexLimit) {k i : Nat}
    (hfree : k ≤ i) : instantiateWord? vals k i = instantiateVar? vals k i := by
  rw [instantiateWord?, instantiateVar?, subIndex?, if_pos hfree, Nat.mod_eq_of_lt hcount]
  by_cases hj : i - k < vals.length
  · simp only [Option.bind_eq_bind, Option.bind_some, if_pos hj, List.getElem?_eq_getElem hj]
  · have hlower : vals.length ≤ i := by omega
    simp only [Option.bind_eq_bind, Option.bind_some, if_neg hj, List.getElem?_eq_none (Nat.le_of_not_lt hj),
      subIndex?, if_pos hlower, Option.pure_def]

theorem instantiateWords?_eq {vals : List (Term β σ)} (hcount : vals.length < indexLimit) (cutoff : Nat)
    (t : Term β σ) : instantiateWords? cutoff vals t = t.instantiate? cutoff vals := by
  rw [instantiateWords?, instantiate?, mapFree?_congr (fun _ _ => instantiateWord?_eq hcount)]

/-- Instantiation stays in range if the binders do and every value can be put under as many of them as there are. -/
theorem isSome_instantiate? {vals : List (Term β σ)} {cutoff : Nat} {t : Term β σ}
    (hdepth : cutoff + t.binderDepth < indexLimit)
    (hvals : ∀ v ∈ vals, ∀ k ≤ cutoff + t.binderDepth, (v.shift? k 0).isSome) :
    (t.instantiate? cutoff vals).isSome := by
  rw [instantiate?]
  split
  · rfl
  · refine (isSome_mapFree?_iff _ cutoff t).mpr ⟨?_, ?_⟩
    · exact (forall_depths_lt_iff t (by omega)).mpr hdepth
    · rintro ⟨k, i⟩ ho -
      rw [instantiateVar?]
      split
      next v hv => exact hvals v (List.mem_of_getElem? hv) k (le_of_mem_occurrences t ho)
      next => rfl

/-- Substitution in words is substitution.  If there are fewer values than words, if the binders of the term, on
top of the cutoff, and those of each value are in range, and if they are so together with any free variable of
the value, then no operation of an instantiation leaves the range, and its result is that of unbounded
arithmetic.  A shift leaves the range exactly if it is by something and either a variable that is free at its
place is too large to be raised or a binder is reached with too large a cutoff; otherwise its result is that of
unbounded arithmetic. -/
theorem words_refine_substitution (t : Term β σ) (cutoff : Nat) :
    (∀ vals : List (Term β σ), vals.length < indexLimit → cutoff + t.binderDepth < indexLimit →
      (∀ v ∈ vals, v.binderDepth < indexLimit) →
      (∀ v ∈ vals, ∀ x ∈ v.freeIndices, x + (cutoff + t.binderDepth + v.binderDepth) < indexLimit) →
      instantiateWords? cutoff vals t = some (t.instantiate cutoff vals) ∧
        t.instantiate? cutoff vals = some (t.instantiate cutoff vals)) ∧
    ∀ amount < indexLimit,
      (t.shift? amount cutoff = none ↔ 0 < amount ∧
        ((∃ o ∈ t.occurrences cutoff, o.1 ≤ o.2 ∧ indexLimit - 1 - amount < o.2) ∨
          ∃ d ∈ t.depths cutoff, indexLimit - 1 < d)) ∧
      (t.shift? amount cutoff ≠ none → t.shift? amount cutoff = some (t.shift amount cutoff)) := by
  constructor
  · intro vals hcount hdepth hdepths hroom
    have hvals : ∀ v ∈ vals, ∀ k ≤ cutoff + t.binderDepth, (v.shift? k 0).isSome := by
      intro v hv k hk
      refine isSome_shift?_of_room (hdepths v hv) fun x hx => ?_
      have hxroom := hroom v hv x hx
      omega
    obtain ⟨u, hu⟩ := Option.isSome_iff_exists.mp (isSome_instantiate? hdepth hvals)
    obtain rfl := instantiate_of_instantiate? hu
    exact ⟨(instantiateWords?_eq hcount cutoff t).trans hu, hu⟩
  · intro amount hamount
    constructor
    · rcases Nat.eq_zero_or_pos amount with rfl | hpos
      · simp [shift?]
      · rw [← Option.not_isSome_iff_eq_none, isSome_shift?_iff hpos, Classical.not_and_iff_not_or_not]
        simp only [Classical.not_forall, Nat.not_lt]
        constructor
        · rintro (⟨d, hd, hlarge⟩ | ⟨o, ho, hfree, hlarge⟩)
          · exact ⟨hpos, .inr ⟨d, hd, by omega⟩⟩
          · exact ⟨hpos, .inl ⟨o, ho, hfree, by omega⟩⟩
        · rintro ⟨-, ⟨o, ho, hfree, hlarge⟩ | ⟨d, hd, hlarge⟩⟩
          · exact .inr ⟨o, ho, hfree, by omega⟩
          · exact .inl ⟨d, hd, by omega⟩
    · intro hsome
      obtain ⟨u, hu⟩ := Option.ne_none_iff_exists'.mp hsome
      obtain rfl := shift_of_shift? hu
      exact hu

/-- Takes a pair apart and applies what variable 0 stands for to its parts. -/
def uncurried : Term Unit Unit :=
  .lam 1 (.case (.bvar 0) [⟨.ctor "pair" 2, .app (.bvar 3) [.bvar 1, .bvar 0]⟩])

/-- A function that adds variable 0 to something. -/
def addingFree : Term Unit Unit := .lam 1 (.app (.const "add") [.bvar 1, .bvar 0])

/-- A function with so many variables that the next one around them has the last index in range. -/
def crowded : Term Unit Unit := .lam (indexLimit - 6) (.bvar (indexLimit - 1))

/-- A value with a free variable goes under the three binders of a term.  And at the edge of the range, it depends
on the cutoff what is wrong with a shift: the variable is too large, or the lambda has too many of them. -/
theorem words_refine_substitution_uncurried :
    instantiateWords? 0 [addingFree] uncurried = some (.lam 1 (.case (.bvar 0)
      [⟨.ctor "pair" 2, .app (.lam 1 (.app (.const "add") [.bvar 4, .bvar 0])) [.bvar 1, .bvar 0]⟩])) ∧
    crowded.shift? 1 5 = none ∧ crowded.shift? 1 6 = none ∧ crowded.shift? 0 6 = some crowded := by
  refine ⟨?_, ?_, ?_, ?_⟩
  · exact ((words_refine_substitution uncurried 0).1 [addingFree] (by decide) (by decide) (by decide)
      (by decide)).1
  · exact ((words_refine_substitution crowded 5).2 1 (by decide)).1.mpr
      ⟨by decide, .inl ⟨(indexLimit - 1, indexLimit - 1), by decide, by decide, by decide⟩⟩
  · exact ((words_refine_substitution crowded 6).2 1 (by decide)).1.mpr
      ⟨by decide, .inr ⟨indexLimit, by decide, by decide⟩⟩
  · exact ((words_refine_substitution crowded 6).2 0 (by decide)).2 (by decide)

end Term

end TacticEngine
