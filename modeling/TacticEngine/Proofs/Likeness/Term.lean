/-
# TacticEngine.Proofs.Likeness.Term -- terms that differ in their native values only.

Two terms are alike if they have the same shape and their native values, step by step and blob by
blob, stand in given relations.  What those relations are is the matter of a `Likeness`, which also
says which constants may occur and whether the terms have to be closed and in canonical form.

A likeness is meant to be read in two ways.  Between different terms it says what two runs may
disagree on: identities, say, or the evaluation that an embedded engine uses.  Between a term and
itself it is a property of the term, namely that everything in it is as it should be.  Whatever is
shown about alike terms therefore yields an invariant as well as a comparison.

The operations that evaluators use on terms preserve likeness.
-/
import Mathlib.Data.List.Forall2
import TacticEngine.Proofs.Term.Closed

namespace TacticEngine

variable {β σ : Type}

namespace Term

/-! ## Likeness -/

section Relation

variable (closed canonical : Prop) (const : String → Prop)
  (blob : Blob β → Blob β → Prop) (step : Step σ → Step σ → Prop)

mutual
/-- Terms of the same shape under `k` binders, with related native values.  A `closed` term has no
variables but those of the `k` binders; a `canonical` one has flat and proper applications, and
lambdas that bind something. -/
inductive Alike : Nat → Term β σ → Term β σ → Prop where
  | const {k c} : const c → Alike k (.const c) (.const c)
  | ctor {k c} : Alike k (.ctor c) (.ctor c)
  | bvar {k i} : (closed → i < k) → Alike k (.bvar i) (.bvar i)
  | free {k x} : Alike k (.free x) (.free x)
  | uvar {k u} : Alike k (.uvar u) (.uvar u)
  | lit {k l} : Alike k (.lit l) (.lit l)
  | app {k h h' as as'} : (canonical → h.isApp = false ∧ as ≠ []) → Alike k h h' →
      AlikeArgs k as as' → Alike k (.app h as) (.app h' as')
  | lam {k n b b'} : (canonical → 0 < n) → Alike (k + n) b b' → Alike k (.lam n b) (.lam n b')
  | case {k s s' brs brs'} : Alike k s s' → AlikeBranches k brs brs' →
      Alike k (.case s brs) (.case s' brs')
  | ascribed {k a a' t t'} : Alike k a a' → Alike k t t' →
      Alike k (.ascribed a t) (.ascribed a' t')
  | annotated {k a a' n} : Alike k a a' → Alike k (.annotated a n) (.annotated a' n)
  | reify {k a a'} : Alike k a a' → Alike k (.reify a) (.reify a')
  | blob {k b b'} : blob b b' → Alike k (.blob b) (.blob b')
  | native {k s s'} : step s s' → Alike k (.native s) (.native s')

/-- Argument lists, item by item. -/
inductive AlikeArgs : Nat → List (Term β σ) → List (Term β σ) → Prop where
  | nil {k} : AlikeArgs k [] []
  | cons {k a a' as as'} : Alike k a a' → AlikeArgs k as as' → AlikeArgs k (a :: as) (a' :: as')

/-- Branches with the same patterns and alike bodies. -/
inductive AlikeBranches :
    Nat → List (Branch (Term β σ)) → List (Branch (Term β σ)) → Prop where
  | nil {k} : AlikeBranches k [] []
  | cons {k p b b' brs brs'} : Alike (k + p.binders) b b' → AlikeBranches k brs brs' →
      AlikeBranches k (⟨p, b⟩ :: brs) (⟨p, b'⟩ :: brs')
end

end Relation

end Term

/-- What it takes for two terms to be alike. -/
structure Likeness (β σ : Type) where
  /-- They have to be closed. -/
  closed : Prop
  /-- They have to be in canonical form. -/
  canonical : Prop
  /-- The constants that may occur. -/
  const : String → Prop
  /-- How blobs at corresponding places are related. -/
  blob : Blob β → Blob β → Prop
  /-- How native steps at corresponding places are related. -/
  step : Step σ → Step σ → Prop

namespace Likeness

/-- Terms that are alike under `k` binders. -/
abbrev Alike (L : Likeness β σ) : Nat → Term β σ → Term β σ → Prop :=
  Term.Alike L.closed L.canonical L.const L.blob L.step

/-- Argument lists that are alike. -/
abbrev AlikeArgs (L : Likeness β σ) : Nat → List (Term β σ) → List (Term β σ) → Prop :=
  Term.AlikeArgs L.closed L.canonical L.const L.blob L.step

/-- Branches that are alike. -/
abbrev AlikeBranches (L : Likeness β σ) :
    Nat → List (Branch (Term β σ)) → List (Branch (Term β σ)) → Prop :=
  Term.AlikeBranches L.closed L.canonical L.const L.blob L.step

end Likeness

namespace Term

variable {L : Likeness β σ} {k : Nat} {t t' u : Term β σ} {as as' : List (Term β σ)}

/-! ## Argument lists -/

theorem alikeArgs_iff_forall₂ : L.AlikeArgs k as as' ↔ List.Forall₂ (L.Alike k) as as' := by
  constructor
  · intro h
    induction as generalizing as' with
    | nil => cases h; exact .nil
    | cons a as ih =>
        cases h with
        | cons ha has => exact .cons ha (ih has)
  · intro h
    induction h with
    | nil => exact .nil
    | cons ha _ ih => exact .cons ha ih

theorem AlikeArgs.length_eq (h : L.AlikeArgs k as as') : as.length = as'.length :=
  (alikeArgs_iff_forall₂.mp h).length_eq

theorem AlikeArgs.append {bs bs' : List (Term β σ)} (ha : L.AlikeArgs k as as')
    (hb : L.AlikeArgs k bs bs') : L.AlikeArgs k (as ++ bs) (as' ++ bs') :=
  alikeArgs_iff_forall₂.mpr
    (List.rel_append (alikeArgs_iff_forall₂.mp ha) (alikeArgs_iff_forall₂.mp hb))

theorem AlikeArgs.take (n : Nat) (h : L.AlikeArgs k as as') :
    L.AlikeArgs k (as.take n) (as'.take n) :=
  alikeArgs_iff_forall₂.mpr (List.forall₂_take n (alikeArgs_iff_forall₂.mp h))

theorem AlikeArgs.drop (n : Nat) (h : L.AlikeArgs k as as') :
    L.AlikeArgs k (as.drop n) (as'.drop n) :=
  alikeArgs_iff_forall₂.mpr (List.forall₂_drop n (alikeArgs_iff_forall₂.mp h))

theorem AlikeArgs.reverse (h : L.AlikeArgs k as as') :
    L.AlikeArgs k as.reverse as'.reverse :=
  alikeArgs_iff_forall₂.mpr (List.forall₂_reverse_iff.mpr (alikeArgs_iff_forall₂.mp h))

theorem AlikeArgs.eq_nil_iff (h : L.AlikeArgs k as as') : as = [] ↔ as' = [] := by
  cases h <;> simp

theorem AlikeArgs.getElem? (h : L.AlikeArgs k as as') (i : Nat) :
    Option.Rel (L.Alike k) as[i]? as'[i]? := by
  induction i generalizing as as' with
  | zero =>
      cases h with
      | nil => exact .none
      | cons ha _ => exact .some ha
  | succ i ih =>
      cases h with
      | nil => exact .none
      | cons _ has => simpa using ih has

/-- Items of a list that is alike to a concatenation go with its two parts. -/
theorem AlikeArgs.of_append_right {bs cs : List (Term β σ)} (h : L.AlikeArgs k as (bs ++ cs)) :
    ∃ as₁ as₂, as = as₁ ++ as₂ ∧ L.AlikeArgs k as₁ bs ∧ L.AlikeArgs k as₂ cs := by
  refine ⟨as.take bs.length, as.drop bs.length, (List.take_append_drop _ _).symm, ?_, ?_⟩
  · simpa using h.take bs.length
  · simpa using h.drop bs.length

/-! ## Applications and lambdas -/

theorem Alike.isApp_eq (h : L.Alike k t t') : t.isApp = t'.isApp := by
  cases h <;> rfl

theorem Alike.apps (ht : L.Alike k t t') (has : L.AlikeArgs k as as') :
    L.Alike k (t.apps as) (t'.apps as') := by
  cases has with
  | nil => simpa using ht
  | cons ha has =>
      have hargs := Term.AlikeArgs.cons ha has
      cases ht with
      | app hc hh hs =>
          refine .app (fun c => ⟨(hc c).1, ?_⟩) hh (hs.append hargs)
          simp
      | _ => exact .app (fun _ => ⟨rfl, List.cons_ne_nil _ _⟩) (by constructor <;> assumption) hargs

/-- What is alike to a term applied to arguments is a term applied to arguments itself. -/
theorem Alike.of_apps_right {us : List (Term β σ)} (hu : L.canonical → u.Canonical)
    (h : L.Alike k t (u.apps us)) :
    ∃ t₀ ts, t = t₀.apps ts ∧ L.Alike k t₀ u ∧ L.AlikeArgs k ts us := by
  by_cases hus : us = []
  · subst hus
    rw [apps_nil] at h
    exact ⟨t, [], (apps_nil t).symm, h, .nil⟩
  · cases happ : u.isApp
    case false =>
      rw [apps_of_not_isApp happ hus] at h
      cases h with
      | @app _ h₀ _ as _ hc hh has =>
          have hne : as ≠ [] := fun hnil => hus (has.eq_nil_iff.mp hnil)
          refine ⟨h₀, as, ?_, hh, has⟩
          rw [apps_of_not_isApp (hh.isApp_eq.trans happ) hne]
    case true =>
      obtain ⟨f, ws, rfl⟩ := isApp_eq_true_iff.mp happ
      rw [app_apps] at h
      cases h with
      | app hc hh has =>
          obtain ⟨as₁, as₂, rfl, h₁, h₂⟩ := has.of_append_right
          refine ⟨.app _ as₁, as₂, (app_apps _ _ _).symm, .app (fun c => ⟨(hc c).1, ?_⟩) hh h₁, h₂⟩
          intro hnil
          exact (hu c).2.1 (h₁.eq_nil_iff.mp hnil)

theorem Alike.lams {n : Nat} {b b' : Term β σ} (h : L.Alike (k + n) b b') :
    L.Alike k (lams n b) (lams n b') := by
  cases n with
  | zero => exact h
  | succ n => exact .lam (fun _ => Nat.succ_pos n) h

/-! ## Looking into terms -/

theorem Alike.strip : ∀ {t t' : Term β σ}, L.Alike k t t' → L.Alike k t.strip t'.strip
  | _, _, .annotated h => h.strip
  | _, _, .ascribed h _ => h.strip
  | _, _, .const h => .const h
  | _, _, .ctor => .ctor
  | _, _, .bvar h => .bvar h
  | _, _, .free => .free
  | _, _, .uvar => .uvar
  | _, _, .lit => .lit
  | _, _, .app hc h has => .app hc h has
  | _, _, .lam hn h => .lam hn h
  | _, _, .case h hbrs => .case h hbrs
  | _, _, .reify h => .reify h
  | _, _, .blob h => .blob h
  | _, _, .native h => .native h

theorem Alike.headArgs (h : L.Alike k t t') :
    L.Alike k t.headArgs.1 t'.headArgs.1 ∧ L.AlikeArgs k t.headArgs.2 t'.headArgs.2 := by
  cases h with
  | app _ hh has => exact ⟨hh, has⟩
  | _ => exact ⟨by constructor <;> assumption, .nil⟩

/-- Alike terms are applications of one constructor to alike arguments, or neither is one. -/
theorem Alike.asCtorApp? (h : L.Alike k t t') :
    Option.Rel (fun x y => x.1 = y.1 ∧ L.AlikeArgs k x.2 y.2) t.asCtorApp? t'.asCtorApp? := by
  obtain ⟨hh, has⟩ := h.strip.headArgs
  have hs := hh.strip
  simp only [Term.asCtorApp?]
  generalize t.strip.headArgs.1.strip = f at hs ⊢
  generalize t'.strip.headArgs.1.strip = f' at hs ⊢
  cases hs <;> first | exact .none | exact .some ⟨rfl, has⟩

theorem Alike.asLit?_eq (h : L.Alike k t t') : t.asLit? = t'.asLit? := by
  have hs := h.strip
  simp only [Term.asLit?]
  generalize t.strip = f at hs ⊢
  generalize t'.strip = f' at hs ⊢
  cases hs <;> rfl

/-! ## Substitution

Under `k` binders, and with the variables of `d` more in the term, substitution puts terms that may
have the variables of `e` more. -/

theorem rel_bind {α α' γ γ' : Type} {R : α → α' → Prop} {S : γ → γ' → Prop}
    {x : Option α} {x' : Option α'} {f : α → Option γ} {f' : α' → Option γ'}
    (hx : Option.Rel R x x') (hf : ∀ a a', R a a' → Option.Rel S (f a) (f' a')) :
    Option.Rel S (x >>= f) (x' >>= f') := by
  cases hx with
  | none => exact .none
  | some h => exact hf _ _ h

theorem addIndex?_rel {α α' : Type} {S : α → α' → Prop} {m n : Nat} {f : Nat → Option α}
    {f' : Nat → Option α'} (hf : Option.Rel S (f (m + n)) (f' (m + n))) :
    Option.Rel S (addIndex? m n >>= f) (addIndex? m n >>= f') := by
  unfold addIndex?
  split
  · exact hf
  · exact .none

section MapFree

variable {d e : Nat}

mutual
theorem Alike.mapFree? {f f' : Nat → Nat → Option (Term β σ)}
    (hf : ∀ m i, m ≤ i → (L.closed → i < m + d) →
      Option.Rel (L.Alike (m + e)) (f m i) (f' m i)) :
    ∀ {j k : Nat} {t t' : Term β σ}, L.Alike j t t' → j = k + d →
      Option.Rel (L.Alike (k + e)) (mapFree? f k t) (mapFree? f' k t')
  | _, k, _, _, .bvar (i := i) hi, rfl => by
      simp only [Term.mapFree?]
      split
      · exact hf k i ‹_› hi
      · exact .some (.bvar fun _ => by omega)
  | _, k, _, _, .app _ h has, rfl =>
      rel_bind (h.mapFree? hf rfl) fun _ _ ht => rel_bind (has.mapFreeArgs? hf rfl) fun _ _ hts =>
        .some (ht.apps hts)
  | _, k, _, _, .lam (n := n) _ h, rfl =>
      addIndex?_rel (rel_bind (h.mapFree? hf (Nat.add_right_comm k d n)) fun _ _ hb =>
        .some (Alike.lams (by rwa [Nat.add_right_comm])))
  | _, k, _, _, .case h hbrs, rfl =>
      rel_bind (h.mapFree? hf rfl) fun _ _ hs =>
        rel_bind (hbrs.mapFreeBranches? hf rfl) fun _ _ hb => .some (.case hs hb)
  | _, k, _, _, .ascribed h h₂, rfl =>
      rel_bind (h.mapFree? hf rfl) fun _ _ ha => rel_bind (h₂.mapFree? hf rfl) fun _ _ ht =>
        .some (.ascribed ha ht)
  | _, k, _, _, .annotated h, rfl =>
      rel_bind (h.mapFree? hf rfl) fun _ _ ha => .some (.annotated ha)
  | _, k, _, _, .reify h, rfl => rel_bind (h.mapFree? hf rfl) fun _ _ ha => .some (.reify ha)
  | _, _, _, _, .const h, _ => .some (.const h)
  | _, _, _, _, .ctor, _ => .some .ctor
  | _, _, _, _, .free, _ => .some .free
  | _, _, _, _, .uvar, _ => .some .uvar
  | _, _, _, _, .lit, _ => .some .lit
  | _, _, _, _, .blob h, _ => .some (.blob h)
  | _, _, _, _, .native h, _ => .some (.native h)

theorem AlikeArgs.mapFreeArgs? {f f' : Nat → Nat → Option (Term β σ)}
    (hf : ∀ m i, m ≤ i → (L.closed → i < m + d) →
      Option.Rel (L.Alike (m + e)) (f m i) (f' m i)) :
    ∀ {j k : Nat} {as as' : List (Term β σ)}, L.AlikeArgs j as as' → j = k + d →
      Option.Rel (L.AlikeArgs (k + e)) (mapFreeArgs? f k as) (mapFreeArgs? f' k as')
  | _, _, _, _, .nil, _ => .some .nil
  | _, k, _, _, .cons h has, rfl =>
      rel_bind (h.mapFree? hf rfl) fun _ _ ha => rel_bind (has.mapFreeArgs? hf rfl) fun _ _ hs =>
        .some (.cons ha hs)

theorem AlikeBranches.mapFreeBranches? {f f' : Nat → Nat → Option (Term β σ)}
    (hf : ∀ m i, m ≤ i → (L.closed → i < m + d) →
      Option.Rel (L.Alike (m + e)) (f m i) (f' m i)) :
    ∀ {j k : Nat} {brs brs' : List (Branch (Term β σ))}, L.AlikeBranches j brs brs' → j = k + d →
      Option.Rel (L.AlikeBranches (k + e)) (mapFreeBranches? f k brs) (mapFreeBranches? f' k brs')
  | _, _, _, _, .nil, _ => .some .nil
  | _, k, _, _, .cons (p := p) h hbrs, rfl =>
      addIndex?_rel (rel_bind (h.mapFree? hf (Nat.add_right_comm k d p.binders)) fun _ _ hb =>
        rel_bind (hbrs.mapFreeBranches? hf rfl) fun _ _ hs =>
          .some (.cons (by rwa [Nat.add_right_comm]) hs))
end

mutual
theorem Alike.mapFree {f f' : Nat → Nat → Term β σ}
    (hf : ∀ m i, m ≤ i → (L.closed → i < m + d) → L.Alike (m + e) (f m i) (f' m i)) :
    ∀ {j k : Nat} {t t' : Term β σ}, L.Alike j t t' → j = k + d →
      L.Alike (k + e) (mapFree f k t) (mapFree f' k t')
  | _, k, _, _, .bvar (i := i) hi, rfl => by
      simp only [Term.mapFree]
      split
      · exact hf k i ‹_› hi
      · exact .bvar fun _ => by omega
  | _, _, _, _, .app _ h has, rfl => (h.mapFree hf rfl).apps (has.mapFreeArgs hf rfl)
  | _, k, _, _, .lam (n := n) _ h, rfl =>
      Alike.lams (by rw [Nat.add_right_comm]; exact h.mapFree hf (Nat.add_right_comm k d n))
  | _, _, _, _, .case h hbrs, rfl => .case (h.mapFree hf rfl) (hbrs.mapFreeBranches hf rfl)
  | _, _, _, _, .ascribed h h₂, rfl => .ascribed (h.mapFree hf rfl) (h₂.mapFree hf rfl)
  | _, _, _, _, .annotated h, rfl => .annotated (h.mapFree hf rfl)
  | _, _, _, _, .reify h, rfl => .reify (h.mapFree hf rfl)
  | _, _, _, _, .const h, _ => .const h
  | _, _, _, _, .ctor, _ => .ctor
  | _, _, _, _, .free, _ => .free
  | _, _, _, _, .uvar, _ => .uvar
  | _, _, _, _, .lit, _ => .lit
  | _, _, _, _, .blob h, _ => .blob h
  | _, _, _, _, .native h, _ => .native h

theorem AlikeArgs.mapFreeArgs {f f' : Nat → Nat → Term β σ}
    (hf : ∀ m i, m ≤ i → (L.closed → i < m + d) → L.Alike (m + e) (f m i) (f' m i)) :
    ∀ {j k : Nat} {as as' : List (Term β σ)}, L.AlikeArgs j as as' → j = k + d →
      L.AlikeArgs (k + e) (mapFreeArgs f k as) (mapFreeArgs f' k as')
  | _, _, _, _, .nil, _ => .nil
  | _, _, _, _, .cons h has, rfl => .cons (h.mapFree hf rfl) (has.mapFreeArgs hf rfl)

theorem AlikeBranches.mapFreeBranches {f f' : Nat → Nat → Term β σ}
    (hf : ∀ m i, m ≤ i → (L.closed → i < m + d) → L.Alike (m + e) (f m i) (f' m i)) :
    ∀ {j k : Nat} {brs brs' : List (Branch (Term β σ))}, L.AlikeBranches j brs brs' → j = k + d →
      L.AlikeBranches (k + e) (mapFreeBranches f k brs) (mapFreeBranches f' k brs')
  | _, _, _, _, .nil, _ => .nil
  | _, k, _, _, .cons (p := p) h hbrs, rfl =>
      .cons (by rw [Nat.add_right_comm]; exact h.mapFree hf (Nat.add_right_comm k d p.binders))
        (hbrs.mapFreeBranches hf rfl)
end

end MapFree

/-! ### Shifting -/

theorem Alike.shift? {c d amount : Nat} (h : L.Alike (c + d) t t') :
    Option.Rel (L.Alike (c + (d + amount))) (t.shift? amount c) (t'.shift? amount c) := by
  unfold Term.shift?
  split
  next h₀ =>
    subst h₀
    exact .some h
  next =>
    refine h.mapFree? (fun m i _ hi => ?_) rfl
    unfold addIndex?
    split
    · exact .some (.bvar fun hc => by have := hi hc; omega)
    · exact .none

theorem Alike.shift {c d amount : Nat} (h : L.Alike (c + d) t t') :
    L.Alike (c + (d + amount)) (t.shift amount c) (t'.shift amount c) := by
  unfold Term.shift
  split
  next h₀ =>
    subst h₀
    exact h
  next => exact h.mapFree (fun m i _ hi => .bvar fun hc => by have := hi hc; omega) rfl

/-! ### Instantiation -/

section Instantiate

variable {c e : Nat} {vals vals' : List (Term β σ)}

theorem Alike.instantiate? (hvals : L.AlikeArgs e vals vals')
    (h : L.Alike (c + (vals.length + e)) t t') :
    Option.Rel (L.Alike (c + e)) (t.instantiate? c vals) (t'.instantiate? c vals') := by
  have hlen := hvals.length_eq
  unfold Term.instantiate?
  by_cases hnil : vals = []
  · have hnil' := hvals.eq_nil_iff.mp hnil
    subst hnil hnil'
    simpa using h
  · have hnil' : vals' ≠ [] := fun h => hnil (hvals.eq_nil_iff.mpr h)
    rw [if_neg (by simpa using hnil), if_neg (by simpa using hnil')]
    refine h.mapFree? (fun m i _ hi => ?_) rfl
    have hget := hvals.getElem? (i - m)
    unfold instantiateVar?
    generalize hv : vals[i - m]? = v at hget
    generalize vals'[i - m]? = v' at hget
    cases hget with
    | none =>
        have hle := List.getElem?_eq_none_iff.mp hv
        simp only [hlen]
        exact .some (.bvar fun hc => by have := hi hc; omega)
    | some hvv =>
        have hs : Option.Rel (L.Alike (0 + (e + m))) _ _ :=
          Alike.shift? (c := 0) (d := e) (by simpa using hvv)
        simpa [Nat.add_comm] using hs

theorem Alike.instantiate (hvals : L.AlikeArgs e vals vals')
    (h : L.Alike (c + (vals.length + e)) t t') :
    L.Alike (c + e) (t.instantiate c vals) (t'.instantiate c vals') := by
  have hlen := hvals.length_eq
  unfold Term.instantiate
  by_cases hnil : vals = []
  · have hnil' := hvals.eq_nil_iff.mp hnil
    subst hnil hnil'
    simpa using h
  · have hnil' : vals' ≠ [] := fun h => hnil (hvals.eq_nil_iff.mpr h)
    rw [if_neg (by simpa using hnil), if_neg (by simpa using hnil')]
    refine h.mapFree (fun m i _ hi => ?_) rfl
    have hget := hvals.getElem? (i - m)
    unfold instantiateVar
    generalize hv : vals[i - m]? = v at hget
    generalize vals'[i - m]? = v' at hget
    cases hget with
    | none =>
        have hle := List.getElem?_eq_none_iff.mp hv
        simp only [hlen]
        exact .bvar fun hc => by have := hi hc; omega
    | some hvv =>
        have hs : L.Alike (0 + (e + m)) _ _ :=
          Alike.shift (c := 0) (d := e) (by simpa using hvv)
        simpa [Nat.add_comm] using hs

theorem Alike.beta? {as as' : List (Term β σ)} (has : L.AlikeArgs e as as')
    (h : L.Alike (e + as.length) t t') :
    Option.Rel (L.Alike e) (t.beta? as) (t'.beta? as') := by
  have hb := Alike.instantiate? (c := 0) has.reverse
    (by rwa [Nat.zero_add, List.length_reverse, Nat.add_comm])
  rwa [Nat.zero_add] at hb

end Instantiate

end Term

end TacticEngine
