/-
# TacticEngine.Proofs.Reduction.Currying -- one lambda or two, arguments at once or spread out.

A function of several arguments may be written as one lambda that binds all of them or as a lambda whose
body is another one.  As long as it gets all of its arguments there is no telling the two apart, and no
telling either whether the arguments were given in one application or in several, with annotations in
between.

That holds of what the term is normalized to, not of how: one lambda is applied by one substitution, two
by two of them with an application made flat in between, and arguments that are spread out meet a head that
was reduced with too few of them (`toWhnf_apps_iff`).  What makes the substitutions agree is that the values
of several binders may be put one after the other (`Term.instantiate_instantiate`).
-/
import TacticEngine.Proofs.Agreement.Functional
import TacticEngine.Proofs.Reduction.Merging
import TacticEngine.Proofs.Term.Substitution

namespace TacticEngine

variable {β σ : Type}

namespace Term

/-! ## Applications that are spread out -/

/-- The second term is the first one applied to these arguments, in any number of applications, one
around the other, and with annotations anywhere between them. -/
inductive Spread (f : Term β σ) : List (Term β σ) → Term β σ → Prop where
  | head : Spread f [] f
  | annotated {as t n} : Spread f as t → Spread f as (.annotated t n)
  | app {as t bs} : Spread f as t → Spread f (as ++ bs) (t.apps bs)

theorem spread_apps (f : Term β σ) (as : List (Term β σ)) : Spread f as (f.apps as) := .app .head

/-- What holds of a function and its arguments holds of the application. -/
theorem Spread.alike {L : Likeness β σ} {f t : Term β σ} {as : List (Term β σ)} (h : Spread f as t)
    (hf : L.Alike 0 f f) (has : L.AlikeArgs 0 as as) : L.Alike 0 t t := by
  induction h with
  | head => exact hf
  | annotated _ ih => exact .annotated (ih has)
  | @app as t bs _ ih =>
      have hall : ∀ a ∈ as ++ bs, L.Alike 0 a a := by
        rwa [Term.alikeArgs_iff_forall₂, List.forall₂_same] at has
      obtain ⟨has, hbs⟩ := List.forall_mem_append.mp hall
      exact (ih (Term.alikeArgs_iff_forall₂.mpr (List.forall₂_same.mpr has))).apps
        (Term.alikeArgs_iff_forall₂.mpr (List.forall₂_same.mpr hbs))

/-! ## One substitution or two -/

/-- The body of a function of several arguments, applied to some of them and then to the others. -/
theorem beta_append (b : Term β σ) {xs : List (Term β σ)} (ys : List (Term β σ))
    (hxs : ∀ x ∈ xs, x.Canonical) :
    b.beta (xs ++ ys) = (b.instantiate ys.length xs.reverse).beta ys := by
  have htwice := @instantiate_instantiate _ _ ys.reverse xs.reverse
    (fun x hx => hxs x (List.mem_reverse.mp hx)) 0 b
  rw [Nat.zero_add, List.length_reverse] at htwice
  rw [beta, beta, List.reverse_append, htwice]

/-- Applying a function that gives another one substitutes under the binders of that one. -/
theorem beta?_lam {b u : Term β σ} {m : Nat} {xs : List (Term β σ)} (hxs : xs ≠ []) (hm : 0 < m)
    (hu : (Term.lam m b).beta? xs = some u) :
    ∃ b', b.instantiate? m xs.reverse = some b' ∧ u = .lam m b' := by
  have hempty : xs.reverse.isEmpty = false := by simpa using hxs
  simp only [beta?, instantiate?, hempty, Bool.false_eq_true, if_false, mapFree?, addIndex?,
    Option.bind_eq_bind, Option.bind_eq_some_iff, Option.pure_def, Option.some.injEq,
    Option.ite_none_right_eq_some] at hu ⊢
  obtain ⟨_, ⟨_, rfl⟩, b', hb, rfl⟩ := hu
  rw [Nat.zero_add] at hb
  obtain ⟨m, rfl⟩ := Nat.exists_eq_succ_of_ne_zero (Nat.pos_iff_ne_zero.mp hm)
  exact ⟨b', hb, rfl⟩

end Term

namespace Reduce

open Term (Spread)

/-! ## What they are reduced to -/

section

variable {cfg : Setting β σ} {acts : Deeds β σ} {f t b : Term β σ} {as bs : List (Term β σ)}
  {r : Except (Halt β) (Term β σ)}

/-- How the arguments of a function are spread out makes no difference. -/
theorem toWhnf_spread_iff (hacts : Sure cfg acts) (h : Spread f as t) :
    ToWhnf cfg acts t r ↔ ToWhnf cfg acts (f.apps as) r := by
  induction h generalizing r with
  | head => rw [Term.apps_nil]
  | annotated _ ih =>
      rw [← ih]
      constructor
      · intro hr
        cases hr with
        | annotated hr => exact hr
        | rigid hrigid => cases hrigid
      · exact .annotated
  | @app as t bs _ ih =>
      by_cases hbs : bs = []
      · subst hbs
        rw [Term.apps_nil, List.append_nil, ih]
      · rw [toWhnf_apps_iff hacts hbs, ← Term.apps_apps, toWhnf_apps_iff hacts hbs]
        simp only [ih]

/-- A lambda with all of its arguments, and possibly more. -/
theorem toWhnf_lam_iff (has : as ≠ []) :
    ToWhnf cfg acts ((Term.lam as.length b).apps (as ++ bs)) r ↔
      (∃ u, b.beta? as = some u ∧ ToWhnf cfg acts (u.apps bs) r) ∨
        (b.beta? as = none ∧ r = .error .overflow) := by
  have hle : as.length ≤ (as ++ bs).length := by
    rw [List.length_append]
    exact Nat.le_add_right _ _
  rw [Term.apps_of_not_isApp rfl (List.append_ne_nil_of_left_ne_nil has bs)]
  constructor
  · intro hr
    cases hr with
    | rigid hrigid => cases hrigid
    | app_error hh => cases hh
    | app hh hr =>
        cases hh
        cases hr with
        | beta _ hb hr =>
            rw [List.take_left] at hb
            rw [List.drop_left] at hr
            exact .inl ⟨_, hb, hr⟩
        | beta_overflow _ hb =>
            rw [List.take_left] at hb
            exact .inr ⟨hb, rfl⟩
        | short hlt => exact absurd hlt (Nat.not_lt.mpr hle)
        | inert _ hlam => cases hlam
        | waiting hs => exact absurd rfl (ne_lam_of_stepOf hs _ _)
        | fired hs => exact absurd rfl (ne_lam_of_stepOf hs _ _)
        | declined hs => exact absurd rfl (ne_lam_of_stepOf hs _ _)
        | failed hs => exact absurd rfl (ne_lam_of_stepOf hs _ _)
        | args_error hs => exact absurd rfl (ne_lam_of_stepOf hs _ _)
  · rintro (⟨u, hb, hr⟩ | ⟨hb, rfl⟩)
    · exact .app (.rigid rfl) (.beta hle (by rwa [List.take_left]) (by rwa [List.drop_left]))
    · exact .app (.rigid rfl) (.beta_overflow hle (by rwa [List.take_left]))

/-- The two functions, each with all of its arguments, are reduced to the same, unless one of them
leaves the range of indices on the way. -/
theorem toWhnf_curried_iff {xs ys zs : List (Term β σ)} (hxs : xs ≠ []) (hys : ys ≠ [])
    (hcanonical : ∀ x ∈ xs, x.Canonical)
    (hcurried : ¬ ToWhnf cfg acts
      ((Term.lam xs.length (.lam ys.length b)).apps (xs ++ ys ++ zs)) (.error .overflow))
    (hflat : ¬ ToWhnf cfg acts
      ((Term.lam (xs.length + ys.length) b).apps (xs ++ ys ++ zs)) (.error .overflow)) :
    ToWhnf cfg acts ((Term.lam xs.length (.lam ys.length b)).apps (xs ++ ys ++ zs)) r ↔
      ToWhnf cfg acts ((Term.lam (xs.length + ys.length) b).apps (xs ++ ys ++ zs)) r := by
  have hall : xs ++ ys ≠ [] := List.append_ne_nil_of_left_ne_nil hxs ys
  have hys' : 0 < ys.length := List.length_pos_iff.mpr hys
  rw [← List.length_append, toWhnf_lam_iff hall] at hflat ⊢
  rw [List.append_assoc, toWhnf_lam_iff hxs] at hcurried ⊢
  -- None of the three substitutions leaves the range, as the term would then be reduced to just that.
  obtain ⟨u, hu⟩ : ∃ u, b.beta? (xs ++ ys) = some u :=
    Option.ne_none_iff_exists'.mp fun hnone => hflat (.inr ⟨hnone, rfl⟩)
  obtain ⟨v, hv⟩ : ∃ v, (Term.lam ys.length b).beta? xs = some v :=
    Option.ne_none_iff_exists'.mp fun hnone => hcurried (.inr ⟨hnone, rfl⟩)
  obtain ⟨b', hb', rfl⟩ := Term.beta?_lam hxs hys' hv
  obtain ⟨v', hv'⟩ : ∃ v', b'.beta? ys = some v' :=
    Option.ne_none_iff_exists'.mp fun hnone =>
      hcurried (.inl ⟨_, hv, (toWhnf_lam_iff hys).mpr (.inr ⟨hnone, rfl⟩)⟩)
  have hsame : v' = u := by
    rw [Term.beta_of_beta? hv', Term.instantiate_of_instantiate? hb', Term.beta_of_beta? hu,
      Term.beta_append b ys hcanonical]
  subst hsame
  simp only [hu, hv, toWhnf_lam_iff hys, hv', Option.some.injEq, exists_eq_left', reduceCtorEq,
    false_and, or_false]

/-- A run that never leaves the range of machine words is not one to end with that. -/
theorem not_toWhnf_overflow (hacts : Sure cfg acts) {w : World β σ}
    (hrange : InRange (fun n => norm cfg n t) w) : ¬ ToWhnf cfg acts t (.error .overflow) := by
  intro h
  obtain ⟨n, hn⟩ := (ToNorm.error h).reaches hacts
  obtain ⟨w', hw'⟩ := ending_eq_error_iff.mp (hn n (Nat.le_refl n) w)
  have hover := hrange n
  rw [hw'] at hover
  cases hover

/-- However the arguments are spread out, both functions are normalized to the same. -/
theorem toNorm_curried_iff (hacts : Sure cfg acts) {xs ys zs : List (Term β σ)} {t' : Term β σ}
    (hxs : xs ≠ []) (hys : ys ≠ []) (hcanonical : ∀ x ∈ xs, x.Canonical)
    (ht : Spread (.lam xs.length (.lam ys.length b)) (xs ++ ys ++ zs) t)
    (ht' : Spread (.lam (xs.length + ys.length) b) (xs ++ ys ++ zs) t')
    {w w' : World β σ} (hrange : InRange (fun n => norm cfg n t) w)
    (hrange' : InRange (fun n => norm cfg n t') w') :
    ToNorm cfg acts t r ↔ ToNorm cfg acts t' r := by
  have hsame (r) : ToWhnf cfg acts t r ↔ ToWhnf cfg acts t' r := by
    have hover := not_toWhnf_overflow hacts hrange
    have hover' := not_toWhnf_overflow hacts hrange'
    rw [toWhnf_spread_iff hacts ht] at hover ⊢
    rw [toWhnf_spread_iff hacts ht'] at hover' ⊢
    exact toWhnf_curried_iff hxs hys hcanonical hover hover'
  exact ⟨.of_toWhnf fun r => (hsame r).mp, .of_toWhnf fun r => (hsame r).mpr⟩

end

end Reduce

/-! ## What they are normalized to -/

theorem Term.StepsAmong.lam {p : Step σ → Prop} {n : Nat} {b : Term β σ} (h : b.StepsAmong p) :
    (Term.lam n b).StepsAmong p := by
  intro s hs
  rw [Term.subterms, List.mem_cons] at hs
  exact h s (hs.resolve_left nofun)

theorem Term.Spread.stepsAmong {p : Step σ → Prop} {f t : Term β σ} {as : List (Term β σ)}
    (h : Spread f as t) (hf : f.StepsAmong p) (has : ∀ a ∈ as, a.StepsAmong p) : t.StepsAmong p := by
  have hargs := Term.alikeArgs_among_iff.mpr fun a ha => ⟨False.elim, has a ha⟩
  exact (Term.alike_among_iff.mp (h.alike (Term.alike_among_iff.mpr ⟨False.elim, hf⟩) hargs)).2

theorem Term.Spread.admissible {p : Step σ → Prop} {f t : Term β σ} {as : List (Term β σ)}
    (h : Spread f as t) (hf : Admissible p f) (has : ∀ a ∈ as, Admissible p a) : Admissible p t :=
  admissible_iff.mpr (h.alike (admissible_iff.mp hf) (admissible_args_iff.mp has))

/-- A function of two groups of arguments, written as two lambdas, and one of all of them, written as one,
cannot be told apart once they have their arguments.

Applying the one substitutes what applying the other does.  So with pure steps the two are normalized to
the same term or issue, with further arguments as well and however the arguments are spread out; and where
everything is closed and the steps are functions, the machine reads both back to that, too. -/
theorem saturated_currying {cfg : Machine.Setting β σ} {p : Step σ → Prop}
    (hpure : (Reduce.Setting.mk cfg.steps .tactic cfg.env cfg.interp).Pure p) {b : Term β σ}
    {xs ys zs : List (Term β σ)} (hxs : xs ≠ []) (hys : ys ≠ []) (hb : b.Canonical ∧ b.StepsAmong p)
    (hargs : ∀ a ∈ xs ++ ys ++ zs, a.Canonical ∧ a.StepsAmong p) :
    (b.beta (xs ++ ys) = (b.instantiate ys.length xs.reverse).beta ys ∧
      ∀ u v, b.beta? (xs ++ ys) = some u →
        (b.instantiate? ys.length xs.reverse >>= fun b' => b'.beta? ys) = some v → u = v) ∧
    ∀ t t', Term.Spread (.lam xs.length (.lam ys.length b)) (xs ++ ys ++ zs) t →
      Term.Spread (.lam (xs.length + ys.length) b) (xs ++ ys ++ zs) t' →
      ∀ w w', InRange (reductions cfg t) w → InRange (reductions cfg t') w' →
      (∀ x, Settles (reductions cfg t) w x ↔ Settles (reductions cfg t') w' x) ∧
      ∀ f, Functional p cfg f → b.ClosedBelow (xs.length + ys.length) →
        (∀ a ∈ xs ++ ys ++ zs, a.Closed) →
        ∀ w₁ w₂, InRange (fun n => Machine.normal cfg n t) { world := w₁ } →
        InRange (fun n => Machine.normal cfg n t') { world := w₂ } →
        ∀ x, (Settles (reductions cfg t) w x ↔
            Settles (fun n => Machine.normal cfg n t) { world := w₁ } x) ∧
          (Settles (reductions cfg t) w x ↔
            Settles (fun n => Machine.normal cfg n t') { world := w₂ } x) := by
  have hcanonical : ∀ x ∈ xs, x.Canonical := fun x hx =>
    (hargs x (List.mem_append_left zs (List.mem_append_left ys hx))).1
  have hone := Term.beta_append b ys hcanonical
  refine ⟨⟨hone, fun u v hu hv => ?_⟩, fun t t' ht ht' w w' hrange hrange' => ?_⟩
  · obtain ⟨b', hb', hv⟩ := Option.bind_eq_some_iff.mp hv
    rw [Term.beta_of_beta? hu, hone, Term.beta_of_beta? hv, Term.instantiate_of_instantiate? hb']
  have hsteps := ht.stepsAmong hb.2.lam.lam fun a ha => (hargs a ha).2
  have hsteps' := ht'.stepsAmong hb.2.lam fun a ha => (hargs a ha).2
  have hsame (x) : Settles (reductions cfg t) w x ↔ Settles (reductions cfg t') w' x :=
    (hpure.toNorm_iff hsteps).trans ((Reduce.toNorm_curried_iff (Reduce.sure_doesAct _) hxs hys
      hcanonical ht ht' hrange hrange').trans (hpure.toNorm_iff hsteps').symm)
  refine ⟨hsame, fun f hf hclosed hargs' w₁ w₂ hmachine hmachine' x => ?_⟩
  have hadmissible : ∀ a ∈ xs ++ ys ++ zs, Admissible p a := fun a ha =>
    ⟨hargs' a ha, (hargs a ha).1, (hargs a ha).2⟩
  have hxs' : 0 < xs.length := List.length_pos_iff.mpr hxs
  have hys' : 0 < ys.length := List.length_pos_iff.mpr hys
  have hadm : Admissible p t := by
    refine ht.admissible ⟨?_, ⟨hxs', hys', hb.1⟩, hb.2.lam.lam⟩ hadmissible
    rw [Term.Closed, Term.ClosedBelow, Term.ClosedBelow, Nat.zero_add]
    exact hclosed
  have hadm' : Admissible p t' := by
    refine ht'.admissible ⟨?_, ⟨Nat.add_pos_left hxs' _, hb.1⟩, hb.2.lam⟩ hadmissible
    rw [Term.Closed, Term.ClosedBelow, Nat.zero_add]
    exact hclosed
  have hmachines (u) (hu : Admissible p u) (v v') (hr : InRange (reductions cfg u) v)
      (hm : InRange (fun n => Machine.normal cfg n u) { world := v' }) :
      Settles (reductions cfg u) v x ↔
        Settles (fun n => Machine.normal cfg n u) { world := v' } x := by
    refine ⟨fun hx => ?_, hf.reductions_settle hu hr⟩
    obtain ⟨y, hy⟩ := hf.machine_settles hu hm hx
    rwa [hx.unique (hf.reductions_settle hu hr hy)]
  exact ⟨hmachines t hadm w w₁ hrange hmachine,
    (hsame x).trans (hmachines t' hadm' w' w₂ hrange' hmachine')⟩

/-! ## A sum of three -/

/-- What a function adds up, given two numbers: a third one to their sum. -/
def sumOfThree : Term Unit Unit :=
  .lam 1 (.app (.const "add") [.bvar 2, .app (.const "add") [.bvar 1, .bvar 0]])

/-- Two lambdas, whose arguments are given apart. -/
def curriedSum : Term Unit Unit :=
  .app (.annotated (.app (.lam 1 (.lam 1 sumOfThree)) [.lit (.int 20)]) (.monadic "io"))
    [.lit (.int 21), .lit (.int 1)]

/-- One lambda, whose arguments are given at once. -/
def flatSum : Term Unit Unit :=
  .app (.lam 2 sumOfThree) [.lit (.int 20), .lit (.int 21), .lit (.int 1)]

theorem saturated_currying_sum :
    Settles (fun n => Machine.normal adding n flatSum) { world := {} } (.ok (.lit (.int 42))) := by
  have hpure : (Reduce.Setting.mk adding.steps .tactic adding.env adding.interp).Pure
      fun _ => True := by
    constructor <;> intros <;> first | trivial | exact fun _ _ => trivial
  have hargs : ∀ a ∈ [.lit (.int 20)] ++ [.lit (.int 21)] ++ [.lit (.int 1)],
      (a : Term Unit Unit).Canonical ∧ a.StepsAmong fun _ => True := by
    simp [Term.Canonical, Term.StepsAmong]
  have hone : Term.Spread (.lam 1 (.lam 1 sumOfThree)) [.lit (.int 20)]
      (.app (.lam 1 (.lam 1 sumOfThree)) [.lit (.int 20)]) := Term.spread_apps _ [.lit (.int 20)]
  have hcurried : Term.Spread (.lam 1 (.lam 1 sumOfThree))
      ([.lit (.int 20)] ++ [.lit (.int 21), .lit (.int 1)]) curriedSum := .app (.annotated hone)
  refine (((saturated_currying hpure (List.cons_ne_nil _ []) (List.cons_ne_nil _ []) ?_ hargs).2
    curriedSum flatSum hcurried
    (Term.spread_apps _ _) {} {} ?_ ?_).2 _ functional_adding ?_ ?_ {} {} ?_ ?_ _).2.mp ?_
  · simp [sumOfThree, Term.Canonical, Term.CanonicalArgs, Term.isApp, Term.StepsAmong]
  · intro n
    rcases n with _ | _ | _ | _ | _ | _ | _ | _ | _ | _ | _ | _ | _ | _ | n
    all_goals rfl
  · intro n
    rcases n with _ | _ | _ | _ | _ | _ | _ | _ | _ | _ | _ | _ | _ | _ | n
    all_goals rfl
  · simp [sumOfThree, Term.ClosedBelow, Term.ClosedBelowArgs]
  · simp [Term.Closed, Term.ClosedBelow]
  · intro n
    rcases n with _ | _ | _ | _ | _ | _ | _ | _ | _ | _ | _ | _ | _ | _ | _ | _ | n
    all_goals rfl
  · intro n
    rcases n with _ | _ | _ | _ | _ | _ | _ | _ | _ | _ | _ | _ | _ | _ | _ | _ | n
    all_goals rfl
  · refine ⟨16, fun n hn => ?_⟩
    obtain ⟨n, rfl⟩ := Nat.exists_eq_add_of_le' hn
    rfl

end TacticEngine
