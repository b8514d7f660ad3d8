/-
# TacticEngine.Proofs.Reduction.Carrying -- data that is only handed on.

A program may move a datum around without looking at it: store it in constructors, pass it to functions, pick
it by the branches it takes.  Put a fresh name for such a datum.  `Carries` says that a term comes down to
another one by unfolding definitions, applying lambdas and taking branches, where the name is neither applied
nor taken apart.  That is a way to reduce the term (`Carries.toWhnf`).

With a weak head normal form put for the name, the same rules apply in the same order, since none of them
looks at what stands for the name (`Carries.toWhnf_put`).  The datum itself may be open, and it may be an
application of a step that declines, whatever that step would do elsewhere.
-/
import TacticEngine.Proofs.Reduction.Erasure
import TacticEngine.Proofs.Reduction.Merging
import TacticEngine.Proofs.Term.Canonical
import TacticEngine.Proofs.Term.Naming

namespace TacticEngine

variable {β σ : Type} {a : String} {v : Term β σ}

namespace Term

/-! ## Terms that show something else than the name -/

/-- The term is not the name, nor the name applied, and shows what it is: it has no wrapper outside. -/
structure Apart (a : String) (t : Term β σ) : Prop where
  /-- There are no wrappers. -/
  exposed : t.Exposed
  /-- It is another term. -/
  ne : t ≠ .free a
  /-- It is another term that is applied. -/
  head_ne : ∀ h as, t = .app h as → h ≠ .free a

variable {h s : Term β σ} {as : List (Term β σ)}

theorem isApp_put (happ : h.isApp = false) (hne : h ≠ .free a) (k : Nat) :
    (put a v k h).isApp = false := by
  cases h with
  | app => cases happ
  | free b => rw [put_free_of_ne fun hb => hne (congrArg Term.free hb)]; rfl
  | _ => rfl

theorem Apart.put_app (ht : (Term.app h as).Apart a) (k : Nat) :
    put a v k (.app h as) = .app (put a v k h) (as.map (put a v k)) := by
  rw [Term.put_app]
  exact apps_of_not_isApp (isApp_put ht.exposed.1 (ht.head_ne h as rfl) k) (by simpa using ht.exposed.2.2)

theorem Apart.asLit?_put (ht : s.Apart a) (k : Nat) : (put a v k s).asLit? = s.asLit? := by
  cases s with
  | app h as => rw [ht.put_app]; rfl
  | free b => rw [put_free_of_ne fun hb => ht.ne (congrArg Term.free hb)]
  | ascribed | annotated | reify => cases ht.exposed
  | _ => rfl

theorem Apart.asCtorApp?_put (ht : s.Apart a) (k : Nat) :
    (put a v k s).asCtorApp? = s.asCtorApp?.map fun (c, as) => (c, as.map (put a v k)) := by
  cases s with
  | app h as =>
      rw [ht.put_app]
      have hne := ht.head_ne h as rfl
      obtain ⟨happ, hw, -⟩ := ht.exposed
      cases h with
      | app => cases happ
      | ascribed | annotated | reify => cases hw
      | free b => rw [put_free_of_ne fun hb => hne (congrArg Term.free hb)]; rfl
      | _ => rfl
  | free b => rw [put_free_of_ne fun hb => ht.ne (congrArg Term.free hb)]; rfl
  | ascribed | annotated | reify => cases ht.exposed
  | _ => rfl

/-- Arguments of a lambda are put into like its body. -/
theorem put_beta (hv : v.Canonical) (as : List (Term β σ)) (b : Term β σ) :
    put a v 0 (b.beta as) = (put a v as.length b).beta (as.map (put a v 0)) := by
  rw [beta, put_instantiate hv, beta, List.map_reverse, List.length_reverse, Nat.zero_add]

end Term

namespace Reduce

open Term (put putBranches)

/-! ## Carrying a name along -/

/-- The term comes down to the other one by definitions, lambdas and branches, and on the way the name `a`
is neither applied nor taken apart.  No step is met at the head. -/
inductive Carries (cfg : Setting β σ) (a : String) : Term β σ → Term β σ → Prop where
  /-- Annotations are dropped. -/
  | annotated {t n u} : Carries cfg a t u → Carries cfg a (.annotated t n) u
  /-- So are ascriptions. -/
  | ascribed {t s u} : cfg.flags.unascribe = true → Carries cfg a t u → Carries cfg a (.ascribed t s) u
  /-- Reification is looked through. -/
  | reify {t u} : cfg.flags.reify = true → Carries cfg a t u → Carries cfg a (.reify t) u
  /-- A definition is unfolded. -/
  | unfold {c b u} : bodyOf? cfg c = some b → Carries cfg a b u → Carries cfg a (.const c) u
  /-- A constant without a definition stays. -/
  | const {c} : bodyOf? cfg c = none → stepOf cfg (.const c) = none → Carries cfg a (.const c) (.const c)
  /-- Data, variables and lambdas stay, the name itself too. -/
  | rigid {t} : t.isRigid = true → Carries cfg a t t
  /-- A lambda is applied. -/
  | beta {h n b as b' u} : Carries cfg a h (.lam n b) → as ≠ [] → n ≤ as.length →
      b.beta? (as.take n) = some b' → Carries cfg a (b'.apps (as.drop n)) u → Carries cfg a (.app h as) u
  /-- A lambda waits for more arguments. -/
  | short {h n b as} : Carries cfg a h (.lam n b) → as ≠ [] → as.length < n →
      Carries cfg a (.app h as) (.app (.lam n b) as)
  /-- Further arguments join those of an application. -/
  | merge {h g bs as u} : Carries cfg a h (.app g bs) → as ≠ [] → Carries cfg a (.app g (bs ++ as)) u →
      Carries cfg a (.app h as) u
  /-- Anything else but the name is applied to no effect. -/
  | inert {h g as} : Carries cfg a h g → as ≠ [] → g.isApp = false → g.isLam = false →
      stepOf cfg g = none → g ≠ .free a → Carries cfg a (.app h as) (.app g as)
  /-- A branch is taken; for the name itself, a branch that takes anything. -/
  | branch {s s' brs b u} : Carries cfg a s s' → select s' brs = some (some b) → Carries cfg a b u →
      Carries cfg a (.case s brs) u
  /-- Of a term that is not the name, no branch can be taken. -/
  | stuck {s s' brs} : Carries cfg a s s' → s' ≠ .free a → select s' brs = none →
      Carries cfg a (.case s brs) (.case s' brs)

variable {cfg : Setting β σ} {acts : Deeds β σ} {t u : Term β σ}

/-- Carrying a name along is reducing. -/
theorem Carries.toWhnf (h : Carries cfg a t u) : ToWhnf cfg acts t (.ok u) := by
  induction h with
  | annotated _ ih => exact .annotated ih
  | ascribed hf _ ih => exact .ascribed hf ih
  | reify hf _ ih => exact .reify hf ih
  | unfold hb _ ih => exact .unfold hb ih
  | const hb hs => exact .const hb (.inert rfl rfl hs)
  | rigid hr => exact .rigid hr
  | beta _ _ hn hb _ ih ih' => exact .app ih (.beta hn hb ih')
  | @short _ n b _ _ hne hlt ih =>
      rw [← Term.apps_of_not_isApp (t := .lam n b) rfl hne]
      exact .app ih (.short hlt)
  | merge _ _ _ ih ih' => exact .app ih (.merge ih')
  | inert _ hne happ hlam hs _ ih =>
      rw [← Term.apps_of_not_isApp happ hne]
      exact .app ih (.inert happ hlam hs)
  | branch _ hb _ ih ih' => exact .case ih hb ih'
  | stuck _ _ hb ih => exact .case_stuck ih hb

/-- What a term comes down to is the name, or shows something else. -/
theorem Carries.apart (h : Carries cfg a t u) : u = .free a ∨ u.Apart a := by
  induction h with
  | annotated _ ih => exact ih
  | ascribed _ _ ih => exact ih
  | reify _ _ ih => exact ih
  | unfold _ _ ih => exact ih
  | const => exact .inr ⟨rfl, nofun, nofun⟩
  | @rigid t hr =>
      by_cases ht : t = .free a
      · exact .inl ht
      · exact .inr ⟨exposed_of_isRigid hr, ht, by rintro _ _ rfl; cases hr⟩
  | beta _ _ _ _ _ _ ih => exact ih
  | short _ hne => exact .inr ⟨⟨rfl, rfl, hne⟩, nofun, by rintro _ _ ⟨⟩; nofun⟩
  | merge _ _ _ _ ih => exact ih
  | inert _ hne happ _ _ hg ih =>
      have hw := (ih.resolve_left hg).exposed.isWrapper_eq
      exact .inr ⟨⟨happ, hw, hne⟩, nofun, by rintro _ _ ⟨⟩; exact hg⟩
  | branch _ _ _ _ ih => exact ih
  | stuck => exact .inr ⟨rfl, nofun, nofun⟩

/-! ## Branches -/

variable {s b : Term β σ} {brs : List (Branch (Term β σ))}

/-- The second term is the first one with `v` put for the name, if there is one at all. -/
def Puts (a : String) (v : Term β σ) (x y : Option (Term β σ)) : Prop :=
  ∀ b, x = some b → y = some (put a v 0 b) ∨ y = none

theorem puts_beta? (hv : v.Canonical) (as : List (Term β σ)) (b : Term β σ) :
    Puts a v (b.beta? as) ((put a v as.length b).beta? (as.map (put a v 0))) := by
  intro b' hb
  cases hput : (put a v as.length b).beta? (as.map (put a v 0)) with
  | none => exact .inr rfl
  | some u =>
      rw [Term.beta_of_beta? hput, Term.beta_of_beta? hb, Term.put_beta hv]
      exact .inl rfl

theorem puts_self (b : Term β σ) : Puts a v (some b) (some (put a v 0 b)) := by
  rintro _ ⟨⟩
  exact .inl rfl

/-- The same branch is taken after putting as before. -/
theorem select_put (hv : v.Canonical) (hs : s.Apart a) (brs : List (Branch (Term β σ))) :
    Option.Rel (Puts a v) (select s brs) (select (put a v 0 s) (putBranches a v 0 brs)) := by
  induction brs with
  | nil => exact .none
  | cons br brs ih =>
      obtain ⟨p, b⟩ := br
      cases p with
      | wild => exact .some (puts_self b)
      | var => exact .some (puts_beta? hv [s] b)
      | lit l =>
          simp only [select, putBranches, hs.asLit?_put]
          cases s.asLit? with
          | none => exact .none
          | some l' =>
              dsimp only
              split
              · exact .some (puts_self b)
              · exact ih
      | ctor c n =>
          simp only [select, putBranches, hs.asCtorApp?_put]
          cases s.asCtorApp? with
          | none => exact .none
          | some x =>
              simp only [Option.map_some, List.length_map]
              split
              next hx =>
                have hbeta := puts_beta? (a := a) hv x.2 b
                rw [hx.2] at hbeta
                exact .some (by rwa [Pattern.binders, Nat.zero_add])
              · exact ih

theorem select_put_none (hv : v.Canonical) (hs : s.Apart a) (hb : select s brs = none) :
    select (put a v 0 s) (putBranches a v 0 brs) = none := by
  have hrel := select_put hv hs brs
  rw [hb] at hrel
  generalize select (put a v 0 s) (putBranches a v 0 brs) = o at hrel
  cases hrel
  rfl

/-- A branch that is taken for the name is taken for anything. -/
theorem select_put_self (hv : v.Canonical) (hb : select (.free a) brs = some (some b)) :
    ∃ y, select v (putBranches a v 0 brs) = some y ∧ Puts a v (some b) y := by
  cases brs with
  | nil => cases hb
  | cons br brs =>
      obtain ⟨p, body⟩ := br
      cases p with
      | wild =>
          obtain rfl := Option.some.inj (Option.some.inj hb)
          exact ⟨_, rfl, puts_self body⟩
      | var =>
          have hbeta := puts_beta? (a := a) hv [.free a] body
          rw [show body.beta? [.free a] = some b from Option.some.inj hb] at hbeta
          simp only [List.map_cons, Term.put_free_self, Term.shift_zero] at hbeta
          exact ⟨_, rfl, hbeta⟩
      | lit | ctor => cases hb

/-- The branch that a term takes, be it the name or something else, is taken after putting too. -/
theorem exists_select_put (hv : v.Canonical) (hs : s = .free a ∨ s.Apart a)
    (hb : select s brs = some (some b)) :
    ∃ y, select (put a v 0 s) (putBranches a v 0 brs) = some y ∧ Puts a v (some b) y := by
  rcases hs with rfl | hs
  · rw [Term.put_free_self, Term.shift_zero]
    exact select_put_self hv hb
  · have hrel := select_put hv hs brs
    rw [hb] at hrel
    generalize select (put a v 0 s) (putBranches a v 0 brs) = o at hrel
    cases hrel with
    | some hy => exact ⟨_, rfl, hy⟩

/-! ## What is put for the name -/

section

variable (cfg acts) in
/-- The term comes down to the other one, unless a machine word is too small for the way there. -/
def Arrives (t u : Term β σ) : Prop :=
  ToWhnf cfg acts t (.ok u) ∨ ToWhnf cfg acts t (.error .overflow)

/-- Arguments are given to what a head comes down to. -/
theorem Arrives.apps (hacts : Sure cfg acts) {h g : Term β σ} {as : List (Term β σ)}
    (hh : Arrives cfg acts h g) (hne : as ≠ [])
    (happ : ToApp cfg acts g as (.ok u) ∨ ToApp cfg acts g as (.error .overflow)) :
    Arrives cfg acts (h.apps as) u := by
  rcases hh with hg | hover
  · rcases happ with hu | hover
    · exact .inl (hg.apps hacts hne (.ok hu))
    · exact .inr (hg.apps hacts hne (.ok hover))
  · exact .inr (hover.apps hacts hne .error)

/-- What a head that neither is the name nor does anything becomes does nothing either. -/
theorem put_inert {g : Term β σ} (happ : g.isApp = false) (hlam : g.isLam = false)
    (hs : stepOf cfg g = none) (hg : g ≠ .free a) : (put a v 0 g).isApp = false ∧
      (put a v 0 g).isLam = false ∧ stepOf cfg (put a v 0 g) = none := by
  refine ⟨Term.isApp_put happ hg 0, ?_⟩
  cases g with
  | app => cases happ
  | lam => cases hlam
  | free b => rw [Term.put_free_of_ne fun hb => hg (congrArg Term.free hb)]; exact ⟨rfl, hs⟩
  | ascribed | annotated | reify | case => exact ⟨rfl, stepOf_eq_none nofun nofun⟩
  | _ => exact ⟨rfl, hs⟩

/-- **Handing data on.**  A term that carries a name along comes down to the same with a weak head normal
form put for the name. -/
theorem Carries.toWhnf_put (hacts : Sure cfg acts) (hv : v.Canonical) (hnormal : HeadNormal cfg acts v)
    (hdefs : ∀ c b, cfg.env.unfoldable c = some b → b.Canonical ∧ b.Fresh a)
    (h : Carries cfg a t u) : Arrives cfg acts (put a v 0 t) (put a v 0 u) := by
  induction h with
  | annotated _ ih => exact ih.imp .annotated .annotated
  | ascribed hf _ ih => exact ih.imp (.ascribed hf) (.ascribed hf)
  | reify hf _ ih => exact ih.imp (.reify hf) (.reify hf)
  | @unfold c b _ hb _ ih =>
      have hbody : cfg.env.unfoldable c = some b := by
        simp only [bodyOf?, Option.ite_none_right_eq_some] at hb
        exact hb.2
      obtain ⟨hcanonical, hfresh⟩ := hdefs c b hbody
      rw [Term.put_of_fresh hcanonical hfresh] at ih
      exact ih.imp (.unfold hb) (.unfold hb)
  | const hb hs => exact .inl (.const hb (.inert rfl rfl hs))
  | @rigid t hr =>
      by_cases ht : t = .free a
      · subst ht
        rw [Term.put_free_self, Term.shift_zero]
        exact .inl hnormal.toWhnf
      · refine .inl (.rigid ?_)
        cases t with
        | free b => rw [Term.put_free_of_ne fun hb => ht (congrArg Term.free hb)]; rfl
        | _ => first | rfl | cases hr
  | @beta _ n b as b' _ _ hne hn hb _ ih ih' =>
      rw [Term.put_app]
      refine ih.apps hacts (by simpa using hne) ?_
      have hlen : (as.take n).length = n := by
        rw [List.length_take, Nat.min_eq_left hn]
      have hle : n ≤ (as.map (put a v 0)).length := by rwa [List.length_map]
      rw [Term.put_apps, List.map_drop] at ih'
      rw [put, Nat.zero_add]
      rcases puts_beta? (a := a) hv (as.take n) b b' hb with hput | hput
      all_goals rw [hlen, List.map_take] at hput
      · exact ih'.imp (.beta hle hput) (.beta hle hput)
      · exact .inr (.beta_overflow hle hput)
  | short _ hne hlt ih =>
      rw [Term.put_app, Term.put_app, put, Nat.zero_add]
      rw [put, Nat.zero_add] at ih
      exact ih.apps hacts (by simpa using hne) (.inl (.short (by rwa [List.length_map])))
  | @merge _ g bs as _ hg hne _ ih ih' =>
      have hapart := hg.apart.resolve_left nofun
      have hjoined := hapart.exposed.apps as
      rw [Term.app_apps] at hjoined
      rw [hapart.put_app] at ih
      rw [Term.Apart.put_app ⟨hjoined, nofun, by rintro _ _ ⟨⟩; exact hapart.head_ne g bs rfl⟩,
        List.map_append] at ih'
      rw [Term.put_app]
      exact ih.apps hacts (by simpa using hne) (ih'.imp .merge .merge)
  | inert hh hne happ hlam hs hg ih =>
      obtain ⟨happ', hlam', hs'⟩ := put_inert (v := v) happ hlam hs hg
      rw [Term.put_app, Term.put_app]
      exact ih.apps hacts (by simpa using hne) (.inl (.inert happ' hlam' hs'))
  | @branch _ _ _ b _ hs hb _ ih ih' =>
      rw [put]
      rcases ih with hs' | hover
      · obtain ⟨y, hsel, hy⟩ := exists_select_put hv hs.apart hb
        rcases hy b rfl with rfl | rfl
        · exact ih'.imp (.case hs' hsel) (.case hs' hsel)
        · exact .inr (.case_overflow hs' hsel)
      · exact .inr (.case_error hover)
  | stuck hs hne hb ih =>
      have hsel := select_put_none hv (hs.apart.resolve_left hne) hb
      rw [put, put]
      exact ih.imp (.case_stuck · hsel) .case_error

end

/-! ## A metaprogram that hands data on -/

/-- The function of a datum and of something that comes along with it which gives the constructor's
application to what `e` is with the datum for its variable, and to the latter. -/
def handing (c : String) (e : Term β σ) : Term β σ :=
  .lam 2 (.app (.ctor c) [e.shift 1 0, .bvar 0])

variable {c : String} {e p : Term β σ}

theorem beta_handing (he : e.Canonical) (hv : v.Canonical) :
    (Term.app (.ctor c) [e.shift 1 0, .bvar 0]).beta [v, p] =
      .app (.ctor c) [e.instantiate 0 [v], p] := by
  have hvs : ∀ u ∈ [v], u.Canonical := by simpa using hv
  have hinner : (e.shift 1 0).instantiate 0 [p, v] = e.instantiate 0 [v] := by
    have htwice : ((e.shift 1 0).instantiate 1 [v]).instantiate 0 [p] = (e.shift 1 0).instantiate 0 [p, v] :=
      Term.instantiate_instantiate hvs 0 (e.shift 1 0)
    have hroom := Term.instantiate_shift e [v] 1 0 0
    have hback := Term.instantiate_shift_cancel (he.instantiate hvs 0) [p] 0 0 0 (Nat.le_refl 0)
    rw [Term.shift_zero] at hback
    exact htwice.symm.trans ((congrArg (Term.instantiate 0 [p]) hroom).trans hback)
  rw [← hinner]
  rfl

/-- The application of the metaprogram is normalized to what it is meant to give, unless a machine word is
too small for the way there. -/
theorem toNorm_handing (hacts : Sure cfg acts) (hf : cfg.flags.hnf = false) (he : e.Canonical)
    (hfresh : e.Fresh a) (hdefs : ∀ c b, cfg.env.unfoldable c = some b → b.Canonical ∧ b.Fresh a)
    (hv : v.Canonical) (hnormal : Normal cfg acts v) (hp : Normal cfg acts p)
    (h : Carries cfg a (e.instantiate 0 [.free a]) (.free a)) :
    ToNorm cfg acts ((handing c e).apps [v, p]) (.ok (.app (.ctor c) [v, p])) ∨
      ToNorm cfg acts ((handing c e).apps [v, p]) (.error .overflow) := by
  have hcarried := h.toWhnf_put hacts hv hnormal.headNormal hdefs
  rw [Term.put_instantiate_free hv he hfresh, Term.put_free_self, Term.shift_zero] at hcarried
  cases hbeta : (Term.app (.ctor c) [e.shift 1 0, .bvar 0]).beta? [v, p] with
  | none => exact .inr (.error (.app (.rigid rfl) (.beta_overflow (Nat.le_refl 2) hbeta)))
  | some body =>
      obtain rfl : body = .app (.ctor c) [e.instantiate 0 [v], p] :=
        (Term.beta_of_beta? hbeta).trans (beta_handing he hv)
      have hwhnf : ToWhnf cfg acts (.app (handing c e) [v, p])
          (.ok (.app (.ctor c) [e.instantiate 0 [v], p])) :=
        .app (.rigid rfl) (.beta (Nat.le_refl 2) hbeta (.app (.rigid rfl) (.inert rfl rfl
          (stepOf_eq_none nofun nofun))))
      rcases hcarried with hdatum | hover
      · have hnorm : ToNorm cfg acts (e.instantiate 0 [v]) (.ok v) := by
          refine ToNorm.of_toWhnf (fun r hr => ?_) hnormal.toNorm
          cases hr.unique hacts hnormal.headNormal.toWhnf
          exact hdatum
        exact .inl (.args hf hwhnf (.cons hnorm (.cons hp.toNorm .nil)))
      · exact .inr (.args_error hf hwhnf (.head_error (.error hover)))

end Reduce

end TacticEngine
