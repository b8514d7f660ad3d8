/-
# TacticEngine.Proofs.Reduction.Normal -- weak normal forms.

`HeadNormal` and `Normal` say, constructor by constructor, when nothing can be done at the head of a term
and when nothing can be done to it outside of binders and branches.  Reduction ends in such terms
(`ToNorm.normal`) and leaves them as they are (`Normal.toNorm`).  So normalizing a term that was normalized
before gives it back (`normalize_idempotent`).
-/
import TacticEngine.Proofs.Reduction.Invariant

namespace TacticEngine

variable {β σ : Type}

namespace Reduce

/-! ## Normal forms -/

section

variable (cfg : Setting β σ) (acts : Deeds β σ)

mutual
/-- Nothing can be done at the head of the term, where `acts` says what steps do on which arguments; one
that declines does nothing. -/
inductive HeadNormal : Term β σ → Prop where
  /-- Data, variables and lambdas by themselves. -/
  | rigid {t} : t.isRigid = true → HeadNormal t
  /-- An ascription, unless these are dropped. -/
  | ascribed {t s} : cfg.flags.unascribe = false → HeadNormal (.ascribed t s)
  /-- A reified term, unless these are looked through. -/
  | reify {t} : cfg.flags.reify = false → HeadNormal (.reify t)
  /-- A constant that is not unfolded and whose step needs arguments or does not apply. -/
  | const {c} : bodyOf? cfg c = none →
      (∀ s, stepOf cfg (.const c) = some s → s.arity = 0 → acts s [] (.ok none)) → HeadNormal (.const c)
  /-- A native step that needs arguments or does not apply. -/
  | native {n} : (∀ s, stepOf cfg (.native n) = some s → s.arity = 0 → acts s [] (.ok none)) →
      HeadNormal (.native n)
  /-- An application of another such term that is no application itself, nor a lambda with enough arguments,
  and whose step has too few arguments or does not apply to them, normal as they are. -/
  | app {h as} : h.isApp = false → as ≠ [] → HeadNormal h →
      (∀ n b, h = .lam n b → as.length < n) →
      (∀ s, stepOf cfg h = some s → s.arity ≤ as.length → ∀ a ∈ as.take s.arity, Normal a) →
      (∀ s, stepOf cfg h = some s → s.arity ≤ as.length → acts s (as.take s.arity) (.ok none)) →
      HeadNormal (.app h as)
  /-- A case distinction on another such term that selects no branch. -/
  | case {s brs} : HeadNormal s → select s brs = none → HeadNormal (.case s brs)

/-- Nothing can be done to the term, nor to its arguments unless only the head is wanted. -/
inductive Normal : Term β σ → Prop where
  /-- Only the head is wanted. -/
  | hnf {t} : cfg.flags.hnf = true → HeadNormal t → Normal t
  /-- An application to normal arguments. -/
  | app {h as} : cfg.flags.hnf = false → HeadNormal (.app h as) → (∀ a ∈ as, Normal a) →
      Normal (.app h as)
  /-- A term that is no application. -/
  | head {t} : cfg.flags.hnf = false → HeadNormal t → t.isApp = false → Normal t
end

end

variable {cfg : Setting β σ} {acts : Deeds β σ}
  {t u h : Term β σ} {as : List (Term β σ)}

theorem Normal.headNormal (h : Normal cfg acts t) : HeadNormal cfg acts t := by
  cases h <;> assumption

theorem HeadNormal.apps_eq (h : HeadNormal cfg acts (.app t as)) : t.apps as = .app t as := by
  cases h with
  | rigid hr => cases hr
  | app happ hne _ _ _ _ => exact Term.apps_of_not_isApp happ hne

/-- Wrappers are no normal forms where they are dropped. -/
theorem HeadNormal.not_wrapped (h : HeadNormal cfg acts t) (hascribed : cfg.flags.unascribe = true)
    (hreify : cfg.flags.reify = true) :
    (∀ u n, t ≠ .annotated u n) ∧ (∀ u s, t ≠ .ascribed u s) ∧ ∀ u, t ≠ .reify u := by
  refine ⟨?_, ?_, ?_⟩
  · rintro u n rfl
    cases h with
    | rigid hr => cases hr
  · rintro u s rfl
    cases h with
    | rigid hr => cases hr
    | ascribed hf => rw [hascribed] at hf; cases hf
  · rintro u rfl
    cases h with
    | rigid hr => cases hr
    | reify hf => rw [hreify] at hf; cases hf

/-! ## Reduction leaves normal forms as they are -/

theorem not_isApp_of_stepOf {s : Step σ} (hs : stepOf cfg h = some s) : h.isApp = false := by
  rcases named_of_stepOf hs with ⟨c, rfl⟩ | ⟨s, rfl⟩ <;> rfl

theorem ne_lam_of_stepOf {s : Step σ} (hs : stepOf cfg h = some s) (n : Nat) (b : Term β σ) :
    h ≠ .lam n b := by
  rcases named_of_stepOf hs with ⟨c, rfl⟩ | ⟨s, rfl⟩ <;> nofun

theorem toNorms_self (h : ∀ a ∈ as, ToNorm cfg acts a (.ok a)) : ToNorms cfg acts as (.ok as) := by
  induction as with
  | nil => exact .nil
  | cons a as ih =>
      obtain ⟨ha, has⟩ := List.forall_mem_cons.mp h
      exact .cons ha (ih has)

/-- If no step applies, an application stays as it is. -/
theorem toApp_self (happ : h.isApp = false) (hlam : ∀ n b, h = .lam n b → as.length < n)
    (hstep : ∀ s, stepOf cfg h = some s → s.arity ≤ as.length →
      (∀ a ∈ as.take s.arity, ToNorm cfg acts a (.ok a)) ∧ acts s (as.take s.arity) (.ok none)) :
    ToApp cfg acts h as (.ok (h.apps as)) := by
  cases hs : stepOf cfg h with
  | none =>
      cases hl : h.isLam
      case false => exact .inert happ hl hs
      case true =>
        cases h with
        | lam n b => exact .short (hlam n b rfl)
        | _ => cases hl
  | some s =>
      by_cases hle : s.arity ≤ as.length
      · obtain ⟨hnow, hact⟩ := hstep s hs hle
        have hdecl := ToApp.declined hs hle (toNorms_self hnow) hact
        rwa [List.take_append_drop] at hdecl
      · exact .waiting hs (Nat.not_le.mp hle)

mutual
theorem HeadNormal.toWhnf : ∀ {t : Term β σ}, HeadNormal cfg acts t → ToWhnf cfg acts t (.ok t)
  | _, .rigid hr => .rigid hr
  | _, .ascribed hf => .ascribed_kept hf
  | _, .reify hf => .reify_kept hf
  | .const c, .const hb hself => by
      have happ : ToApp cfg acts (.const c) [] (.ok (.const c)) := by
        refine toApp_self rfl nofun fun s hs hle => ?_
        rw [List.take_nil]
        exact ⟨nofun, hself s hs (Nat.le_zero.mp hle)⟩
      exact .const hb happ
  | .native n, .native hself => by
      have happ : ToApp cfg acts (.native n) [] (.ok (.native n)) := by
        refine toApp_self rfl nofun fun s hs hle => ?_
        rw [List.take_nil]
        exact ⟨nofun, hself s hs (Nat.le_zero.mp hle)⟩
      exact .native happ
  | _, .app happ hne hh hlam hnow hdecl => by
      have hself := toApp_self happ hlam fun s hs hle =>
        ⟨fun a ha => (hnow s hs hle a ha).toNorm, hdecl s hs hle⟩
      rw [Term.apps_of_not_isApp happ hne] at hself
      exact .app hh.toWhnf hself
  | _, .case hs hsel => .case_stuck hs.toWhnf hsel

theorem Normal.toNorm : ∀ {t : Term β σ}, Normal cfg acts t → ToNorm cfg acts t (.ok t)
  | _, .hnf hf h => .hnf hf h.toWhnf
  | _, .app hf h has => by
      have hself := ToNorm.args hf h.toWhnf (toNorms_self fun a ha => (has a ha).toNorm)
      rwa [h.apps_eq] at hself
  | _, .head hf h happ => .head hf h.toWhnf happ
end

/-- A step that declines as many normal arguments as it takes leaves a normal form. -/
theorem Normal.of_declined {c : String} {s : Step σ}
    (hf : cfg.flags.hnf = false) (hs : stepOf cfg (.const c) = some s) (hne : as ≠ [])
    (hlen : as.length = s.arity) (has : ∀ a ∈ as, Normal cfg acts a) (hact : acts s as (.ok none)) :
    Normal cfg acts (.app (.const c) as) := by
  have hpos : s.arity ≠ 0 := by
    rw [← hlen]
    simpa using hne
  have htake : as.take s.arity = as := by rw [← hlen, List.take_length]
  have hconst : HeadNormal cfg acts (.const c) := by
    refine .const (bodyOf?_eq_none_of_stepOf hs) fun s' hs' hz => ?_
    obtain rfl := Option.some.inj (hs.symm.trans hs')
    exact absurd hz hpos
  refine .app hf (.app rfl hne hconst nofun ?_ ?_) has
  all_goals
    intro s' hs' _
    obtain rfl := Option.some.inj (hs.symm.trans hs')
    rw [htake]
  · exact has
  · exact hact

/-- Normalizing goes on from the weak head normal form, however that was come by. -/
theorem ToNorm.of_toWhnf {t u : Term β σ} (h : ∀ r, ToWhnf cfg acts t r → ToWhnf cfg acts u r)
    {r : Except (Halt β) (Term β σ)} (ht : ToNorm cfg acts t r) : ToNorm cfg acts u r := by
  cases ht with
  | hnf hf hw => exact .hnf hf (h _ hw)
  | args hf hw has => exact .args hf (h _ hw) has
  | args_error hf hw has => exact .args_error hf (h _ hw) has
  | head hf hw happ => exact .head hf (h _ hw) happ
  | error hw => exact .error (h _ hw)

/-! ## Reduction ends in normal forms -/

/-- A constant that is not unfolded, or a native step, before its own step was tried. -/
inductive Bare (cfg : Setting β σ) : Term β σ → Prop where
  | const {c} : bodyOf? cfg c = none → Bare cfg (.const c)
  | native {s} : Bare cfg (.native s)

/-- What is left of an application whose head is done, if no step applies to it. -/
theorem headNormal_apps (hh : HeadNormal cfg acts h ∨ (as = [] ∧ Bare cfg h)) (happ : h.isApp = false)
    (hlam : ∀ n b, h = .lam n b → as.length < n)
    (hstep : ∀ s, stepOf cfg h = some s → s.arity ≤ as.length →
      (∀ a ∈ as.take s.arity, Normal cfg acts a) ∧ acts s (as.take s.arity) (.ok none)) :
    HeadNormal cfg acts (h.apps as) := by
  by_cases has : as = []
  · subst has
    have hself : ∀ s, stepOf cfg h = some s → s.arity = 0 → acts s [] (.ok none) := by
      intro s hs hz
      have hact := (hstep s hs (by simp [hz])).2
      rwa [List.take_nil] at hact
    rw [Term.apps_nil]
    rcases hh with hh | ⟨-, hb | _⟩
    · exact hh
    · exact .const hb hself
    · exact .native hself
  · rw [Term.apps_of_not_isApp happ has]
    rcases hh with hh | ⟨hnil, -⟩
    · exact .app happ has hh hlam (fun s hs hle => (hstep s hs hle).1) fun s hs hle =>
        (hstep s hs hle).2
    · exact absurd hnil has

theorem ToNorms.length_eq {ts us : List (Term β σ)} (h : ToNorms cfg acts ts (.ok us)) :
    us.length = ts.length := by
  induction ts generalizing us with
  | nil => cases h; rfl
  | cons t ts ih =>
      cases h with
      | cons _ hs => simp [ih hs]

theorem ToNorms.take {ts us : List (Term β σ)} (h : ToNorms cfg acts ts (.ok us)) (n : Nat) :
    ToNorms cfg acts (ts.take n) (.ok (us.take n)) := by
  induction n generalizing ts us with
  | zero => exact .nil
  | succ n ih =>
      cases h with
      | nil => exact .nil
      | cons ht hts => exact .cons ht (ih hts)

/-- Arguments that are normalized stay as far as a step has declined them. -/
theorem HeadNormal.app_of_toNorms (hacts : Sure cfg acts) {bs : List (Term β σ)}
    (h : HeadNormal cfg acts (.app t as)) (hbs : ToNorms cfg acts as (.ok bs)) :
    HeadNormal cfg acts (.app t bs) := by
  cases h with
  | rigid hr => cases hr
  | app happ hne hh hlam hnow hdecl =>
      have hlen := hbs.length_eq
      -- The arguments that were declined are normal, so normalizing has left them as they were.
      have htake : ∀ s, stepOf cfg t = some s → s.arity ≤ as.length →
          bs.take s.arity = as.take s.arity := by
        intro s hs hle
        have hself := toNorms_self fun a ha => (hnow s hs hle a ha).toNorm
        exact Except.ok.inj ((hbs.take s.arity).unique hacts hself)
      refine .app happ ?_ hh ?_ ?_ ?_
      · rintro rfl
        exact hne (List.eq_nil_of_length_eq_zero hlen.symm)
      · intro n b hl
        rw [hlen]
        exact hlam n b hl
      · intro s hs hle
        rw [hlen] at hle
        rw [htake s hs hle]
        exact hnow s hs hle
      · intro s hs hle
        rw [hlen] at hle
        rw [htake s hs hle]
        exact hdecl s hs hle

-- By induction on the derivation.  A constant by itself is no normal form before its own step was tried, so
-- for an application to nothing it is enough that the head is `Bare`.
mutual
theorem ToWhnf.headNormal (hacts : Sure cfg acts) : ∀ {t : Term β σ}
    {r : Except (Halt β) (Term β σ)}, ToWhnf cfg acts t r → ∀ u, r = .ok u → HeadNormal cfg acts u
  | _, _, .annotated h => h.headNormal hacts
  | _, _, .ascribed _ h => h.headNormal hacts
  | _, _, .ascribed_kept hf => by rintro _ ⟨⟩; exact .ascribed hf
  | _, _, .reify _ h => h.headNormal hacts
  | _, _, .reify_kept hf => by rintro _ ⟨⟩; exact .reify hf
  | _, _, .unfold _ h => h.headNormal hacts
  | _, _, .const hb h => h.headNormal hacts (.inr ⟨rfl, .const hb⟩)
  | _, _, .native h => h.headNormal hacts (.inr ⟨rfl, .native⟩)
  | _, _, .rigid hr => by rintro _ ⟨⟩; exact .rigid hr
  | _, _, .app hh h => h.headNormal hacts (.inl (hh.headNormal hacts _ rfl))
  | _, _, .app_error _ => nofun
  | _, _, .case _ _ h => h.headNormal hacts
  | _, _, .case_overflow _ _ => nofun
  | _, _, .case_stuck hs hsel => by rintro _ ⟨⟩; exact .case (hs.headNormal hacts _ rfl) hsel
  | _, _, .case_error _ => nofun

theorem ToApp.headNormal (hacts : Sure cfg acts) : ∀ {h : Term β σ} {as : List (Term β σ)}
    {r : Except (Halt β) (Term β σ)}, ToApp cfg acts h as r →
      HeadNormal cfg acts h ∨ (as = [] ∧ Bare cfg h) → ∀ u, r = .ok u → HeadNormal cfg acts u
  | _, _, _, .merge h, _ => h.headNormal hacts
  | _, _, _, .beta _ _ h, _ => h.headNormal hacts
  | _, _, _, .beta_overflow _ _, _ => nofun
  | _, _, _, .short hn, hh => by
      rintro _ ⟨⟩
      refine headNormal_apps hh rfl ?_ fun s hs => ?_
      · rintro _ _ ⟨⟩
        exact hn
      · exact absurd rfl (ne_lam_of_stepOf hs _ _)
  | _, _, _, .inert happ hlam hs, hh => by
      rintro _ ⟨⟩
      refine headNormal_apps hh happ ?_ fun s hs' => ?_
      · rintro n b rfl
        cases hlam
      · rw [hs] at hs'
        cases hs'
  | _, _, _, .waiting hs hlen, hh => by
      rintro _ ⟨⟩
      refine headNormal_apps hh (not_isApp_of_stepOf hs) ?_ fun s' hs' hle => ?_
      · exact fun n b hl => absurd hl (ne_lam_of_stepOf hs n b)
      · rw [hs] at hs'
        cases hs'
        omega
  | _, _, _, .fired _ _ _ _ h, _ => h.headNormal hacts
  | _, as, _, @ToApp.declined _ _ _ _ _ s _ now hs hlen hnow hact, hh => by
      rintro _ ⟨⟩
      have hnowlen : now.length = s.arity := by
        rw [hnow.length_eq, List.length_take]
        omega
      refine headNormal_apps ?_ (not_isApp_of_stepOf hs) ?_ fun s' hs' hle => ?_
      · refine hh.imp_right fun ⟨hnil, hb⟩ => ⟨?_, hb⟩
        subst hnil
        have hz : s.arity = 0 := Nat.le_zero.mp hlen
        rw [List.eq_nil_of_length_eq_zero (hnowlen.trans hz), List.drop_nil, List.append_nil]
      · exact fun n b hl => absurd hl (ne_lam_of_stepOf hs n b)
      · rw [hs] at hs'
        cases hs'
        rw [List.take_left' hnowlen]
        exact ⟨hnow.normal hacts _ rfl, hact⟩
  | _, _, _, .failed _ _ _ _, _ => nofun
  | _, _, _, .args_error _ _ _, _ => nofun

theorem ToNorm.normal (hacts : Sure cfg acts) : ∀ {t : Term β σ}
    {r : Except (Halt β) (Term β σ)}, ToNorm cfg acts t r → ∀ u, r = .ok u → Normal cfg acts u
  | _, _, .hnf hf h => by rintro _ ⟨⟩; exact .hnf hf (h.headNormal hacts _ rfl)
  | _, _, .args hf h hs => by
      rintro _ ⟨⟩
      have hhead := (h.headNormal hacts _ rfl).app_of_toNorms hacts hs
      rw [hhead.apps_eq]
      exact .app hf hhead (hs.normal hacts _ rfl)
  | _, _, .args_error _ _ _ => nofun
  | _, _, .head hf h hu => by rintro _ ⟨⟩; exact .head hf (h.headNormal hacts _ rfl) hu
  | _, _, .error _ => nofun

theorem ToNorms.normal (hacts : Sure cfg acts) : ∀ {ts : List (Term β σ)}
    {r : Except (Halt β) (List (Term β σ))}, ToNorms cfg acts ts r →
      ∀ us, r = .ok us → ∀ u ∈ us, Normal cfg acts u
  | _, _, .nil => by
      rintro _ ⟨⟩ u hu
      cases hu
  | _, _, .cons h hs => by
      rintro _ ⟨⟩
      exact List.forall_mem_cons.mpr ⟨h.normal hacts _ rfl, hs.normal hacts _ rfl⟩
  | _, _, .head_error _ => nofun
  | _, _, .tail_error _ _ => nofun
end

/-! ## Idempotence -/

/-- With pure steps, whatever may be done: what normalization ends with is a weak normal form, and
normalizing it again gives it back, in any world.  Running metaprograms leaves no wrapper outside. -/
theorem normalize_idempotent {p : Step σ → Prop} (hpure : cfg.Pure p) (ht : t.StepsAmong p)
    {w : World β σ} (hu : Settles (fun n => norm cfg n t) w (.ok u)) :
    (∀ w', Settles (fun n => norm cfg n u) w' (.ok u)) ∧ Normal cfg (doesAct cfg) u ∧
      (cfg.flags = .tactic →
        (∀ v n, u ≠ .annotated v n) ∧ (∀ v s, u ≠ .ascribed v s) ∧ ∀ v, u ≠ .reify v) := by
  have hnormal := ((hpure.toNorm_iff ht).mp hu).normal (sure_doesAct cfg) u rfl
  refine ⟨(hnormal.toNorm.reaches (sure_doesAct cfg)).settles, hnormal, fun hf => ?_⟩
  exact hnormal.headNormal.not_wrapped (congrArg Flags.unascribe hf) (congrArg Flags.reify hf)

/-- A step that does not apply, to one argument too many, the first one still to be normalized. -/
def declinedSample : Term Unit Sample :=
  .app (.annotated (.const "never") (.monadic "Tac"))
    [.app (.const "first") [.free "x", .lit .unit], .reify (.lit (.int 2))]

/-- The application is stuck on its first argument, and stays so. -/
theorem normalize_idempotent_declined : Settles
    (fun n => norm (sample .tactic) n (.app (.const "never") [.free "x", .lit (.int 2)])) {}
      (.ok (.app (.const "never") [.free "x", .lit (.int 2)])) := by
  refine (normalize_idempotent (pure_sample .tactic) (t := declinedSample) (fun _ _ => trivial)
    (w := {}) ?_).1 {}
  refine ⟨10, fun n hn => ?_⟩
  obtain ⟨n, rfl⟩ := Nat.exists_eq_add_of_le' hn
  rfl

end Reduce

end TacticEngine
