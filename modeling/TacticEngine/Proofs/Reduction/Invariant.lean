/-
# TacticEngine.Proofs.Reduction.Invariant -- what stays as it should be along a reduction.

A likeness between a term and itself says that everything in the term is as it should be.  If what a
reduction may bring in is so, that is definitions, steps and the results of steps, then a reduction that
starts from such a term stays among such terms.  On the way it meets only steps that may occur, on arguments
that are as they should be; so what these do there is all that matters (`ToNorm.stays`).

Pure steps are the case in point: how they end does not depend on the world.  A run with such steps ends as
the rules say for what the steps do in every world, and so does every other run of the same term
(`Setting.Pure.toNorm_iff`).
-/
import TacticEngine.Proofs.Likeness.Self
import TacticEngine.Proofs.Reduction.BigStep

namespace TacticEngine

variable {β σ : Type}

namespace Reduce

/-! ## What stays -/

/-- What a reduction may bring in is as the likeness wants it: steps and definitions of the constants
that occur, and results of steps that do as `acts` says.  And such steps do as `acts'` says too. -/
structure Stays (cfg : Setting β σ) (acts acts' : Deeds β σ) (L : Likeness β σ) : Prop where
  /-- Names mean steps that may occur. -/
  lookup : ∀ c s, L.const c → cfg.steps.lookup c = some s → L.step s s
  /-- Definitions are as they should be. -/
  unfoldable : ∀ c b, L.const c → cfg.env.unfoldable c = some b → L.Alike 0 b b
  /-- Steps do what they are expected to do. -/
  deed : ∀ s as x, L.step s s → L.AlikeArgs 0 as as → acts s as x → acts' s as x
  /-- Results of steps are as they should be. -/
  result : ∀ s as u, L.step s s → L.AlikeArgs 0 as as → acts s as (.ok (some u)) → L.Alike 0 u u

variable {cfg : Setting β σ} {acts acts' : Deeds β σ} {L : Likeness β σ}

theorem Stays.stepOf (h : Stays cfg acts acts' L) {t : Term β σ} {s : Step σ} (ht : L.Alike 0 t t)
    (hs : stepOf cfg t = some s) : L.step s s := by
  rcases named_of_stepOf hs with ⟨c, rfl⟩ | ⟨s', rfl⟩
  · cases ht with
    | const hc =>
        simp only [Reduce.stepOf, Option.ite_none_right_eq_some] at hs
        exact h.lookup c s hc hs.2
  · cases ht with
    | native hs' =>
        simp only [Reduce.stepOf, Option.ite_none_right_eq_some, Option.some.injEq] at hs
        exact hs.2 ▸ hs'

theorem Stays.bodyOf? (h : Stays cfg acts acts' L) {c : String} {b : Term β σ} (hc : L.const c)
    (hb : bodyOf? cfg c = some b) : L.Alike 0 b b := by
  simp only [Reduce.bodyOf?, Option.ite_none_right_eq_some] at hb
  exact h.unfoldable c b hc hb.2

theorem alike_of_select {s b : Term β σ} {brs : List (Branch (Term β σ))} (hs : L.Alike 0 s s)
    (hbrs : L.AlikeBranches 0 brs brs) (hb : select s brs = some (some b)) : L.Alike 0 b b := by
  have hrel := select_alike hs hbrs
  rw [hb] at hrel
  cases hrel with
  | some h =>
      cases h with
      | some h => exact h

theorem alike_of_beta? {n : Nat} {b u : Term β σ} {as : List (Term β σ)}
    (hb : L.Alike 0 (.lam n b) (.lam n b)) (has : L.AlikeArgs 0 as as) (hn : n ≤ as.length)
    (hu : b.beta? (as.take n) = some u) : L.Alike 0 u u := by
  cases hb with
  | lam _ hb =>
      have hlen : (as.take n).length = n := by
        rw [List.length_take]
        omega
      have hrel := Term.Alike.beta? (has.take n) (by rwa [hlen])
      rw [hu] at hrel
      cases hrel with
      | some h => exact h

-- By induction on the derivation.  That a step does as `acts'` says is known only of arguments which are as
-- they should be, so the second half is needed for the first.
mutual
theorem ToWhnf.stays (hS : Stays cfg acts acts' L) : ∀ {t : Term β σ}
    {r : Except (Halt β) (Term β σ)}, ToWhnf cfg acts t r → L.Alike 0 t t →
      ToWhnf cfg acts' t r ∧ ∀ u, r = .ok u → L.Alike 0 u u
  | _, _, .annotated h, .annotated ht => ⟨.annotated (h.stays hS ht).1, (h.stays hS ht).2⟩
  | _, _, .ascribed hf h, .ascribed ht _ => ⟨.ascribed hf (h.stays hS ht).1, (h.stays hS ht).2⟩
  | _, _, .ascribed_kept hf, ht => ⟨.ascribed_kept hf, by rintro _ ⟨⟩; exact ht⟩
  | _, _, .reify hf h, .reify ht => ⟨.reify hf (h.stays hS ht).1, (h.stays hS ht).2⟩
  | _, _, .reify_kept hf, ht => ⟨.reify_kept hf, by rintro _ ⟨⟩; exact ht⟩
  | _, _, .unfold hb h, .const hc =>
      have ih := h.stays hS (hS.bodyOf? hc hb)
      ⟨.unfold hb ih.1, ih.2⟩
  | _, _, .const hb h, ht => ⟨.const hb (h.stays hS ht .nil).1, (h.stays hS ht .nil).2⟩
  | _, _, .native h, ht => ⟨.native (h.stays hS ht .nil).1, (h.stays hS ht .nil).2⟩
  | _, _, .rigid hr, ht => ⟨.rigid hr, by rintro _ ⟨⟩; exact ht⟩
  | _, _, .app hh ha, .app _ ht has =>
      have ihh := hh.stays hS ht
      have iha := ha.stays hS (ihh.2 _ rfl) has
      ⟨.app ihh.1 iha.1, iha.2⟩
  | _, _, .app_error hh, .app _ ht _ => ⟨.app_error (hh.stays hS ht).1, nofun⟩
  | _, _, .case hs hb h, .case ht hbrs =>
      have ihs := hs.stays hS ht
      have ih := h.stays hS (alike_of_select (ihs.2 _ rfl) hbrs hb)
      ⟨.case ihs.1 hb ih.1, ih.2⟩
  | _, _, .case_overflow hs hb, .case ht _ => ⟨.case_overflow (hs.stays hS ht).1 hb, nofun⟩
  | _, _, .case_stuck hs hb, .case ht hbrs =>
      have ihs := hs.stays hS ht
      ⟨.case_stuck ihs.1 hb, by rintro _ ⟨⟩; exact .case (ihs.2 _ rfl) hbrs⟩
  | _, _, .case_error hs, .case ht _ => ⟨.case_error (hs.stays hS ht).1, nofun⟩

theorem ToApp.stays (hS : Stays cfg acts acts' L) : ∀ {h : Term β σ} {as : List (Term β σ)}
    {r : Except (Halt β) (Term β σ)}, ToApp cfg acts h as r → L.Alike 0 h h →
      L.AlikeArgs 0 as as → ToApp cfg acts' h as r ∧ ∀ u, r = .ok u → L.Alike 0 u u
  | _, _, _, .merge h, ht, has => by
      have hall := ht.apps has
      rw [Term.app_apps] at hall
      exact ⟨.merge (h.stays hS hall).1, (h.stays hS hall).2⟩
  | _, _, _, .beta hn hb h, ht, has =>
      have ih := h.stays hS ((alike_of_beta? ht has hn hb).apps (has.drop _))
      ⟨.beta hn hb ih.1, ih.2⟩
  | _, _, _, .beta_overflow hn hb, _, _ => ⟨.beta_overflow hn hb, nofun⟩
  | _, _, _, .short hn, ht, has => ⟨.short hn, by rintro _ ⟨⟩; exact ht.apps has⟩
  | _, _, _, .inert happ hlam hs, ht, has =>
      ⟨.inert happ hlam hs, by rintro _ ⟨⟩; exact ht.apps has⟩
  | _, _, _, .waiting hs hn, ht, has => ⟨.waiting hs hn, by rintro _ ⟨⟩; exact ht.apps has⟩
  | _, _, _, .fired hs hn hnow hact h, ht, has =>
      have hstep := hS.stepOf ht hs
      have ihnow := hnow.stays hS (has.take _)
      have hnow' := ihnow.2 _ rfl
      have ih := h.stays hS ((hS.result _ _ _ hstep hnow' hact).apps (has.drop _))
      ⟨.fired hs hn ihnow.1 (hS.deed _ _ _ hstep hnow' hact) ih.1, ih.2⟩
  | _, _, _, .declined hs hn hnow hact, ht, has =>
      have ihnow := hnow.stays hS (has.take _)
      have hnow' := ihnow.2 _ rfl
      ⟨.declined hs hn ihnow.1 (hS.deed _ _ _ (hS.stepOf ht hs) hnow' hact),
        by rintro _ ⟨⟩; exact ht.apps (hnow'.append (has.drop _))⟩
  | _, _, _, .failed hs hn hnow hact, ht, has =>
      have ihnow := hnow.stays hS (has.take _)
      ⟨.failed hs hn ihnow.1 (hS.deed _ _ _ (hS.stepOf ht hs) (ihnow.2 _ rfl) hact), nofun⟩
  | _, _, _, .args_error hs hn hnow, _, has =>
      ⟨.args_error hs hn (hnow.stays hS (has.take _)).1, nofun⟩

theorem ToNorm.stays (hS : Stays cfg acts acts' L) : ∀ {t : Term β σ}
    {r : Except (Halt β) (Term β σ)}, ToNorm cfg acts t r → L.Alike 0 t t →
      ToNorm cfg acts' t r ∧ ∀ u, r = .ok u → L.Alike 0 u u
  | _, _, .hnf hf h, ht => ⟨.hnf hf (h.stays hS ht).1, (h.stays hS ht).2⟩
  | _, _, .args hf h hbs, ht => by
      have ih := h.stays hS ht
      cases ih.2 _ rfl with
      | app hc hh has =>
          have ihs := hbs.stays hS has
          exact ⟨.args hf ih.1 ihs.1, by rintro _ ⟨⟩; exact hh.apps (ihs.2 _ rfl)⟩
  | _, _, .args_error hf h hbs, ht => by
      have ih := h.stays hS ht
      cases ih.2 _ rfl with
      | app hc hh has => exact ⟨.args_error hf ih.1 (hbs.stays hS has).1, nofun⟩
  | _, _, .head hf h hu, ht => ⟨.head hf (h.stays hS ht).1 hu, (h.stays hS ht).2⟩
  | _, _, .error h, ht => ⟨.error (h.stays hS ht).1, nofun⟩

theorem ToNorms.stays (hS : Stays cfg acts acts' L) : ∀ {ts : List (Term β σ)}
    {r : Except (Halt β) (List (Term β σ))}, ToNorms cfg acts ts r → L.AlikeArgs 0 ts ts →
      ToNorms cfg acts' ts r ∧ ∀ us, r = .ok us → L.AlikeArgs 0 us us
  | _, _, .nil, _ => ⟨.nil, by rintro _ ⟨⟩; exact .nil⟩
  | _, _, .cons h hs, .cons ht hts =>
      have ih := h.stays hS ht
      have ihs := hs.stays hS hts
      ⟨.cons ih.1 ihs.1, by rintro _ ⟨⟩; exact .cons (ih.2 _ rfl) (ihs.2 _ rfl)⟩
  | _, _, .head_error h, .cons ht _ => ⟨.head_error (h.stays hS ht).1, nofun⟩
  | _, _, .tail_error h hs, .cons ht hts =>
      ⟨.tail_error (h.stays hS ht).1 (hs.stays hS hts).1, nofun⟩
end

end Reduce

/-! ## Pure steps -/

/-- Every native step in the term is one of these. -/
def Term.StepsAmong (p : Step σ → Prop) (t : Term β σ) : Prop := ∀ s, .native s ∈ t.subterms → p s

/-- The likeness that stands for `StepsAmong`, of canonical terms if wanted. -/
def Likeness.among (β : Type) (canonical : Prop) (p : Step σ → Prop) : Likeness β σ where
  closed := False
  canonical := canonical
  const _ := True
  blob := Eq
  step s s' := s = s' ∧ p s

theorem Term.alike_among_iff {canonical : Prop} {p : Step σ → Prop} {t : Term β σ} :
    (Likeness.among β canonical p).Alike 0 t t ↔ (canonical → t.Canonical) ∧ t.StepsAmong p := by
  constructor
  · exact fun h => ⟨fun hc => h.canonical hc, fun s hs => (h.fits _ hs).2⟩
  · rintro ⟨hcanonical, hsteps⟩
    refine Term.alike_self False.elim hcanonical fun u hu => ?_
    cases u with
    | blob b => exact rfl
    | native s => exact ⟨rfl, hsteps s hu⟩
    | _ => trivial

theorem Term.alikeArgs_among_iff {canonical : Prop} {p : Step σ → Prop} {ts : List (Term β σ)} :
    (Likeness.among β canonical p).AlikeArgs 0 ts ts ↔
      ∀ t ∈ ts, (canonical → t.Canonical) ∧ t.StepsAmong p := by
  rw [Term.alikeArgs_iff_forall₂, List.forall₂_same]
  exact forall₂_congr fun t _ => Term.alike_among_iff

namespace Reduce

/-- Where the world has no say in what these steps end with, and reduction brings in no other steps. -/
structure Setting.Pure (cfg : Setting β σ) (p : Step σ → Prop) : Prop where
  /-- The steps of the table are among them. -/
  steps : ∀ s ∈ cfg.steps, p s
  /-- So are those in definitions. -/
  unfoldable : ∀ c b, cfg.env.unfoldable c = some b → b.StepsAmong p
  /-- What a step ends with is the same in all worlds. -/
  interp : ∀ s as w w', p s → (∀ a ∈ as, a.StepsAmong p) →
    ending (cfg.interp s.body cfg.env as w) = ending (cfg.interp s.body cfg.env as w')
  /-- Results have no other steps in them. -/
  result : ∀ s as w u, p s → (∀ a ∈ as, a.StepsAmong p) →
    ending (cfg.interp s.body cfg.env as w) = .ok (some u) → u.StepsAmong p

/-- A step does what it does in every world. -/
def doesAct (cfg : Setting β σ) : Deeds β σ :=
  fun s as x => ∀ w, ending (cfg.interp s.body cfg.env as w) = x

theorem sure_doesAct (cfg : Setting β σ) : Sure cfg (doesAct cfg) := fun _ _ _ h => h

variable {cfg : Setting β σ} {p : Step σ → Prop} {t : Term β σ}

theorem Setting.Pure.stays (h : cfg.Pure p) :
    Stays cfg (mayAct cfg) (doesAct cfg) (.among β False p) where
  lookup _ _ _ hs := ⟨rfl, h.steps _ (List.mem_of_find?_eq_some hs)⟩
  unfoldable c b _ hb := Term.alike_among_iff.mpr ⟨False.elim, h.unfoldable c b hb⟩
  deed s as x hs has hx := by
    obtain ⟨w, rfl⟩ := hx
    have hargs := Term.alikeArgs_among_iff.mp has
    exact fun w' => h.interp s as w' w hs.2 fun a ha => (hargs a ha).2
  result s as u hs has hx := by
    obtain ⟨w, hw⟩ := hx
    have hargs := Term.alikeArgs_among_iff.mp has
    exact Term.alike_among_iff.mpr
      ⟨False.elim, h.result s as w u hs.2 (fun a ha => (hargs a ha).2) hw⟩

/-- With pure steps, what some run ends with is what the rules give, and is reached from every world. -/
theorem Setting.Pure.toNorm_iff (h : cfg.Pure p) (ht : t.StepsAmong p)
    {x : Except (Issue β) (Term β σ)} {w : World β σ} :
    Settles (fun n => norm cfg n t) w x ↔ ToNorm cfg (doesAct cfg) t (x.mapError .issue) := by
  constructor
  · rintro ⟨n, hn⟩
    have hend := outcome?_eq_some_iff.mp (hn n (Nat.le_refl n))
    have hnorm := toNorm_of_ending hend (by cases x <;> nofun)
    exact (hnorm.stays h.stays (Term.alike_among_iff.mpr ⟨False.elim, ht⟩)).1
  · exact fun hnorm => (hnorm.reaches (sure_doesAct cfg)).settles w

/-! ## A sample of steps -/

/-- What a step of the sample does. -/
inductive Sample where
  /-- It gives its first argument. -/
  | first
  /-- It applies to nothing. -/
  | never
  /-- It gives the literal in a constructor application to just that. -/
  | inner

/-- What a step of the sample gives, if it applies. -/
def Sample.act : Sample → List (Term Unit Sample) → Option (Term Unit Sample)
  | .first, ts => ts.head?
  | .inner, [.app (.ctor _) [.lit l]] => some (.lit l)
  | _, _ => none

/-- A setting with two steps of the sample, in which nothing is defined. -/
def sample (flags : Flags) : Setting Unit Sample where
  steps := [⟨0, "first", 2, {}, .first⟩, ⟨1, "never", 1, {}, .never⟩]
  flags := flags
  env := { moduleName := "Sample" }
  interp s _ ts := pure (s.act ts)

theorem Sample.act_mem {s : Sample} {ts : List (Term Unit Sample)} {u : Term Unit Sample}
    (h : s.act ts = some u) : u ∈ ts ∨ ∃ l, u = .lit l := by
  unfold act at h
  split at h
  · exact .inl (List.mem_of_mem_head? h)
  · exact .inr ⟨_, (Option.some.inj h).symm⟩
  · cases h

theorem pure_sample (flags : Flags) : (sample flags).Pure fun _ => True where
  steps _ _ := trivial
  unfoldable _ _ _ _ _ := trivial
  interp _ _ _ _ _ _ := rfl
  result _ _ _ _ _ _ _ _ _ := trivial

end Reduce

end TacticEngine
