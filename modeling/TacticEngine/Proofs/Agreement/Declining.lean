/-
# TacticEngine.Proofs.Agreement.Declining -- steps that may only decline.

A term can be in normal form although it applies a step, since the step declines.  For the evaluators to
agree on such a term nothing need be known of what the step does on other arguments.  So let a step only do
what it does where it declines in every world, and let it never end elsewhere (`Interp.declining`).  With
such steps the ground of the evaluators is lawful whatever the steps are (`lawful_declining`), and normal
forms and what is carried along are the same as before.  An evaluation that ends with such steps has met no
others, so it ends alike without the restriction.
-/
import TacticEngine.Proofs.Agreement.Functional
import TacticEngine.Proofs.Likeness.Machine
import TacticEngine.Proofs.Reduction.Carrying

namespace TacticEngine

variable {β σ : Type}

/-- The step declines these arguments in every world. -/
def Interp.Declines (i : Interp β σ) (body : σ) (env : Env β σ) (ts : List (Term β σ)) : Prop :=
  ∀ w, ending (i body env ts w) = .ok none

open Classical in
/-- What steps do where they decline; elsewhere they never end. -/
noncomputable def Interp.declining (i : Interp β σ) : Interp β σ := fun body env ts =>
  if i.Declines body env ts then i body env ts else throw .exhausted

section

variable {i : Interp β σ} {body : σ} {env : Env β σ} {ts : List (Term β σ)}

theorem Interp.declining_of_declines (h : i.Declines body env ts) :
    i.declining body env ts = i body env ts :=
  if_pos h

theorem Interp.declining_of_not_declines (h : ¬ i.Declines body env ts) :
    i.declining body env ts = throw .exhausted :=
  if_neg h

end

/-- A setting for the machine in which steps may only decline. -/
noncomputable def Machine.Setting.declining (cfg : Machine.Setting β σ) : Machine.Setting β σ :=
  cfg.withInterp cfg.interp.declining

/-- A setting for reduction in which steps may only decline. -/
noncomputable def Reduce.Setting.declining (cfg : Reduce.Setting β σ) : Reduce.Setting β σ :=
  cfg.withInterp cfg.interp.declining

/-! ## Agreement -/

/-- Whatever steps do, they do the same in all worlds as far as they may only decline. -/
theorem lawful_declining {cfg : Machine.Setting β σ} (hdirect : ∀ body, cfg.direct body = none)
    (hdefs : ∀ c t, cfg.env.unfoldable c = some t → t.Closed ∧ t.Canonical) :
    (functionalGround (fun _ => True) cfg.declining).Lawful where
  closed := trivial
  canonical := trivial
  const _ := trivial
  symm := admissibleLikeness_symmetric
  trans := admissibleLikeness_transitive
  arity := admissibleLikeness_keepsArity
  issue_trans := Eq.trans
  fair := fair_functional
  lookup _ := ⟨rfl, trivial⟩
  unfoldable hc := admissible_iff.mp ⟨(hdefs _ _ hc).1, (hdefs _ _ hc).2, fun _ _ => trivial⟩
  interp := by
    rintro l s _ ts ts' ⟨rfl, hs⟩ hts
    obtain rfl := hts.eq admissibleLikeness_strict
    show Tie.Follows _ _ (cfg.interp.declining s.body cfg.env ts) fun _ _ =>
      cfg.interp.declining s.body cfg.env ts
    by_cases h : cfg.interp.Declines s.body cfg.env ts
    · rw [Interp.declining_of_declines h]
      refine .const fun w w' _ => ?_
      obtain ⟨w₁, hrun⟩ := ending_eq_ok_iff.mp (h w)
      obtain ⟨w₁', hrun'⟩ := ending_eq_ok_iff.mp (h w')
      rw [hrun, hrun']
      exact .ok .none ⟨trivial, trivial⟩
    · rw [Interp.declining_of_not_declines h]
      exact .mute fun _ => rfl
  direct _ := hdirect _
  lasts _ _ _ := Lasts.const _

/-! ## What the restriction leaves as it is -/

namespace Reduce

variable {cfg : Setting β σ}

theorem doesAct_declining {s : Step σ} {as : List (Term β σ)} (h : doesAct cfg s as (.ok none)) :
    doesAct cfg.declining s as (.ok none) := by
  intro w
  show ending (cfg.interp.declining s.body cfg.env as w) = _
  rw [Interp.declining_of_declines h]
  exact h w

mutual
theorem HeadNormal.declining : ∀ {t : Term β σ}, HeadNormal cfg (doesAct cfg) t →
    HeadNormal cfg.declining (doesAct cfg.declining) t
  | _, .rigid hr => .rigid hr
  | _, .ascribed hf => .ascribed hf
  | _, .reify hf => .reify hf
  | _, .const hb hs => .const hb fun s h hz => doesAct_declining (hs s h hz)
  | _, .native hs => .native fun s h hz => doesAct_declining (hs s h hz)
  | _, .app happ hne hh hlam hnow hdecl => .app happ hne hh.declining hlam
      (fun s hs hle a ha => (hnow s hs hle a ha).declining)
      fun s hs hle => doesAct_declining (hdecl s hs hle)
  | _, .case hs hb => .case hs.declining hb

/-- A normal form is one as far as steps may only decline. -/
theorem Normal.declining : ∀ {t : Term β σ}, Normal cfg (doesAct cfg) t →
    Normal cfg.declining (doesAct cfg.declining) t
  | _, .hnf hf hh => .hnf hf hh.declining
  | _, .app hf hh has => .app hf hh.declining fun a ha => (has a ha).declining
  | _, .head hf hh happ => .head hf hh.declining happ
end

/-- What steps do has no part in carrying a name along. -/
theorem Carries.declining {a : String} {t u : Term β σ} (h : Carries cfg a t u) :
    Carries cfg.declining a t u := by
  induction h with
  | annotated _ ih => exact .annotated ih
  | ascribed hf _ ih => exact .ascribed hf ih
  | reify hf _ ih => exact .reify hf ih
  | unfold hb _ ih => exact .unfold hb ih
  | const hb hs => exact .const hb hs
  | rigid hr => exact .rigid hr
  | beta _ hne hn hb _ ih ih' => exact .beta ih hne hn hb ih'
  | short _ hne hlt ih => exact .short ih hne hlt
  | merge _ hne _ ih ih' => exact .merge ih hne ih'
  | inert _ hne happ hlam hs hg ih => exact .inert ih hne happ hlam hs hg
  | branch _ hb _ ih ih' => exact .branch ih hb ih'
  | stuck _ hne hb ih => exact .stuck ih hne hb

end Reduce

end TacticEngine
