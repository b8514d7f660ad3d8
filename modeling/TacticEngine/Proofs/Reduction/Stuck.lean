/-
# TacticEngine.Proofs.Reduction.Stuck -- what an evaluation that stopped is blamed on.

`Term.blame` looks for the subterm at which an evaluation stopped, by a traversal of its own that knows
nothing of the reducer.  Whatever the term, it goes through heads of applications, scrutinees and wrappers
only (`Term.inward_blame`), and it ends where there is nothing to look into (`Term.isCulprit_blame`).  In
what the reducer leaves behind it also ends at a term that can do nothing any more (`HeadNormal.blame`),
for the reducer stopped at an application or a case distinction only with its head or scrutinee done.
-/
import TacticEngine.Diagnosis
import TacticEngine.Proofs.Reduction.Normal

namespace TacticEngine

variable {β σ : Type}

namespace Term

/-! ## Where the traversal goes -/

/-- The second term is the first, or lies in it at the end of a path through heads of applications,
scrutinees, annotations and ascriptions. -/
inductive Inward : Term β σ → Term β σ → Prop where
  | here {t} : Inward t t
  | annotated {t n u} : Inward t u → Inward (.annotated t n) u
  | ascribed {t s u} : Inward t u → Inward (.ascribed t s) u
  | head {h as u} : Inward h u → Inward (.app h as) u
  | scrutinee {s brs u} : Inward s u → Inward (.case s brs) u

variable {t u : Term β σ}

theorem mem_subterms_self (t : Term β σ) : t ∈ t.subterms := by
  cases t <;> simp [subterms]

theorem Inward.mem_subterms (hp : Inward t u) : u ∈ t.subterms := by
  induction hp with
  | here => exact mem_subterms_self _
  | annotated _ ih => exact List.mem_cons_of_mem _ ih
  | ascribed _ ih | head _ ih | scrutinee _ ih =>
      exact List.mem_cons_of_mem _ (List.mem_append_left _ ih)

/-- Whether an application is blamed as a whole for such a head: a name, a variable, a literal or a native
step. -/
def bearsBlame : Term β σ → Bool
  | .const _ | .ctor _ | .bvar _ | .free _ | .lit _ | .native _ => true
  | _ => false

theorem blame_app (h : Term β σ) (as : List (Term β σ)) :
    (app h as).blame = if h.strip.bearsBlame then app h as else h.blame := by
  rw [blame]
  cases h.strip <;> rfl

theorem inward_blame : ∀ t : Term β σ, Inward t t.blame
  | .annotated t _ => .annotated (inward_blame t)
  | .ascribed t _ => .ascribed (inward_blame t)
  | .app h as => by
      rw [blame_app]
      split
      · exact .here
      · exact .head (inward_blame h)
  | .case s _ => .scrutinee (inward_blame s)
  | .const _ | .ctor _ | .bvar _ | .free _ | .uvar _ | .lit _ | .lam _ _ | .reify _ | .blob _
  | .native _ => .here

/-! ## Where it ends -/

/-- There is nothing inside the term to blame instead: it is no wrapper and no case distinction, and if it is
an application, then its head bears the blame. -/
def IsCulprit : Term β σ → Prop
  | .annotated _ _ | .ascribed _ _ | .case _ _ => False
  | .app h _ => h.strip.bearsBlame = true
  | _ => True

theorem isCulprit_blame : ∀ t : Term β σ, t.blame.IsCulprit
  | .annotated t _ => isCulprit_blame t
  | .ascribed t _ => isCulprit_blame t
  | .app h as => by
      rw [blame_app]
      split
      case isTrue hb => exact hb
      case isFalse => exact isCulprit_blame h
  | .case s _ => isCulprit_blame s
  | .const _ | .ctor _ | .bvar _ | .free _ | .uvar _ | .lit _ | .lam _ _ | .reify _ | .blob _
  | .native _ => trivial

theorem IsCulprit.blame_eq_self (ht : t.IsCulprit) : t.blame = t := by
  cases t with
  | annotated | ascribed | case => exact ht.elim
  | app h as =>
      rw [blame_app]
      exact if_pos ht
  | _ => rfl

end Term

namespace Reduce

variable {cfg : Setting β σ} {acts : Deeds β σ} {t u : Term β σ}

/-- Where ascriptions are dropped, the culprit of a head normal form is one, too. -/
theorem HeadNormal.blame (hf : cfg.flags.unascribe = true) : ∀ {t : Term β σ},
    HeadNormal cfg acts t → HeadNormal cfg acts t.blame
  | .annotated _ _, .rigid hr => by cases hr
  | .ascribed _ _, .ascribed hkept => by
      rw [hf] at hkept
      cases hkept
  | .app h as, hh@(.app _ _ hhead _ _ _) => by
      rw [Term.blame_app]
      split
      · exact hh
      · exact hhead.blame hf
  | .case _ _, .case hs _ => hs.blame hf
  | .const _, hh | .ctor _, hh | .bvar _, hh | .free _, hh | .uvar _, hh | .lit _, hh | .lam _ _, hh
  | .reify _, hh | .blob _, hh | .native _, hh => hh

/-- With pure steps and ascriptions dropped, as they are when metaprograms are run: a term that normalization
ended with is blamed on a subterm which only heads of applications, scrutinees and wrappers lead to; which is no
case distinction, no wrapper, and no application but one of a name, a variable, a literal or a native step;
which is blamed on itself; and which reduction leaves as it is, in any world. -/
theorem irreducible_blame {p : Step σ → Prop} (hpure : cfg.Pure p)
    (hf : cfg.flags.unascribe = true) (ht : t.StepsAmong p) {w : World β σ}
    (hu : Settles (fun n => norm cfg n t) w (.ok u)) :
    (Term.Inward u u.blame ∧ u.blame ∈ u.subterms) ∧
      ((∀ s brs, u.blame ≠ .case s brs) ∧ (∀ v n, u.blame ≠ .annotated v n) ∧
        ∀ v s, u.blame ≠ .ascribed v s) ∧
      (∀ h as, u.blame = .app h as → h.strip.bearsBlame = true) ∧
      u.blame.blame = u.blame ∧
      ∀ w', Settles (fun n => whnf cfg n u.blame) w' (.ok u.blame) := by
  have hnormal := ((hpure.toNorm_iff ht).mp hu).normal (sure_doesAct cfg) u rfl
  have hculprit := u.isCulprit_blame
  refine ⟨⟨u.inward_blame, u.inward_blame.mem_subterms⟩, ⟨?_, ?_, ?_⟩, ?_,
    hculprit.blame_eq_self, ?_⟩
  · intro s brs h
    rw [h] at hculprit
    exact hculprit
  · intro v n h
    rw [h] at hculprit
    exact hculprit
  · intro v s h
    rw [h] at hculprit
    exact hculprit
  · intro h as happ
    rw [happ] at hculprit
    exact hculprit
  · exact ((hnormal.headNormal.blame hf).toWhnf.reaches (sure_doesAct cfg)).settles

/-- A case distinction, applied to an argument, on what a step that does not apply makes of another step. -/
def stuckSample : Term Unit Sample :=
  .app (.case (.annotated (.app (.const "never") [.app (.const "first") [.free "x", .lit .unit]])
    (.monadic "Tac")) [⟨.ctor "Some" 1, .bvar 0⟩]) [.lit (.int 1)]

/-- The distinction is blamed on the step that did not apply. -/
theorem irreducible_blame_scrutinee : Settles
    (fun n => whnf (sample .tactic) n (.app (.const "never") [.free "x"])) {}
      (.ok (.app (.const "never") [.free "x"])) := by
  have hu : Settles (fun n => norm (sample .tactic) n stuckSample) {}
      (.ok (.app (.case (.app (.const "never") [.free "x"]) [⟨.ctor "Some" 1, .bvar 0⟩])
        [.lit (.int 1)])) := by
    refine ⟨20, fun n hn => ?_⟩
    obtain ⟨n, rfl⟩ := Nat.exists_eq_add_of_le' hn
    rfl
  exact (irreducible_blame (pure_sample .tactic) rfl (fun _ _ => trivial) hu).2.2.2.2 {}

end Reduce

end TacticEngine
