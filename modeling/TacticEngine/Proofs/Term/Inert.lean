/-
# TacticEngine.Proofs.Term.Inert -- data have no use for evaluation.

An inert term is a literal, a native value, or a constructor applied to inert terms.  Nothing in it can be
reduced, whatever steps are in force and whatever definitions are in scope: constructors are not looked
up, even if a step or a definition has the name of one.  So an inert term is its own normal form, and
bringing it there has no effect on the world.
-/
import TacticEngine.Proofs.Run.Follows
import TacticEngine.Proofs.Term.Closed
import TacticEngine.Reduce

namespace TacticEngine

variable {α β σ : Type}

/-! ## Bounds for lists -/

/-- What holds from some bound on for each item holds from some bound on for all of them. -/
theorem exists_bound {P : α → Nat → Prop} {as : List α}
    (h : ∀ a ∈ as, ∃ N, ∀ n ≥ N, P a n) : ∃ N, ∀ n ≥ N, ∀ a ∈ as, P a n := by
  induction as with
  | nil => exact ⟨0, fun _ _ _ => nofun⟩
  | cons a as ih =>
      obtain ⟨N, hN⟩ := h a List.mem_cons_self
      obtain ⟨M, hM⟩ := ih fun b hb => h b (List.mem_cons_of_mem a hb)
      refine ⟨max N M, fun n hn b hb => ?_⟩
      rcases List.mem_cons.mp hb with rfl | hb
      · exact hN n (by omega)
      · exact hM n (by omega) b hb

/-- Acts that give back their arguments give back a list of them. -/
theorem mapM_run_self {ε s : Type} {f : α → EStateM ε s α} {as : List α} {w : s}
    (h : ∀ a ∈ as, f a w = .ok a w) : as.mapM f w = .ok as w := by
  induction as with
  | nil => rfl
  | cons a as ih =>
      rw [List.mapM_cons, run_bind_ok (h a List.mem_cons_self),
        run_bind_ok (ih fun b hb => h b (List.mem_cons_of_mem a hb))]
      rfl

namespace Term

/-- Literals, native values, and constructors applied to such. -/
inductive Inert : Term β σ → Prop where
  /-- A literal. -/
  | lit (l : Literal) : Inert (.lit l)
  /-- A native value. -/
  | blob (b : Blob β) : Inert (.blob b)
  /-- A constructor by itself. -/
  | ctor (c : String) : Inert (.ctor c)
  /-- A constructor with arguments. -/
  | app (c : String) {as : List (Term β σ)} : as ≠ [] → (∀ a ∈ as, Inert a) →
      Inert (.app (.ctor c) as)

end Term

namespace Reduce

theorem whnf_inert {t : Term β σ} (ht : t.Inert) (cfg : Setting β σ) {n : Nat} (hn : 2 ≤ n)
    (w : World β σ) : whnf cfg n t w = .ok t w := by
  obtain ⟨n, rfl⟩ := Nat.exists_eq_add_of_le' hn
  cases ht with
  | @app c as has =>
      have hstep : stepOf cfg (.ctor c) = none := by simp [stepOf]
      have hhead : whnf cfg (n + 1) (.ctor c) w = .ok (.ctor c) w := rfl
      have happ : whnfApp cfg (n + 1) (.ctor c) as = pure ((Term.ctor c).apps as) := by
        simp [whnfApp, hstep]
      rw [whnf, run_bind_ok hhead, happ, Term.apps_of_not_isApp (t := .ctor c) rfl has]
      rfl
  | _ => rfl

/-- Inert terms are their own normal forms. -/
theorem norm_inert {t : Term β σ} (ht : t.Inert) :
    ∃ N, ∀ n ≥ N, ∀ (cfg : Setting β σ) w, norm cfg n t w = .ok t w := by
  induction ht with
  | app c has h ih =>
      obtain ⟨N, hN⟩ := exists_bound ih
      refine ⟨N + 3, fun n hn cfg w => ?_⟩
      obtain ⟨n, rfl⟩ := Nat.exists_eq_add_of_le' (Nat.le_trans (Nat.le_add_left 1 (N + 2)) hn)
      rw [norm, run_bind_ok (whnf_inert (.app c has h) cfg (by omega) w)]
      cases cfg.flags.hnf with
      | true => rfl
      | false =>
          rw [if_neg Bool.false_ne_true]
          dsimp only
          rw [run_bind_ok (mapM_run_self fun a ha => hN n (by omega) a ha cfg w),
            Term.apps_of_not_isApp (t := .ctor c) rfl has]
          rfl
  | _ =>
      refine ⟨3, fun n hn cfg w => ?_⟩
      obtain ⟨n, rfl⟩ := Nat.exists_eq_add_of_le' hn
      rw [norm, run_bind_ok (whnf_inert (by constructor) cfg (by omega) w)]
      cases cfg.flags.hnf <;> rfl

end Reduce

end TacticEngine
