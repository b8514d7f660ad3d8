/-
# TacticEngine.Proofs.Agreement.Evaluation -- evaluating a term and reading its value back.

On a lawful ground, compiling a closed term, running the code and reading the value back gives what
normalizing the term gives, and ends if that ends.
-/
import TacticEngine.Proofs.Agreement.Completeness

namespace TacticEngine

variable {β σ α γ : Type}

/-- Evaluate a closed term and read its value back. -/
def Machine.normal (cfg : Machine.Setting β σ) (fuel : Nat) (t : Term β σ) :
    Machine.Eval β σ (Term β σ) := do
  let v ← Machine.eval cfg fuel t
  Machine.readback cfg fuel v

namespace Ground

open Machine (Value Eval compile sources)

variable {G : Ground β σ} (hG : G.Lawful) {Γ : List (Term β σ)} {l n : Nat} {t t' : Term β σ}
  {v : Value β σ}

/-- Forcing a value that is not suspended gives the value. -/
theorem Ensures.force_forced (hv : v.isThunk = false) {E : Halt β → Prop} :
    G.Ensures Γ (Machine.force (G.machine l) n v) (fun _ u => u = v) E := by
  cases n with
  | zero => exact .exhausted
  | succ n =>
      rw [Machine.force_of_forced hv]
      exact .pure rfl

include hG

/-! ## What the machine gives, reduction gives -/

theorem ensures_eval (ht : G.Good t) : G.Evaluates Γ (Machine.eval (G.machine l) n t) t := by
  refine (Ensures.reserve (compile_compiled hG Γ t)).bind fun Γ₁ code _ hcode => ?_
  have hrun : G.Evaluates Γ₁ (Machine.run (G.machine l) n code []) (t.instantiate 0 (sources [])) :=
    (soundAt hG l n).run hcode ht formed_nil
  rwa [sources, Term.instantiate_nil] at hrun

/-- Reading back a value that a term is reduced to normalizes the term. -/
theorem ensures_readback (hv : G.Forced Γ v) (hcomes : G.Comes (pure v.source) (G.whnf t)) :
    G.Normalizes Γ (Machine.readback (G.machine l) n v) t := by
  cases n with
  | zero => exact .exhausted
  | succ n =>
      rw [Machine.readback_succ]
      refine (Ensures.force_forced hv.2).bind fun Γ₁ u hΓ hu => ?_
      subst hu
      rw [hv.2]
      exact (soundAt hG l n).readback_forced hG (hv.mono hΓ) hcomes

theorem ensures_normal (ht : G.Good t) : G.Normalizes [] (Machine.normal (G.machine l) n t) t :=
  ((ensures_eval hG ht).imp (fun _ _ _ h => h) fun _ hfail => Comes.norm_throw hfail.comes).bind
    fun _ _ _ hv => ensures_readback hG hv.1 (hv.2.comes hv.1)

/-! ## Where reduction ends, the machine ends -/

theorem halts_eval (ht : G.Good t) (hend : G.EndsIn n t []) :
    G.Halts Γ fun l k => Machine.eval (G.machine l) k t := by
  refine (halts_compile t).bind (E := fun _ => False)
    (fun _ _ => Ensures.reserve (compile_compiled hG Γ t)) id fun Γ₁ code _ hcode => ?_
  refine (progressAt hG n).run hcode ht formed_nil ?_
  rwa [sources, Term.instantiate_nil]

/-- Reading back a value that a term is reduced to ends if normalizing the term does. -/
theorem halts_readback (hv : G.Forced Γ v) (hcomes : G.Comes (pure v.source) (G.whnf t))
    (hend : G.NormEndsIn n t) : G.Halts Γ fun l k => Machine.readback (G.machine l) k v := by
  obtain ⟨t', l, w, ht, hw, hend⟩ := hend
  cases n with
  | zero => exact hend.elim
  | succ n =>
      rw [norm_succ] at hend
      refine .succ ?_
      simp only [Machine.readback_succ]
      refine (halts_of_forced hv.2).bind (fun _ _ => Ensures.force_forced (E := fun _ => False) hv.2)
        id fun Γ₁ u hΓ hu => ?_
      subst hu
      simp only [hv.2, Bool.false_eq_true, if_false]
      have hcomes' := hcomes.congr_whnf hG ht
      rcases Ended.bind_iff.mp hend with ⟨u', w', hr, hrest⟩ | ⟨e, w', hr⟩
      · obtain ⟨hlike, hw'⟩ := hcomes'.of_ok (hG.lasts_whnf l n t') hw hr
        exact (progressAt hG n).readback_forced hG (hv.mono hΓ) hlike hw' hrest
      · exact absurd hr (hcomes'.ne_issue (hG.lasts_whnf l n t') hw)

theorem halts_normal (ht : G.Good t) (hend : G.NormEndsIn n t) :
    G.Halts [] fun l k => Machine.normal (G.machine l) k t := by
  have hwhnf : ∃ m, G.EndsIn m t [] := by
    obtain ⟨t', l, w, htt, hw, hend⟩ := hend
    cases n with
    | zero => exact hend.elim
    | succ n =>
        rw [norm_succ] at hend
        exact ⟨n, endsIn_nil_iff.mpr ⟨t', l, w, htt, hw, hend.of_bind⟩⟩
  obtain ⟨m, hm⟩ := hwhnf
  exact (halts_eval hG ht hm).bind (fun _ _ => ensures_eval hG ht) (hm.not_fails hG)
    fun _ _ _ hv => halts_readback hG hv.1 (hv.2.comes hv.1) hend

end Ground

end TacticEngine
