/-
# TacticEngine.Proofs.Run.Program -- carrying programs out.

Running a program composed of others runs these one after the other, and an attempt turns an issue into
a value without undoing what was done.  A program run with reductions that depend on fuel goes like the
same program run with more fuel, if the reductions do.
-/
import TacticEngine.Proofs.Run.Spans
import TacticEngine.Run.Program

namespace TacticEngine.Program

variable {β σ α γ : Type} (reduce : Reduction β σ → Act β σ (Term β σ))

/-! ## Composition -/

theorem run_bind (p : Program β σ α) (f : α → Program β σ γ) :
    (p.bind f).run reduce = p.run reduce >>= fun a => (f a).run reduce := by
  induction p with
  | pure a => rfl
  | fail e => rfl
  | overflow => rfl
  | ask r k ih =>
      show (answer reduce r >>= fun a => ((k a).bind f).run reduce) = _
      simp only [ih]
      exact (LawfulMonad.bind_assoc (answer reduce r) _ _).symm

/-- No request is answered with an issue: that of a reduction is an answer like any other. -/
theorem answer_ne_issue {r : Request β σ} {w w' : World β σ} {e : Issue β} :
    answer reduce r w ≠ .error (.issue e) w' := by
  intro h
  cases r with
  | reduce r =>
      simp only [answer] at h
      split at h <;> cases h
  | debug text? =>
      rw [answer, Act.debug_run] at h
      split at h
      · split at h <;> cases h
      · cases h
  | leaveSpan key =>
      rw [answer, Act.leaveSpan_run] at h
      split at h <;> cases h
  | _ => cases h

/-- An issue that a program ends with, as a value. -/
def caught : EStateM.Result (Halt β) (World β σ) α →
    EStateM.Result (Halt β) (World β σ) (Except (Issue β) α)
  | .ok a w => .ok (.ok a) w
  | .error (.issue e) w => .ok (.error e) w
  | .error .overflow w => .error .overflow w
  | .error .exhausted w => .error .exhausted w

theorem run_attempt (p : Program β σ α) (w : World β σ) :
    p.attempt.run reduce w = caught (p.run reduce w) := by
  induction p generalizing w with
  | pure a => rfl
  | fail e => rfl
  | overflow => rfl
  | ask r k ih =>
      show (answer reduce r >>= fun a => (k a).attempt.run reduce) w =
        caught ((answer reduce r >>= fun a => (k a).run reduce) w)
      cases h : answer reduce r w with
      | ok a w₁ => rw [run_bind_ok h, run_bind_ok h, ih]
      | error e w₁ =>
          rw [run_bind_error h, run_bind_error h]
          cases e with
          | issue e => exact absurd h (answer_ne_issue reduce)
          | overflow => rfl
          | exhausted => rfl

/-- An issue that comes up in a reduction is one that the program ends with. -/
theorem run_reduce (r : Reduction β σ) : (Program.reduce r).run reduce = reduce r := by
  funext w
  show (answer reduce (.reduce r) >>= fun x => (ofExcept x).run reduce) w = reduce r w
  cases h : reduce r w with
  | ok t w' =>
      have hanswer : answer reduce (.reduce r) w = .ok (.ok t) w' := by simp only [answer, h]
      rw [run_bind_ok hanswer]
      rfl
  | error e w' =>
      cases e with
      | issue e =>
          have hanswer : answer reduce (.reduce r) w = .ok (.error e) w' := by simp only [answer, h]
          rw [run_bind_ok hanswer]
          rfl
      | overflow => exact run_bind_error (by simp only [answer, h])
      | exhausted => exact run_bind_error (by simp only [answer, h])

/-- Inside a span, a program runs as it would outside, but for the span being entered and left. -/
theorem run_span (m : Option String) (name : String) (p : Program β σ α) (w : World β σ) :
    (p.span m name).run reduce w =
      match caught (p.run reduce w.enteredSpan) with
      | .ok r w' => (Act.leaveSpan (spanKey m name) >>= fun _ => (ofExcept r).run reduce) w'
      | .error e w' => .error e w' := by
  have hrun : (p.span m name).run reduce w = (p.attempt.run reduce >>= fun r =>
      (Program.ask (.leaveSpan (spanKey m name)) fun _ => ofExcept r).run reduce)
        w.enteredSpan := by
    rw [← run_bind]
    rfl
  rw [hrun]
  cases h : caught (p.run reduce w.enteredSpan) with
  | ok r w' =>
      rw [run_bind_ok ((run_attempt reduce p _).trans h)]
      rfl
  | error e w' => rw [run_bind_error ((run_attempt reduce p _).trans h)]

/-! ## More fuel for reductions -/

/-- If reductions last, so does every program that asks for them. -/
theorem lasts_run {reduce : Reduction β σ → Act β σ (Term β σ)}
    {reduce' : Nat → Reduction β σ → Act β σ (Term β σ)}
    (h : ∀ r, Lasts (reduce r) fun l _ => reduce' l r) (p : Program β σ α) :
    Lasts (p.run reduce) fun l _ => p.run (reduce' l) := by
  induction p with
  | pure a => exact Lasts.const _
  | fail e => exact Lasts.const _
  | overflow => exact Lasts.const _
  | ask r k ih =>
      refine Tie.Follows.bind (V := Eq) ?_ fun a a' ha => ha ▸ ih a
      cases r with
      | reduce r =>
          refine lasts_iff.mpr fun w => ?_
          rcases lasts_iff.mp (h r) w with ⟨w', hr⟩ | ⟨N, hN⟩
          · refine .inl ⟨w', ?_⟩
            simp only [answer, hr]
          · refine .inr ⟨N, fun l hl n hn => ?_⟩
            simp only [answer, hN l hl n hn]
      | _ => exact Lasts.const _

end TacticEngine.Program
