/-
# TacticEngine.Proofs.Sharing.Subsequence -- sharing adds no firings.

If both evaluators end on a closed term, the steps that the machine has fired, with the arguments that
they got, are some of those that reduction has fired, in the same order.  So the machine fires no step
that reduction does not fire, and none more often.
-/
import TacticEngine.Proofs.Agreement.Functional
import TacticEngine.Proofs.Machine.Renaming
import TacticEngine.Proofs.Sharing.Tracing

namespace TacticEngine

variable {β σ : Type}

namespace Ground

open Machine (sources Silent)

variable {G : Ground β σ} {t : Term β σ}

/-- The heap before anything has been compiled. -/
def Stage.empty (G : Ground β σ) : G.Stage where
  terms := []
  heap := {}
  size := rfl
  good t ht := absurd ht List.not_mem_nil
  read {slot v} hr := by
    rw [Machine.Heap.read_empty] at hr
    cases hr

section

variable (hG : G.Lawful) (hq : G.Quiet)

include hG hq

/-- Evaluating a closed term and reading the value back fires what normalizing the term does. -/
theorem tells_normal {κ : G.Stage} {l n : Nat} (ht : G.Good t) :
    Tells κ (Machine.normal (G.machine l) n t) (fun _ M u => G.Goes (pure u) (G.norm t) M)
      fun h M => G.Goes (throw h) (G.norm t) M := by
  have heval : G.Traces κ (Machine.eval (G.machine l) n t) t := by
    refine (Tells.of_ensures hG hq (Silent.reserve _)
      (Ensures.reserve (compile_compiled hG κ.terms t))).bind fun κ₁ M code _ hcode => ?_
    obtain ⟨rfl, hcode⟩ := hcode
    have hrun : G.Traces κ₁ (Machine.run (G.machine l) n code []) (t.instantiate 0 (sources [])) :=
      (tracesAt hG hq l n).run hcode ht formed_nil
    rwa [sources, Term.instantiate_nil] at hrun
  refine (heval.imp (fun _ _ _ _ h => h) fun _ _ hfail => Goes.norm_throw hfail.goes).bind
    fun κ₁ M v _ hv => ?_
  cases n with
  | zero => exact .exhausted
  | succ n =>
      rw [Machine.readback_succ]
      cases n with
      | zero => exact .exhausted
      | succ n =>
          rw [Machine.force_of_forced hv.1.2, pure_bind]
          simp only [hv.1.2, Bool.false_eq_true, if_false]
          have hread := (tracesAt hG hq l (n + 1)).readback_forced hG hq hv.1 (hv.2.goes hv.1)
          exact hread.imp (fun _ _ _ _ hx => hx.2.1) fun _ _ h => h

/-- What the machine has fired if both evaluators end is a part of what reduction has fired. -/
theorem exists_firings (ht : G.Good t) {l k n n' : Nat} {w w' : World β σ} (hw : G.world w)
    (hw' : G.world w') (hreduce : Ended (Reduce.norm (G.reduction l) n t w))
    (hmachine : Ended (Machine.normal (G.machine k) n' t { world := w' })) :
    ∃ A B, (final (Reduce.norm (G.reduction l) n t w)).firings = w.firings ++ A ∧
      (final (Machine.normal (G.machine k) n' t { world := w' })).world.firings = w'.firings ++ B ∧
      B.Sublist A := by
  have hlasts := hG.lasts_norm l n t
  have hsub {m : Ideal β (Term β σ)} {M : List (Firing β σ)} (h : G.Goes m (G.norm t) M) :
      (w.firings ++ M).Sublist (final (Reduce.norm (G.reduction l) n t w)).firings := by
    rcases lasts_iff.mp hlasts w with ⟨w₁, hr⟩ | hy
    · rw [hr] at hreduce
      exact hreduce.elim
    · exact h.fires w.firings w _ hw (.refl _) hy hreduce
  obtain ⟨A, hA⟩ := prefix_norm hG hq ht hw hreduce
  rw [← hA] at hsub ⊢
  rcases tells_normal hG hq (κ := Stage.empty G) (l := k) (n := n') ht w' hw' with ⟨M, hover⟩ | hrun
  · exact absurd hreduce (hover.gives.not_overflow hlasts hw)
  · change Told _ _ _ _ (Machine.normal (G.machine k) n' t { world := w' }) at hrun
    generalize Machine.normal (G.machine k) n' t { world := w' } = r at hmachine hrun
    cases r with
    | ok u s =>
        obtain ⟨κ, B, -, -, -, hB, hgoes⟩ := hrun
        exact ⟨A, B, rfl, hB, (List.append_sublist_append_left _).mp (hsub hgoes)⟩
    | error e s =>
        cases e with
        | issue e =>
            obtain ⟨B, hB, hgoes⟩ := hrun
            exact ⟨A, B, rfl, hB, (List.append_sublist_append_left _).mp (hsub hgoes)⟩
        | _ => exact hmachine.elim

end

end Ground

section

variable {allowed : Step σ → Prop} {cfg : Machine.Setting β σ}
  {f : σ → Env β σ → List (Term β σ) → Except (Issue β) (Option (Term β σ))}

theorem Functional.quiet (_ : Functional allowed cfg f)
    (hpure : ∀ s ts w, allowed s → (final (cfg.interp s.body cfg.env ts w)).firings = w.firings) :
    (functionalGround allowed cfg).Quiet where
  strict := admissibleLikeness_strict
  interp _ _ ts w hs := hpure _ ts w hs.2

end

/-- If the steps are functions and fire no steps themselves, and both evaluators end on a closed term, then
what the machine has fired is a part of what reduction has fired, in the same order.  So the machine fires
no step that reduction never fires; and it evaluates each suspended argument at most once. -/
theorem sharing_adds_no_firings {allowed : Step σ → Prop} {cfg : Machine.Setting β σ}
    {f : σ → Env β σ → List (Term β σ) → Except (Issue β) (Option (Term β σ))}
    (h : Functional allowed cfg f) (hderived : cfg.Derived)
    (hpure : ∀ s ts w, allowed s → (final (cfg.interp s.body cfg.env ts w)).firings = w.firings)
    {t : Term β σ} (ht : Admissible allowed t) {n n' : Nat} {w w' : World β σ}
    (hreduce : Ended (reductions cfg t n w))
    (hmachine : Ended (Machine.normal cfg n' t { world := w' })) :
    (∃ A B, (final (reductions cfg t n w)).firings = w.firings ++ A ∧
      (final (Machine.normal cfg n' t { world := w' })).world.firings = w'.firings ++ B ∧
      B.Sublist A ∧ ∀ s, (∀ ts, (s, ts) ∉ A) → ∀ ts, (s, ts) ∉ B) ∧
    Machine.EvaluatesOnce cfg := by
  obtain ⟨A, B, hA, hB, hsub⟩ := Ground.exists_firings (G := functionalGround allowed cfg)
    (l := 0) (k := 0) h.lawful (h.quiet hpure) (admissible_iff.mp ht) trivial trivial hreduce hmachine
  refine ⟨⟨A, B, hA, hB, hsub, fun s hs ts hmem => hs ts (hsub.subset hmem)⟩, ?_⟩
  exact Machine.evaluatesOnce hderived.slotless

/-- Reduction adds three times to get twice a sum, since it starts over with the argument; the machine
adds twice. -/
theorem sharing_adds_no_firings_twiceSum :
    ((final (reductions adding twiceSum 12 {})).firings.length = 3 ∧
      (final (Machine.normal adding 14 twiceSum { world := {} })).world.firings.length = 2) ∧
    (∃ A B, (final (reductions adding twiceSum 12 {})).firings = [] ++ A ∧
      (final (Machine.normal adding 14 twiceSum { world := {} })).world.firings = [] ++ B ∧
      B.Sublist A ∧ ∀ s, (∀ ts, (s, ts) ∉ A) → ∀ ts, (s, ts) ∉ B) ∧
    Machine.EvaluatesOnce adding := by
  refine ⟨⟨rfl, rfl⟩, ?_⟩
  have ht : Admissible (fun _ => True) twiceSum :=
    ⟨by simp [twiceSum, Term.Closed, Term.ClosedBelow, Term.ClosedBelowArgs],
      by simp [twiceSum, Term.Canonical, Term.CanonicalArgs, Term.isApp], fun _ _ => trivial⟩
  have hreduce : Ended (reductions adding twiceSum 12 {}) := trivial
  have hmachine : Ended (Machine.normal adding 14 twiceSum { world := {} }) := trivial
  exact sharing_adds_no_firings functional_adding (fun _ => rfl) (fun _ _ _ _ => rfl) ht hreduce hmachine

end TacticEngine
