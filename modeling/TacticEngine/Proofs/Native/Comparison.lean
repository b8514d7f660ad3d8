/-
# TacticEngine.Proofs.Native.Comparison -- a native function that compares an argument with itself.

A host has a pure function of two terms that says whether they are equal.  Given one argument twice, it
always finds in compiled evaluation that the two are equal.  In reduction it compares what normalizing the
argument twice gives; so the two are equal where the world has no say in that, but they are different if a
native value is made each time.
-/
import TacticEngine.Proofs.Native.Runs
import TacticEngine.Proofs.Native.States
import TacticEngine.Proofs.Reduction.Invariant
import TacticEngine.Proofs.Sharing.Comparison

namespace TacticEngine.Native

open Codec (totalStep)

variable {κ : Type}

/-! ## Normal forms by either evaluation -/

/-- The normal form of a term, given how deep steps may nest and how long a run may get. -/
def normalForm (host : Host κ) (backend : Backend) (steps : StepTable (Body κ)) (env : Env κ)
    (t : Term κ) (l n : Nat) : Act κ (Term κ) :=
  match backend with
  | .reduce => Reduce.norm (reduceSetting (interp host l) steps env) n t
  | .compiled => withHeap (Machine.normal (machineSetting host (interp host l) steps env) n t)

variable {host : Host κ} {steps : StepTable (Body κ)} {env : Env κ} {t : Term κ} {w : World κ}

theorem lasts_normalForm (backend : Backend) (l n : Nat) :
    Lasts (normalForm host backend steps env t l n) (normalForm host backend steps env t) := by
  have hS := @machineSetting_like_self _ host l steps env (lasts_interp host l)
  have ht := Term.alike_equal 0 t
  have hlasts : (Tie.same _ _).Follows ((Likeness.equal _ _).Alike 0)
      (normalForm host backend steps env t l n) (normalForm host backend steps env t) := by
    cases backend with
    | reduce => exact (Reduce.alikeAt fair_same keepsArity_equal (reduceSetting_like hS) n).norm ht
    | compiled =>
        have h := Machine.alikeAt fair_same keepsArity_equal hS n
        have hcode := Machine.compile_alike hS.lookup hS.plain_of_lookup ht
        have hnormal : (Machine.withHeaps _ _ _).Follows ((Likeness.equal _ _).Alike 0)
            (Machine.normal (machineSetting host (interp host l) steps env) n t)
            fun l' n => Machine.normal ((machineSetting host (interp host l) steps env).withInterp
              (interp host l')) n t :=
          .bind (.bind (Machine.reserve_follows hcode) fun c c' hc => h.run hc .nil)
            fun v v' hv => h.readback hv.1
        exact withHeap_follows hnormal
  exact hlasts.imp fun _ _ h => h.eq Likeness.equal_strict

/-- What comes out with enough fuel of either kind is what is ended with. -/
theorem ends_normalForm_iff {backend : Backend} {u : Term κ} {w' : World κ} :
    Ends (fun n => normalForm host backend steps env t n n) w (.ok u w') ↔
      ∃ l n, normalForm host backend steps env t l n w = .ok u w' := by
  constructor
  · rintro ⟨-, n, hn⟩
    exact ⟨n, n, hn⟩
  · rintro ⟨l, n, hn⟩
    rcases lasts_iff.mp (lasts_normalForm backend l n) w with ⟨_, hr⟩ | ⟨N, hN⟩
    · rw [hn] at hr
      cases hr
    · exact .of_ok ((hN N (Nat.le_refl N) N (Nat.le_refl N)).trans hn)

/-! ## Comparing an argument with itself -/

/-- The step of a function that compares two terms compares them, if it may be nested at all. -/
theorem compares_totalStep {l : κ} (hsame : ∀ a b, host.total l [.term, .term] .bool (a, b, ()) = a.same b)
    (id : Nat) (name : String) (n : Nat) :
    Compares (interp host (n + 1)) env (totalStep id name [.term, .term] .bool l) where
  arity := rfl
  interp a b w := ⟨_, by rw [← hsame]; rfl⟩

section

variable {id : Nat} {name : String} {l : κ} {h : Term κ}
  (hsame : ∀ a b, host.total l [.term, .term] .bool (a, b, ()) = a.same b)
  (hstep : Reduce.stepOf (reduceSetting (interp host 0) steps env) h =
    some (totalStep id name [.term, .term] .bool l))

include hsame hstep

theorem compiled_twice (hdirect : ∀ l, host.direct l = none) {u : Term κ} {w₁ : World κ}
    (hu : Ends (fun n => normalForm host .compiled steps env t n n) w (.ok u w₁)) :
    ∃ w', Ends (fun n => normalForm host .compiled steps env (.twice h t) n n) w
      (.ok (.lit (.bool true)) w') := by
  have hcfg (n : Nat) : (machineSetting host (interp host n) steps env).Derived := by
    intro body
    cases body with
    | rule label =>
        show (host.direct label).map _ = none
        rw [hdirect, Option.map_none]
    | _ => rfl
  obtain ⟨-, n, hn⟩ := hu
  replace hn := (withHeap_run _ w).symm.trans hn
  cases hrun : Machine.normal (machineSetting host (interp host n) steps env) n t { world := w } with
  | error e m =>
      rw [hrun] at hn
      cases hn
  | ok u m =>
      cases n with
      | zero => cases hrun
      | succ n =>
          obtain ⟨N, m', hN⟩ :=
            Machine.normal_twice (hcfg (n + 1)) (compares_totalStep hsame id name n) hstep hrun
          refine ⟨m'.world, ends_normalForm_iff.mpr ⟨n + 1, N, ?_⟩⟩
          exact (withHeap_run _ w).trans (congrArg offHeap (hN N (Nat.le_refl N)))

theorem reduce_twice {a b : Term κ} {w₁ w₂ : World κ}
    (ha : Ends (fun n => normalForm host .reduce steps env t n n) w (.ok a w₁))
    (hb : Ends (fun n => normalForm host .reduce steps env t n n) w₁ (.ok b w₂)) :
    ∃ w', Ends (fun n => normalForm host .reduce steps env (.twice h t) n n) w
      (.ok (.lit (.bool (a.same b))) w') := by
  obtain ⟨N, hN⟩ := ha.eventually fun n => (lasts_normalForm .reduce n n).diagonal
  obtain ⟨M, hM⟩ := hb.eventually fun n => (lasts_normalForm .reduce n n).diagonal
  have hstep : Reduce.stepOf (reduceSetting (interp host (N + M + 1)) steps env) h =
      some (totalStep id name [.term, .term] .bool l) := hstep
  obtain ⟨w', hw'⟩ := Reduce.norm_twice rfl (compares_totalStep hsame id name (N + M)) hstep
    (hN (N + M + 1) (by omega)) (hM (N + M + 1) (by omega))
  exact ⟨w', ends_normalForm_iff.mpr ⟨N + M + 1, N + M + 1 + 5, hw'⟩⟩

end

/-- If the world has no say in what steps end with, normalizing a term again gives the same. -/
theorem reduce_again {p : Step κ → Prop} (ht : t.StepsAmong p)
    (hpure : ∀ l, (reduceSetting (interp host l) steps env).Pure p) {a : Term κ} {w₁ : World κ}
    (ha : Ends (fun n => normalForm host .reduce steps env t n n) w (.ok a w₁)) (w' : World κ) :
    ∃ w₂, Ends (fun n => normalForm host .reduce steps env t n n) w' (.ok a w₂) := by
  obtain ⟨-, n, hn⟩ := ha
  have hmay := Reduce.toNorm_of_ending (congrArg ending hn) nofun
  have hdoes := (hmay.stays (hpure n).stays (Term.alike_among_iff.mpr ⟨False.elim, ht⟩)).1
  obtain ⟨N, hN⟩ := hdoes.reaches (Reduce.sure_doesAct _)
  obtain ⟨w₂, hw₂⟩ := ending_eq_ok_iff.mp (hN N (Nat.le_refl N) w')
  exact ⟨w₂, ends_normalForm_iff.mpr ⟨n, N, hw₂⟩⟩

/-- A term that can be evaluated is found equal to itself in compiled evaluation.  In reduction, what
normalizing it gives is compared with what normalizing it once more gives; the two are equal if the world
has no say in what steps end with. -/
theorem self_comparison {host : Host κ} {steps : StepTable (Body κ)} {env : Env κ} {h t : Term κ}
    {id : Nat} {name : String} {l : κ} (hdirect : ∀ l, host.direct l = none)
    (hsame : ∀ a b, host.total l [.term, .term] .bool (a, b, ()) = a.same b)
    (hstep : Reduce.stepOf (reduceSetting (interp host 0) steps env) h =
      some (totalStep id name [.term, .term] .bool l)) (w : World κ) :
    (∀ u w₁, Ends (fun n => normalForm host .compiled steps env t n n) w (.ok u w₁) →
      ∃ w', Ends (fun n => normalForm host .compiled steps env (.twice h t) n n) w
        (.ok (.lit (.bool true)) w')) ∧
    (∀ a b w₁ w₂, Ends (fun n => normalForm host .reduce steps env t n n) w (.ok a w₁) →
      Ends (fun n => normalForm host .reduce steps env t n n) w₁ (.ok b w₂) →
        ∃ w', Ends (fun n => normalForm host .reduce steps env (.twice h t) n n) w
          (.ok (.lit (.bool (a.same b))) w')) ∧
    ∀ p : Step κ → Prop, (∀ l, (reduceSetting (interp host l) steps env).Pure p) → t.StepsAmong p →
      ∀ a w₁, Ends (fun n => normalForm host .reduce steps env t n n) w (.ok a w₁) →
        ∃ w', Ends (fun n => normalForm host .reduce steps env (.twice h t) n n) w
          (.ok (.lit (.bool true)) w') := by
  refine ⟨fun u w₁ hu => compiled_twice hsame hstep hdirect hu,
    fun a b w₁ w₂ ha hb => reduce_twice hsame hstep ha hb, fun p hpure ht a w₁ ha => ?_⟩
  obtain ⟨w₂, ha'⟩ := reduce_again ht hpure ha w₁
  obtain ⟨w', hw'⟩ := reduce_twice hsame hstep ha ha'
  rw [a.same_self] at hw'
  exact ⟨w', hw'⟩

/-! ## An environment that is written each time -/

/-- A host with two pure functions: one compares terms, the other gives back the environment it is given. -/
def comparing : Host Bool :=
  { Host.silent Bool with
    total := fun
      | true, [.term, .term], .bool, (a, b, ()) => a.same b
      | false, [.env], .env, (e, ()) => e
      | _, _, result, _ => result.blank }

/-- Their steps. -/
def comparingSteps : StepTable (Body Bool) :=
  [totalStep 0 "same" [.term, .term] .bool true, totalStep 1 "renew" [.env] .env false]

/-- The environment that they are run in. -/
def comparingEnv : Env Bool := { moduleName := "Comparing" }

/-- An environment as it is written anew. -/
def renewed : Term Bool := .app (.const "renew") [.blob ⟨.env, ⟨0, .env comparingEnv⟩⟩]

theorem self_comparison_renewed :
    (∃ w', Ends (fun n => normalForm comparing .compiled comparingSteps comparingEnv
      (.twice (.const "same") renewed) n n) { supply := 1 } (.ok (.lit (.bool true)) w')) ∧
    ∃ w', Ends (fun n => normalForm comparing .reduce comparingSteps comparingEnv
      (.twice (.const "same") renewed) n n) { supply := 1 } (.ok (.lit (.bool false)) w') := by
  have hdirect : ∀ l, comparing.direct l = none := fun _ => rfl
  have hsame : ∀ a b, comparing.total true [.term, .term] .bool (a, b, ()) = a.same b :=
    fun _ _ => rfl
  have hstep : Reduce.stepOf (reduceSetting (interp comparing 0) comparingSteps comparingEnv)
      (.const "same") = some (totalStep 0 "same" [.term, .term] .bool true) := rfl
  obtain ⟨hcompiled, hreduce, -⟩ :=
    self_comparison (t := renewed) hdirect hsame hstep { supply := 1 }
  refine ⟨hcompiled _ _ (.of_ok (n := 9) rfl), ?_⟩
  exact hreduce _ _ _ _ (.of_ok (n := 9) rfl) (.of_ok (n := 9) rfl)

/-- The two copies of the argument are written as two objects, and comparing these gives false. -/
theorem not_self_comparison_renewed :
    (∃ u w', Ends (fun n => normalForm comparing .reduce comparingSteps comparingEnv renewed n n)
      { supply := 1 } (.ok u w')) ∧
    ∃ w', Ends (fun n => normalForm comparing .reduce comparingSteps comparingEnv
      (.twice (.const "same") renewed) n n) { supply := 1 } (.ok (.lit (.bool false)) w') :=
  ⟨⟨_, _, .of_ok (n := 9) rfl⟩, _, .of_ok (n := 14) rfl⟩

end TacticEngine.Native
