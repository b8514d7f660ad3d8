/-
# TacticEngine.Proofs.Agreement.Application -- an application, evaluated whole or in parts.

An engine has the application of a metaprogram reduced as one term; or it has the metaprogram evaluated by
itself, applies the value to the suspended arguments and reads the result back.  On a lawful ground the one
ends if the other does, and then with something like it, unless a machine word is too small for one of them.
-/
import TacticEngine.Proofs.Agreement.Functional
import TacticEngine.Proofs.Native.Persistence

namespace TacticEngine.Native

open Machine (Value Eval sources)

variable {κ : Type} {G : Ground (Content κ) (Body κ)} (hG : G.Lawful) {Γ : List (Term κ)} {l n : Nat}
  {t : Term κ} {as : List (Term κ)}

/-! ## The parts -/

/-- Suspending terms does not evaluate them. -/
theorem ensures_suspended {E : Halt (Content κ) → Prop} : ∀ {Γ : List (Term κ)} {as : List (Term κ)},
    G.GoodArgs as → G.Ensures Γ (as.mapM Machine.ofTerm)
      (fun Γ' vs => (∀ v ∈ vs, G.Formed Γ' v) ∧ sources vs = as) E
  | _, [], _ => by
      rw [List.mapM_nil]
      exact .pure ⟨Ground.formed_nil, rfl⟩
  | _, a :: as, .cons ha has => by
      rw [List.mapM_cons]
      refine (Ground.Ensures.ofTerm ha).bind fun Γ₁ v _ hv => ?_
      refine (ensures_suspended has).bind fun Γ₂ vs hΓ hvs => .pure ⟨?_, ?_⟩
      · intro u hu
        rcases List.mem_cons.mp hu with rfl | hu
        · exact hv.1.mono hΓ
        · exact hvs.1 u hu
      · rw [sources, hv.2, hvs.2]

include hG

/-- Applying the value of a metaprogram to suspended arguments evaluates the application. -/
theorem ensures_applied (ht : G.Good t) (has : G.GoodArgs as) :
    G.Evaluates Γ (do
      let f ← Machine.eval (G.machine l) n t
      let vs ← as.mapM Machine.ofTerm
      Machine.apply (G.machine l) n f vs) (t.apps as) := by
  refine ((Ground.ensures_eval hG ht).imp (fun _ _ _ h => h) fun _ hfail => hfail.apps has).bind
    fun Γ₁ f hΓ hf => ?_
  refine (ensures_suspended has).bind fun Γ₂ vs hΓ' hvs => ?_
  obtain ⟨hvs, rfl⟩ := hvs
  exact ((Ground.soundAt hG l n).apply (hf.1.mono hΓ') hvs).imp
    (fun _ u _ hu => ⟨hu.1, hf.2.into has hu.2⟩) fun _ hfail => hf.2.failsInto has hfail

/-- What the parts give, normalizing the application gives. -/
theorem ensures_applyCompiled (ht : G.Good t) (has : G.GoodArgs as) :
    G.Normalizes Γ (applyCompiled (G.machine l) n t as) (t.apps as) := by
  have happlied := ensures_applied (Γ := Γ) (l := l) (n := n) hG ht has
  have heq : applyCompiled (G.machine l) n t as = (do
      let f ← Machine.eval (G.machine l) n t
      let vs ← as.mapM Machine.ofTerm
      Machine.apply (G.machine l) n f vs) >>= Machine.readback (G.machine l) n := by
    simp only [applyCompiled, bind_assoc]
  rw [heq]
  exact (happlied.imp (fun _ _ _ h => h) fun _ hfail => Ground.Comes.norm_throw hfail.comes).bind
    fun _ _ _ hv => Ground.ensures_readback hG hv.1 (hv.2.comes hv.1)

/-- Where normalizing the application ends, the parts end. -/
theorem halts_applyCompiled (ht : G.Good t) (has : G.GoodArgs as) (hne : as ≠ [])
    (hend : G.NormEndsIn n (t.apps as)) :
    G.Halts Γ fun l k => applyCompiled (G.machine l) k t as := by
  have hwhnf : ∃ m, G.EndsIn m (t.apps as) [] := by
    obtain ⟨t', l, w, htt, hw, hend⟩ := hend
    cases n with
    | zero => exact hend.elim
    | succ n =>
        rw [Ground.norm_succ] at hend
        exact ⟨n, Ground.endsIn_nil_iff.mpr ⟨t', l, w, htt, hw, hend.of_bind⟩⟩
  obtain ⟨m, hm⟩ := hwhnf
  have happ := hm.of_apps hG ht
  refine (Ground.halts_eval hG ht happ.head).bind (fun _ _ => Ground.ensures_eval hG ht)
    (happ.head.not_fails hG) fun Γ₁ f _ hf => ?_
  refine (Ground.Halts.of_fuelless (.mapM .ofTerm as)).bind (E := fun _ => False)
    (fun _ _ => ensures_suspended has) id fun Γ₂ vs hΓ hvs => ?_
  obtain ⟨hvs, rfl⟩ := hvs
  have hne : vs ≠ [] := fun hnil => hne (Machine.sources_eq_nil_iff.mpr hnil)
  have hf₂ := hf.1.mono hΓ
  have hhalts : G.Halts Γ₂ fun l k => Machine.apply (G.machine l) k f vs := by
    refine .shift 2 1 (F := fun l k => Machine.applyForced (G.machine l) k f vs)
      (fun l k => by rw [Machine.apply, Machine.force_of_forced hf₂.2, pure_bind]) ?_
    exact Ground.halts_applyForced hG (fun k _ => Ground.progressAt hG k) happ hne hf₂ hf.2 hvs
  have hsound (l k : Nat) :
      G.Evaluates Γ₂ (Machine.apply (G.machine l) k f vs) (t.apps (sources vs)) :=
    ((Ground.soundAt hG l k).apply hf₂ hvs).imp
      (fun _ u _ hu => ⟨hu.1, hf.2.into has hu.2⟩) fun _ hfail => hf.2.failsInto has hfail
  exact hhalts.bind hsound (hm.not_fails hG) fun Γ₃ u _ hu =>
    Ground.halts_readback hG hu.1 (hu.2.comes hu.1) hend

/-! ## The whole -/

omit hG

/-- Evaluations in admissible worlds; nothing is claimed if a machine word is too small for one of them. -/
def loosely (G : Ground (Content κ) (Body κ)) :
    Tie (Halt (Content κ)) (World κ) (Halt (Content κ)) (World κ) where
  state w w' := G.world w ∧ G.world w'
  halt := SameHalt G.issue
  mute e _ := e = .exhausted ∨ e = .overflow
  escape e _ := e = .overflow

include hG

omit hG in
/-- What the parts have given is what normalizing the application gives. -/
theorem exists_comes_of_ends
    {r : EStateM.Result (Halt (Content κ)) (Machine.Memory (Content κ) (Body κ)) (Term κ)}
    (hends : G.Ends [] (fun _ u => G.Good u ∧ G.Comes (pure u) (G.norm t))
      (fun h => G.Comes (throw h) (G.norm t)) r) (hended : Ended (offHeap r)) :
    ∃ m, G.Comes m (G.norm t) ∧ ∀ x, G.ideal.Matches (G.like.Alike 0) (m ()) x →
      (loosely G).Matches (G.like.Alike 0) (offHeap r) x := by
  cases r with
  | ok u s =>
      obtain ⟨_, -, -, hworld, -, hcomes⟩ := hends
      refine ⟨_, hcomes, fun x hx => ?_⟩
      cases hx with
      | ok hlike hw => exact .ok hlike ⟨hworld, hw⟩
      | escape he => exact .escape he
  | error e s =>
      cases e with
      | issue e =>
          obtain ⟨hcomes, hworld, -⟩ := hends
          refine ⟨_, hcomes, fun x hx => ?_⟩
          cases hx with
          | error he hw => exact .error he ⟨hworld, hw⟩
          | escape he => exact .escape he
      | _ => exact hended.elim

omit hG in
/-- Runs of which nothing is claimed are those that have not ended. -/
theorem mute_of_not_ended {r : EStateM.Result (Halt (Content κ)) (World κ) (Term κ)} (h : ¬ Ended r) :
    ∃ e w, r = .error e w ∧ (loosely G).mute e w := by
  cases r with
  | ok u w => exact absurd trivial h
  | error e w =>
      cases e with
      | issue e => exact absurd trivial h
      | exhausted => exact ⟨_, _, rfl, .inl rfl⟩
      | overflow => exact ⟨_, _, rfl, .inr rfl⟩

/-- What the machine gives, reduction gives. -/
theorem machine_followed (ht : G.Good t) (has : G.GoodArgs as) :
    (loosely G).Follows (G.like.Alike 0) (withHeap (applyCompiled (G.machine l) n t as))
      (G.norm (t.apps as)) := by
  rintro w w' ⟨hw, hw'⟩
  rw [withHeap_run]
  rcases ensures_applyCompiled (l := l) (n := n) hG ht has ⟨{}, w⟩ (filled_empty G) hw with hover | hends
  · obtain ⟨r', hy, hm⟩ := Ground.gives_iff.mp hover w' hw'
    refine .inr ⟨r', hy, ?_⟩
    cases hm with
    | error he _ =>
        cases he with
        | overflow => exact .escape rfl
    | escape he => exact .escape he
  · by_cases hended : Ended (offHeap (applyCompiled (G.machine l) n t as ⟨{}, w⟩))
    · obtain ⟨m, hcomes, hmatches⟩ := exists_comes_of_ends hends hended
      obtain ⟨r', hy, hm⟩ := Ground.gives_iff.mp hcomes w' hw'
      exact .inr ⟨r', hy, hmatches r' hm⟩
    · exact .inl (mute_of_not_ended hended)

/-- What reduction gives, the machine gives. -/
theorem reduction_followed (hsymm : ∀ e e', G.issue e e' → G.issue e' e) (ht : G.Good t)
    (has : G.GoodArgs as) (hne : as ≠ []) :
    (loosely G).Follows (G.like.Alike 0) (G.norm (t.apps as) l n)
      fun l n => withHeap (applyCompiled (G.machine l) n t as) := by
  rintro w w' ⟨hw, hw'⟩
  by_cases hended : Ended (G.norm (t.apps as) l n w)
  · have hlasts := hG.lasts_norm l n (t.apps as)
    have hend : G.NormEndsIn n (t.apps as) := ⟨_, l, w, ht.apps has, hw, hended⟩
    obtain ⟨r, ⟨N, hN⟩, hr⟩ := halts_applyCompiled hG ht has hne hend ⟨{}, w'⟩ (filled_empty G) hw'
    have hrun (l : Nat) (hl : l ≥ N) (n : Nat) (hn : n ≥ N) :
        applyCompiled (G.machine l) n t as ⟨{}, w'⟩ = r := hN l hl n hn
    refine .inr ⟨offHeap r, ⟨N, fun l hl n hn => ?_⟩, ?_⟩
    · exact (withHeap_run _ _).trans (congrArg offHeap (hrun l hl n hn))
    rcases ensures_applyCompiled (l := N) (n := N) hG ht has ⟨{}, w'⟩ (filled_empty G) hw' with
      hover | hends
    · exact absurd hover (hend.not_overflow hG)
    rw [hrun N (Nat.le_refl N) N (Nat.le_refl N)] at hends
    by_cases hended' : Ended (offHeap r)
    · obtain ⟨m, hcomes, hmatches⟩ := exists_comes_of_ends hends hended'
      have hm : (loosely G).Matches (G.like.Alike 0) (offHeap r) (G.norm (t.apps as) l n w) :=
        hmatches _ (hcomes.matches hlasts hw hended)
      generalize G.norm (t.apps as) l n w = x at hm hended
      generalize offHeap r = y at hm
      cases hm with
      | ok hlike hw₁ => exact .ok (hG.like_symm hlike) hw₁.symm
      | error he hw₁ =>
          cases he with
          | issue he => exact .error (.issue (hsymm _ _ he)) hw₁.symm
          | overflow => exact hended.elim
      | escape he =>
          subst he
          exact hended.elim
    · cases r with
      | ok u s => exact absurd trivial hended'
      | error e s =>
          cases e with
          | issue e => exact absurd trivial hended'
          | exhausted => exact absurd rfl (hr s)
          | overflow => exact .escape rfl
  · exact .inl (mute_of_not_ended hended)

/-- Where reduction has a result, the machine has one like it, unless a machine word is too small for
it. -/
theorem exists_applyCompiled (hsymm : ∀ e e', G.issue e e' → G.issue e' e) (ht : G.Good t)
    (has : G.GoodArgs as) (hne : as ≠ []) {u : Term κ} {w w₁ : World κ} (hw : G.world w)
    (h : G.norm (t.apps as) l n w = .ok u w₁) :
    ∃ l n w', (∃ u', G.like.Alike 0 u u' ∧
        withHeap (applyCompiled (G.machine l) n t as) w = .ok u' w') ∨
      withHeap (applyCompiled (G.machine l) n t as) w = .error .overflow w' := by
  rcases reduction_followed hG (l := l) (n := n) hsymm ht has hne w w ⟨hw, hw⟩ with
    ⟨e, w', he, -⟩ | ⟨r, ⟨N, hN⟩, hm⟩
  · cases h.symm.trans he
  · have hrun := hN N (Nat.le_refl N) N (Nat.le_refl N)
    rw [h] at hm
    cases hm with
    | ok hlike _ => exact ⟨N, N, _, .inl ⟨_, hlike, hrun⟩⟩
    | escape he =>
        subst he
        exact ⟨N, N, _, .inr hrun⟩

end TacticEngine.Native
