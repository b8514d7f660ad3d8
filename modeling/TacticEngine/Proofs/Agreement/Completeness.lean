/-
# TacticEngine.Proofs.Agreement.Completeness -- where reduction ends, the machine ends: evaluation.

Code of a variable forces a value without any reduction taking place, so it takes an induction on how
values are made to see that this ends.  The head of an application is evaluated with the fuel of the
whole, but it is no application again.  Everything else goes on with less fuel.
-/
import TacticEngine.Proofs.Agreement.Progress

namespace TacticEngine

variable {β σ α γ : Type}

namespace Ground

open Machine (Code Delayed Value Memory Eval compile sources branchSources)
open Term (instantiateArgs instantiateBranches)

variable {G : Ground β σ} {Γ : List (Term β σ)} {n : Nat}

section

variable (G)

/-- Where reduction ends with so much fuel, forcing the value ends. -/
def Forces (n : Nat) (Γ : List (Term β σ)) (v : Value β σ) : Prop :=
  ∀ Γ', Γ <+: Γ' → G.EndsIn n v.source [] →
    G.Halts Γ' fun l k => Machine.force (G.machine l) k v

end

theorem halts_compile (t : Term β σ) :
    G.Halts Γ fun _ _ => Machine.inHeap (·.reserve (compile G.steps t)) :=
  .of_fuelless (.inHeap _)

theorem halts_of_forced {v : Value β σ} (hv : v.isThunk = false) :
    G.Halts Γ fun l k => Machine.force (G.machine l) k v := by
  refine .succ ?_
  simp only [Machine.force_of_forced hv]
  exact .pure v

/-- The value of a variable is forced as it is. -/
theorem halts_var {frame : List (Value β σ)} {i : Nat} (hi : i < frame.length)
    (hforces : ∀ f ∈ frame, G.Forces n Γ f)
    (hend : G.EndsIn n ((Term.bvar i).instantiate 0 (sources frame)) []) :
    G.Halts Γ fun l k => Machine.run (G.machine l) k (.var i) frame := by
  have hget : frame[i]? = some frame[i] := List.getElem?_eq_getElem hi
  rw [Machine.instantiate_lookup hget] at hend
  refine .succ ?_
  simp only [Machine.run, Machine.lookup, hget, pure_bind]
  exact hforces _ (List.getElem_mem hi) Γ List.prefix_rfl hend

/-- Code whose value is there at once. -/
theorem halts_value {code : Code β σ} {frame : List (Value β σ)} {v : Value β σ}
    (h : ∀ l k, Machine.run (G.machine l) (k + 1) code frame = pure v) :
    G.Halts Γ fun l k => Machine.run (G.machine l) k code frame := by
  refine .succ ?_
  simp only [h]
  exact .pure v

variable (hG : G.Lawful) (ih : ∀ k ≤ n, G.ProgressAt k)

include hG ih

/-- Applying a step to nothing fires it if it takes nothing. -/
theorem halts_step {t : Term β σ} {s : Step σ} (hs : G.stepOf t = some s) {frame : List (Value β σ)}
    (hend : G.EndsIn (n + 1) (t.instantiate 0 (sources frame)) []) :
    G.Halts Γ fun l k => Machine.run (G.machine l) k (.step t s) frame := by
  rw [instantiate_of_stepOf hs] at hend
  refine .succ ?_
  simp only [Machine.run]
  have hforced (l k : Nat) : Machine.force (G.machine l) (k + 1) (.step t s []) = pure (.step t s []) :=
    Machine.force_of_forced rfl
  refine .shift 2 1 (F := fun l k => Machine.applyForced (G.machine l) k (.step t s []) [])
    (fun l k => by rw [Machine.apply, hforced, pure_bind]) (.succ ?_)
  simp only [Machine.applyForced]
  by_cases hfew : ([] ++ [] : List (Value β σ)).length < s.arity
  · simp only [if_pos hfew]
    exact .pure _
  · simp only [if_neg hfew]
    have harity : s.arity = 0 := Nat.le_zero.mp (Nat.le_of_not_lt hfew)
    obtain ⟨t', l, w, ht, hw, hend⟩ := endsIn_nil_iff.mp hend
    obtain ⟨s', hs', hss⟩ := exists_stepOf hG hs ht
    have harity' : s'.arity = 0 := (hG.arity hss).2 ▸ harity
    obtain _ | n := n
    · -- reduction cannot even have looked at the step
      cases t' with
      | const | native =>
          rw [Ground.whnf, Reduce.whnf, stepOf_reduction, hs'] at hend
          exact hend.elim
      | _ => cases hs'
    · rw [whnf_firing hs' harity'] at hend
      have htake : ([] ++ [] : List (Value β σ)).take s.arity = [] := List.take_nil
      have hdrop : ([] ++ [] : List (Value β σ)).drop s.arity = [] := List.drop_nil
      rw [htake, hdrop]
      refine halts_fires hG (fun k hk => ih k (Nat.le_succ_of_le hk)) hss ?_ ?_ ?_ ?_ hw hend
      · exact formed_nil
      · exact formed_nil
      · rw [List.take_nil]
        exact .nil
      · rw [List.drop_nil]
        exact .nil

theorem halts_const {c : String} {slot : Nat} (hc : G.steps.lookup c = none)
    {frame : List (Value β σ)}
    (hend : G.EndsIn (n + 1) ((Term.const c).instantiate 0 (sources frame)) []) :
    G.Halts Γ fun l k => Machine.run (G.machine l) k (.const c slot) frame := by
  rw [Term.instantiate_eq_self (t := .const c) trivial trivial] at hend
  refine .succ ?_
  simp only [Machine.run]
  refine .orElse ?_
  have hunfold : G.Halts Γ fun l k => Machine.unfold (G.machine l) k c := by
    refine .succ ?_
    simp only [Machine.unfold, env_machine]
    cases hbody : G.env.unfoldable c with
    | none => exact .pure _
    | some body =>
        refine (halts_compile body).bind (E := fun _ => False)
          (fun _ _ => Ensures.reserve (compile_compiled hG Γ body)) id fun Γ₁ code _ hcode => ?_
        refine (ih n (Nat.le_refl n)).run hcode (hG.unfoldable hbody) formed_nil ?_
        rw [sources, Term.instantiate_nil]
        obtain ⟨t', l, w, ht, hw, hend⟩ := endsIn_nil_iff.mp hend
        cases ht with
        | const =>
            rw [Ground.whnf, Reduce.whnf, stepOf_reduction, stepOf, hc,
              bodyOf?_of_some hc hbody] at hend
            exact endsIn_nil_iff.mpr ⟨body, l, w, hG.unfoldable hbody, hw, hend⟩
  refine hunfold.bind (fun l k => (soundAt hG l k).unfold hc) (hend.not_fails hG) fun Γ₁ v _ _ => ?_
  exact .of_fuelless (.inHeap _)

theorem halts_case {s : Term β σ} {brs : List (Branch (Term β σ))} {c : Code β σ}
    {cs : List (Branch (Term β σ × Code β σ))} {frame : List (Value β σ)}
    (hc : G.Compiled Γ s c) (hcs : G.CompiledBranches Γ brs cs)
    (ht : G.like.Alike frame.length (.case s brs) (.case s brs))
    (hframe : ∀ f ∈ frame, G.Formed Γ f)
    (hend : G.EndsIn (n + 1) ((Term.case s brs).instantiate 0 (sources frame)) []) :
    G.Halts Γ fun l k => Machine.run (G.machine l) k (.case c cs) frame := by
  refine .succ ?_
  simp only [Machine.run]
  rw [Term.instantiate_case] at hend
  obtain ⟨t', l, w, hlike, hw, hend⟩ := endsIn_nil_iff.mp hend
  cases ht with
  | case hs hbrs =>
      cases hlike with
      | @case _ _ s' _ brs' hs' hbrs' =>
          rw [Ground.whnf, Reduce.whnf] at hend
          have hscrutinee : G.EndsIn n (s.instantiate 0 (sources frame)) [] :=
            endsIn_nil_iff.mpr ⟨s', l, w, hs', hw, hend.of_bind⟩
          refine ((ih n (Nat.le_refl n)).run hc hs hframe hscrutinee).bind
            (fun l k => (soundAt hG l k).run hc hs hframe) (hscrutinee.not_fails hG)
            fun Γ₁ v hΓ hv => ?_
          cases hsel : Machine.select v cs with
          | none => exact .pure _
          | some p =>
              obtain ⟨⟨src, body⟩, bound⟩ := p
              obtain ⟨b?, hb?, hchosen⟩ :=
                select_some hv.1 (formed_closed hG hframe) (hcs.mono hΓ) hbrs hsel
              have hframe' := hchosen.frame (formed_mono hΓ hframe)
              refine (ih n (Nat.le_refl n)).run hchosen.compiled hchosen.body hframe' ?_
              have hcomes := (hv.2.comes hv.1).congr_whnf hG hs'
              rcases Ended.bind_iff.mp hend with ⟨v', w', hr, hrest⟩ | ⟨e, w', hr⟩
              · obtain ⟨hlike, hw'⟩ := hcomes.of_ok (hG.lasts_whnf l n s') hw hr
                have hrel := Reduce.select_alike hlike hbrs'
                rw [hb?] at hrel
                generalize Reduce.select v' brs' = x at hrel hrest
                cases hrel with
                | some hrel =>
                    cases hrel with
                    | none => exact hrest.elim
                    | some hbb =>
                        rw [← hchosen.term _ rfl]
                        exact endsIn_nil_iff.mpr ⟨_, l, w', hbb, hw', hrest⟩
              · exact absurd hr (hcomes.ne_issue (hG.lasts_whnf l n s') hw)

/-- The head of an application has been evaluated; its value is applied to the arguments. -/
theorem halts_app {h : Term β σ} {as : List (Term β σ)} {c : Code β σ} {ds : List (Delayed β σ)}
    {frame : List (Value β σ)} (hc : G.Compiled Γ h c) (hds : G.CompiledArgs Γ as ds)
    (ht : G.like.Alike frame.length (.app h as) (.app h as)) (hframe : ∀ f ∈ frame, G.Formed Γ f)
    (hend : G.EndsIn (n + 1) ((Term.app h as).instantiate 0 (sources frame)) [])
    (hhead : G.EndsIn (n + 1) (h.instantiate 0 (sources frame)) [] →
      G.Halts Γ fun l k => Machine.run (G.machine l) k c frame) :
    G.Halts Γ fun l k => Machine.run (G.machine l) k (.app c ds) frame := by
  have hcanonical := ht.canonical hG.canonical
  rw [Term.instantiate_app hcanonical] at hend
  refine .succ ?_
  simp only [Machine.run]
  cases ht with
  | app _ hh has =>
      have hendapp := hend.of_apps hG (good_instantiate hh (good_sources hframe))
      refine (hhead hendapp.head).bind (fun l k => (soundAt hG l k).run hc hh hframe)
        (hendapp.head.not_fails hG) fun Γ₁ f hΓ hf => ?_
      have hframe₁ : ∀ f ∈ frame, G.Formed Γ₁ f := formed_mono hΓ hframe
      refine (Halts.of_fuelless (.mapM (.delayed frame) ds)).bind (E := fun _ => False)
        (fun _ _ => Ensures.delayed hG (hds.mono hΓ) has hframe₁) id fun Γ₂ vs hΓ' hvs => ?_
      obtain ⟨hvs, heq⟩ := hvs
      have hne : vs ≠ [] := by
        rintro rfl
        exact hcanonical.2.1 (List.map_eq_nil_iff.mp heq.symm)
      have hforced := hf.1.mono hΓ'
      refine .shift 2 1 (F := fun l k => Machine.applyForced (G.machine l) k f vs)
        (fun l k => by rw [Machine.apply, Machine.force_of_forced hforced.2, pure_bind]) ?_
      rw [← heq] at hendapp
      exact halts_applyForced hG (fun k hk => ih k (Nat.le_of_lt_succ hk)) hendapp hne hforced
        hf.2 hvs

omit hG in
/-- Wrappers around a term are not there any more in its code; reduction drops them. -/
theorem halts_wrapped {e t : Term β σ} {c : Code β σ} {frame : List (Value β σ)}
    (hc : G.Compiled Γ e c) (he : G.like.Alike frame.length e e) (hframe : ∀ f ∈ frame, G.Formed Γ f)
    (hend : G.EndsIn (n + 1) t [])
    (hdrop : ∀ {u}, G.like.Alike 0 t u → ∃ e', G.like.Alike 0 (e.instantiate 0 (sources frame)) e' ∧
      ∀ l, G.whnf u l (n + 1) = G.whnf e' l n) :
    G.Halts Γ fun l k => Machine.run (G.machine l) k c frame := by
  obtain ⟨u, l, w, hu, hw, hend⟩ := endsIn_nil_iff.mp hend
  obtain ⟨e', hlike, heq⟩ := hdrop hu
  rw [heq] at hend
  exact (ih n (Nat.le_refl n)).run hc he hframe (endsIn_nil_iff.mpr ⟨e', l, w, hlike, hw, hend⟩)

omit hG in
theorem halts_ascribed {e t : Term β σ} {c : Code β σ} {frame : List (Value β σ)}
    (hc : G.Compiled Γ e c) (he : G.like.Alike frame.length e e) (hframe : ∀ f ∈ frame, G.Formed Γ f)
    (hend : G.EndsIn (n + 1) ((Term.ascribed e t).instantiate 0 (sources frame)) []) :
    G.Halts Γ fun l k => Machine.run (G.machine l) k c frame := by
  rw [Term.instantiate_ascribed] at hend
  refine halts_wrapped ih hc he hframe hend fun hu => ?_
  cases hu with
  | ascribed hlike _ => exact ⟨_, hlike, fun l => by rw [Ground.whnf, Reduce.whnf]; rfl⟩

omit hG in
theorem halts_annotated {e : Term β σ} {m : Annotation} {c : Code β σ} {frame : List (Value β σ)}
    (hc : G.Compiled Γ e c) (he : G.like.Alike frame.length e e) (hframe : ∀ f ∈ frame, G.Formed Γ f)
    (hend : G.EndsIn (n + 1) ((Term.annotated e m).instantiate 0 (sources frame)) []) :
    G.Halts Γ fun l k => Machine.run (G.machine l) k c frame := by
  rw [Term.instantiate_annotated] at hend
  refine halts_wrapped ih hc he hframe hend fun hu => ?_
  cases hu with
  | annotated hlike => exact ⟨_, hlike, fun l => by rw [Ground.whnf, Reduce.whnf, Ground.whnf]⟩

omit hG in
theorem halts_reify {e : Term β σ} {c : Code β σ} {frame : List (Value β σ)}
    (hc : G.Compiled Γ e c) (he : G.like.Alike frame.length e e) (hframe : ∀ f ∈ frame, G.Formed Γ f)
    (hend : G.EndsIn (n + 1) ((Term.reify e).instantiate 0 (sources frame)) []) :
    G.Halts Γ fun l k => Machine.run (G.machine l) k c frame := by
  rw [Term.instantiate_reify] at hend
  refine halts_wrapped ih hc he hframe hend fun hu => ?_
  cases hu with
  | reify hlike => exact ⟨_, hlike, fun l => by rw [Ground.whnf, Reduce.whnf]; rfl⟩

/-- Where reduction ends, running code ends if forcing the values of its frame does: code of terms that
are no applications. -/
theorem halts_head {t : Term β σ} {code : Code β σ} {frame : List (Value β σ)}
    (happ : t.isApp = false) (hc : G.Compiled Γ t code) (ht : G.like.Alike frame.length t t)
    (hframe : ∀ f ∈ frame, G.Formed Γ f) (hforces : ∀ f ∈ frame, G.Forces (n + 1) Γ f)
    (hend : G.EndsIn (n + 1) (t.instantiate 0 (sources frame)) []) :
    G.Halts Γ fun l k => Machine.run (G.machine l) k code frame := by
  cases hc with
  | app => cases happ
  | bvar =>
      cases ht with
      | bvar hi => exact halts_var (hi hG.closed) hforces hend
  | const hc _ => exact halts_const hG ih hc hend
  | step hs => exact halts_step hG ih hs hend
  | case hc hcs => exact halts_case hG ih hc hcs ht hframe hend
  | ascribed hc =>
      cases ht with
      | ascribed he _ => exact halts_ascribed ih hc he hframe hend
  | annotated hc =>
      cases ht with
      | annotated he => exact halts_annotated ih hc he hframe hend
  | reify hc =>
      cases ht with
      | reify he => exact halts_reify ih hc he hframe hend
  | ctor | free | uvar | lit | blob | lam => exact halts_value fun l k => by rw [Machine.run]

/-- The same for any term: the head of an application is no application. -/
theorem halts_run {t : Term β σ} {code : Code β σ} {frame : List (Value β σ)}
    (hframe : ∀ f ∈ frame, G.Formed Γ f) (hforces : ∀ f ∈ frame, G.Forces (n + 1) Γ f)
    (hc : G.Compiled Γ t code) (ht : G.like.Alike frame.length t t)
    (hend : G.EndsIn (n + 1) (t.instantiate 0 (sources frame)) []) :
    G.Halts Γ fun l k => Machine.run (G.machine l) k code frame := by
  by_cases happ : t.isApp = true
  · cases hc with
    | @app h as c ds hc hds =>
        have hcanonical := ht.canonical hG.canonical
        have hh : G.like.Alike frame.length h h := by
          cases ht with
          | app _ hh _ => exact hh
        exact halts_app hG ih hc hds ht hframe hend
          (halts_head hG ih hcanonical.1 hc hh hframe hforces)
    | step hs =>
        rw [isApp_of_stepOf hs] at happ
        cases happ
    | _ => cases happ
  · exact halts_head hG ih (Bool.not_eq_true _ ▸ happ) hc ht hframe hforces hend

/-- Where reduction ends, forcing a value ends: the frames of values are well founded. -/
theorem forces {v : Value β σ} (hv : G.Formed Γ v) : G.Forces (n + 1) Γ v := by
  induction hv with
  | @thunk slot src frame code? hslot hsrc hcode hframe ihframe =>
      intro Γ' hΓ hend
      have hframe' : ∀ f ∈ frame, G.Formed Γ' f := formed_mono hΓ hframe
      rw [Value.source] at hend
      have hgo (Γ₁ : List (Term β σ)) (code : Code β σ) (hΓ₁ : Γ' <+: Γ₁)
          (hcompiled : G.Compiled Γ₁ src code) : G.Halts Γ₁ fun l k => (do
            let u ← Machine.run (G.machine l) k code frame
            Machine.inHeap (·.fill slot u)) := by
        have hframe₁ : ∀ f ∈ frame, G.Formed Γ₁ f := formed_mono hΓ₁ hframe'
        have hforces : ∀ f ∈ frame, G.Forces (n + 1) Γ₁ f := fun f hf Γ₂ hΓ₂ =>
          ihframe f hf Γ₂ ((hΓ.trans hΓ₁).trans hΓ₂)
        refine (halts_run hG ih hframe₁ hforces hcompiled hsrc hend).bind
          (fun l k => (soundAt hG l k).run hcompiled hsrc hframe₁) (hend.not_fails hG)
          fun Γ₂ u _ _ => ?_
        exact .of_fuelless (.inHeap _)
      refine .succ ?_
      simp only [Machine.force]
      refine .orElse ?_
      cases code? with
      | some code => exact hgo Γ' code List.prefix_rfl ((hcode code rfl).mono hΓ)
      | none =>
          exact (halts_compile src).bind (E := fun _ => False)
            (fun _ _ => Ensures.reserve (compile_compiled hG Γ' src)) id hgo
  | _ =>
      intro Γ' _ _
      exact halts_of_forced rfl

omit ih in
/-- Where reduction has ended with some amount of fuel, the machine ends. -/
theorem progressAt (n : Nat) : G.ProgressAt n := by
  induction n using Nat.strongRecOn with
  | ind n ih =>
      obtain _ | n := n
      · exact {
          run := fun _ _ _ hend => absurd hend not_endsIn_zero
          force := fun _ hend => absurd hend not_endsIn_zero
          applyForced := fun {Γ f args} hf _ hend => by
            cases hfun : f.isFunction with
            | false => exact hf.halts_applyForced hfun args
            | true => exact absurd (hend hfun) not_headEndsIn_zero
          readback := fun _ hend => absurd hend not_normEndsIn_zero }
      · have ih' : ∀ k ≤ n, G.ProgressAt k := fun k hk => ih k (Nat.lt_succ_of_le hk)
        exact {
          run := fun hc ht hframe hend => halts_run hG ih' hframe
            (fun f hf => forces hG ih' (hframe f hf)) hc ht hend
          force := fun hv hend => forces hG ih' hv _ List.prefix_rfl hend
          applyForced := fun {Γ f args} hf hargs hend => by
            cases hfun : f.isFunction with
            | false => exact hf.halts_applyForced hfun args
            | true =>
                have hend := hend hfun
                rw [← Machine.sources_append] at hend
                have hformed := hf.1
                cases hformed with
                | lam => exact ProgressAt.applyForced_lam hG ih' hf hargs hend
                | step => exact ProgressAt.applyForced_step hG ih' hf hargs hend
                | _ => cases hfun
          readback := fun hv hend => (ih' n (Nat.le_refl n)).readback_succ hG hv hend }

end Ground

end TacticEngine
