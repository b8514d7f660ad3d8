/-
# TacticEngine.Proofs.Agreement.Calls -- what the machine goes through, reduction goes through.

`soundAt` says what comes of a call on well-formed values, unless reduction leaves the range of machine words.
Here it is carried to the calls that are made on the way.  A call is `Comparable` if its code and values are well
formed and reduction of what it works on does not leave the range.  From a heap that is filled properly it makes
comparable calls only, and from heaps that are filled properly (`Comparable.call`): whenever reduction of what a
nested call works on leaves the range, so does the reduction that this is a part of.

A step that takes no arguments is applied to none before it is fired, though it is no value then; it has cases of
its own.
-/
import TacticEngine.Proofs.Agreement.Evaluation
import TacticEngine.Proofs.Machine.Calls

namespace TacticEngine

variable {β σ α : Type}

namespace Machine

/-- A step that takes no arguments, before it is fired. -/
def Value.Unfired (v : Value β σ) : Prop := ∃ t s, s.arity = 0 ∧ v = .step t s []

theorem Value.held_eq_args (v : Value β σ) : v.held = v.args := by
  cases v <;> rfl

end Machine

namespace Ground

open Machine (Call Calls Code Delayed Memory Reply Setting Value Eval sources branchSources)
open Term (instantiateBranches)

section

variable (G : Ground β σ) (Γ : List (Term β σ))

/-- The heap is filled properly and the world is admissible. -/
structure InOrder (m : Memory β σ) : Prop where
  filled : G.Filled Γ m.heap
  world : G.world m.world

/-- Calls on well-formed code and values where reduction stays in the range of machine words. -/
inductive Comparable : Call β σ → Prop where
  | run {t code frame} : G.Compiled Γ t code → G.like.Alike frame.length t t →
      (∀ f ∈ frame, G.Formed Γ f) → ¬ G.Fails (t.instantiate 0 (sources frame)) .overflow →
      Comparable (.run code frame)
  | unfold {c} : G.steps.lookup c = none → ¬ G.Fails (.const c) .overflow → Comparable (.unfold c)
  | force {v} : G.Formed Γ v → ¬ G.Fails v.source .overflow → Comparable (.force v)
  /-- Forcing a value that is forced does nothing. -/
  | forced {v} : G.Forced Γ v → Comparable (.force v)
  | apply {f args} : G.Forced Γ f → (∀ a ∈ args, G.Formed Γ a) →
      ¬ G.FailsInto f (sources args) .overflow → Comparable (.apply f args)
  /-- A value that may still be suspended is applied by a host. -/
  | applySuspended {f args} : G.Formed Γ f → (∀ a ∈ args, G.Formed Γ a) →
      ¬ G.Fails (f.source.apps (sources args)) .overflow → Comparable (.apply f args)
  | applyForced {f args} : G.Forced Γ f → (∀ a ∈ args, G.Formed Γ a) →
      ¬ G.FailsInto f (sources args) .overflow → Comparable (.applyForced f args)
  | applyRest {v rest} : G.Forced Γ v → (∀ a ∈ rest, G.Formed Γ a) →
      ¬ G.FailsInto v (sources rest) .overflow → Comparable (.applyRest v rest)
  | readback {v} : G.Formed Γ v → ¬ G.Comes (throw .overflow) (G.norm v.source) →
      Comparable (.readback v)
  | constant {t s} : G.stepOf t = some s → G.Good t → s.arity = 0 → ¬ G.Fails t .overflow →
      Comparable (.apply (.step t s []) [])
  | constantForce {t s} : s.arity = 0 → Comparable (.force (.step t s []))
  | constantForced {t s} : G.stepOf t = some s → G.Good t → s.arity = 0 → ¬ G.Fails t .overflow →
      Comparable (.applyForced (.step t s []) [])

end

variable {G : Ground β σ} {Γ : List (Term β σ)} {m m' : Memory β σ}

/-! ## What is known of an evaluation that has ended -/

theorem Ensures.of_ok {act : Eval β σ α} {P : List (Term β σ) → α → Prop} {E : Halt β → Prop}
    (h : G.Ensures Γ act P E) (hE : ¬ E .overflow) (hm : G.InOrder Γ m) {a : α} (hr : act m = .ok a m') :
    ∃ Γ', Γ <+: Γ' ∧ G.InOrder Γ' m' ∧ P Γ' a := by
  rcases h m hm.filled hm.world with hover | hends
  · exact absurd hover hE
  · rw [hr] at hends
    obtain ⟨Γ', hΓ, hfilled, hworld, ha⟩ := hends
    exact ⟨Γ', hΓ, ⟨hfilled, hworld⟩, ha⟩

theorem Ensures.of_issue {act : Eval β σ α} {P : List (Term β σ) → α → Prop} {E : Halt β → Prop}
    (h : G.Ensures Γ act P E) (hE : ¬ E .overflow) (hm : G.InOrder Γ m) {e : Issue β}
    (hr : act m = .error (.issue e) m') : ∃ Γ', Γ <+: Γ' ∧ G.InOrder Γ' m' := by
  rcases h m hm.filled hm.world with hover | hends
  · exact absurd hover hE
  · rw [hr] at hends
    obtain ⟨-, hworld, Γ', hΓ, hfilled⟩ := hends
    exact ⟨Γ', hΓ, hfilled, hworld⟩

variable (hG : G.Lawful) {l n : Nat}

include hG

/-- Values that may still be suspended are applied like the terms that they stand for. -/
theorem ensures_apply {f : Value β σ} {args : List (Value β σ)} (hf : G.Formed Γ f)
    (hargs : ∀ a ∈ args, G.Formed Γ a) :
    G.Evaluates Γ (Machine.apply (G.machine l) n f args) (f.source.apps (sources args)) := by
  cases n with
  | zero => exact .exhausted
  | succ n =>
      have hgood := good_sources hargs
      rw [Machine.apply]
      refine (((soundAt hG l n).force hf).imp (fun _ _ _ h => h) fun _ hfail => hfail.apps hgood).bind
        fun Γ₁ g hΓ hg => ?_
      exact ((soundAt hG l n).applyForced hg.1 (formed_mono hΓ hargs)).imp
        (fun _ u _ hu => ⟨hu.1, hg.2.into hgood hu.2⟩) fun _ hfail => hg.2.failsInto hgood hfail

/-! ## Reading back arguments -/

/-- If normalizing all the arguments stays in range, then any of them can be read back once those in front of it
have been. -/
theorem comparable_argument {vs before after : List (Value β σ)} {v : Value β σ} {ts : List (Term β σ)}
    (hvs : ∀ a ∈ vs, G.Formed Γ a) (hover : ¬ G.ComeAll (throw .overflow) (G.norms (sources vs)))
    (heq : vs = before ++ v :: after) (hm : G.InOrder Γ m)
    (hr : before.mapM (Machine.readback (G.machine l) n) m = .ok ts m') :
    ∃ Γ', Γ <+: Γ' ∧ G.InOrder Γ' m' ∧ G.Comparable Γ' (.readback v) := by
  subst heq
  rw [Machine.sources_append, sources] at hover
  have hbefore := fun a ha => hvs a (List.mem_append_left _ ha)
  have hv := hvs v (List.mem_append_right _ List.mem_cons_self)
  obtain ⟨Γ₁, hΓ, hm', -, -, hts⟩ := ((soundAt hG l n).readbacks hbefore).of_ok
    (fun hfail => hover hfail.throw_append) hm hr
  exact ⟨Γ₁, hΓ, hm', .readback (hv.mono hΓ) fun hfail => hover (hts.append_throw (.throw_cons hfail))⟩

/-! ## Firing -/

section

variable {t : Term β σ} {s : Step σ} {held args : List (Value β σ)}

/-- The firing of the step on the arguments stays in the range of machine words. -/
structure Fireable (G : Ground β σ) (Γ : List (Term β σ)) (t : Term β σ) (s : Step σ)
    (now later : List (Value β σ)) : Prop where
  stepOf : G.stepOf t = some s
  good : G.Good t
  enough : now.length = s.arity
  formed : ∀ a ∈ now, G.Formed Γ a
  formedRest : ∀ a ∈ later, G.Formed Γ a
  range : ¬ ∀ as, G.GoodArgs as → G.Comes (throw .overflow) (G.firing s t (sources (now ++ later) ++ as))

omit hG in
theorem Comparable.fireable (hc : G.Comparable Γ (.applyForced (.step t s held) args))
    (hle : s.arity ≤ (held ++ args).length) :
    G.Fireable Γ t s ((held ++ args).take s.arity) ((held ++ args).drop s.arity) := by
  cases hc with
  | applyForced hf hargs hover =>
      have hs := hf.due hargs hle
      exact ⟨hs.stepOf, hs.good, List.length_take_of_le hs.enough, hs.now, hs.later,
        fun hfail => hover fun as has => hs.comes (hfail as has)⟩
  | constantForced hs ht harity hover =>
      refine ⟨hs, ht, by simp [harity], by simp, by simp, fun hfail => hover ?_⟩
      refine Fails.of_comes (isApp_of_stepOf hs) (Tie.Follows.shift 2 0 (whnf_firing hs harity) ?_)
      have hm := hfail [] .nil
      simpa [sources] using hm

variable {now later : List (Value β σ)}

omit hG in
theorem Fireable.norms (h : G.Fireable Γ t s now later) :
    ¬ G.ComeAll (throw .overflow) (G.norms (sources now)) := fun hfail =>
  h.range fun as _ => Comes.fire_throw (by rwa [take_sources h.enough])

/-- What the step gives, once it has been fired. -/
theorem Fireable.fire (h : G.Fireable Γ t s now later) (hm : G.InOrder Γ m) {r : Option (Value β σ)}
    (hr : Machine.fire (G.machine l) (Machine.readback (G.machine l) n) s now m = .ok r m') :
    ∃ Γ', Γ <+: Γ' ∧ G.InOrder Γ' m' ∧ ∀ v, r = some v → G.Formed Γ' v ∧
      ¬ G.Fails (v.source.apps (sources later)) .overflow := by
  have hstep := stepOf_like hG h.stepOf h.good
  have hfire := (soundAt hG l n).fire hG hstep h.formed
  have hrange : ¬ (G.ComeAll (throw .overflow) (G.norms (sources now)) ∨
      ∃ ts, G.ComeAll (pure ts) (G.norms (sources now)) ∧ G.Acts (throw .overflow) s ts) := by
    rintro (hfail | ⟨ts, hts, hact⟩)
    · exact h.norms hfail
    · exact h.range fun as _ => Comes.fire_issue hG hstep (by rwa [take_sources h.enough]) hact
  obtain ⟨Γ₁, hΓ, hm', hformed, ts, hts, hact⟩ := hfire.of_ok hrange hm hr
  refine ⟨Γ₁, hΓ, hm', fun v hv => ⟨hformed v hv, fun hfail => h.range fun as has => ?_⟩⟩
  subst hv
  have hgo := hfail as has
  rw [Term.apps_apps] at hgo
  exact Comes.firing_some hG hstep h.enough h.formed h.formedRest hts hact has hgo

omit hG in
/-- Before it is fired, a step is applied to no arguments. -/
theorem Comparable.step (hs : G.stepOf t = some s) (ht : G.Good t) (hover : ¬ G.Fails t .overflow) :
    G.Comparable Γ (.apply (.step t s []) []) := by
  by_cases harity : s.arity = 0
  · exact .constant hs ht harity hover
  · refine .apply ⟨.step hs ht formed_nil (Nat.pos_of_ne_zero harity), rfl⟩ formed_nil fun hfail => hover ?_
    intro as has
    have hgo := hfail as has
    rwa [sources, List.nil_append, app_of_function rfl, Value.source, sources, Term.apps_nil] at hgo

end

/-! ## Running code -/

omit hG in
/-- The term is not wrapped in anything that compiling drops. -/
def Bare : Term β σ → Prop
  | .ascribed .. | .annotated .. | .reify _ => False
  | _ => True

omit hG in
/-- Code that has been compiled from a wrapped term has been compiled from the term in it. -/
theorem exists_bare {frame : List (Value β σ)} :
    ∀ {t : Term β σ} {code : Code β σ}, G.Compiled Γ t code → G.like.Alike frame.length t t →
      ¬ G.Fails (t.instantiate 0 (sources frame)) .overflow →
      ∃ u, Bare u ∧ G.Compiled Γ u code ∧ G.like.Alike frame.length u u ∧
        ¬ G.Fails (u.instantiate 0 (sources frame)) .overflow
  | .ascribed e t, _, .ascribed hc, .ascribed he _, hover => by
      refine exists_bare hc he fun hfail => hover ?_
      rw [Term.instantiate_ascribed]
      exact Fails.of_comes rfl (hfail.comes.ascribed _)
  | .annotated e a, _, .annotated hc, .annotated he, hover => by
      refine exists_bare hc he fun hfail => hover ?_
      rw [Term.instantiate_annotated]
      exact Fails.of_comes rfl (hfail.comes.annotated _)
  | .reify e, _, .reify hc, .reify he, hover => by
      refine exists_bare hc he fun hfail => hover ?_
      rw [Term.instantiate_reify]
      exact Fails.of_comes rfl hfail.comes.reify
  | .bvar _, _, hc, ht, hover | .const _, _, hc, ht, hover | .ctor _, _, hc, ht, hover
  | .free _, _, hc, ht, hover | .uvar _, _, hc, ht, hover | .lit _, _, hc, ht, hover
  | .blob _, _, hc, ht, hover | .native _, _, hc, ht, hover | .app .., _, hc, ht, hover
  | .lam .., _, hc, ht, hover | .case .., _, hc, ht, hover =>
      ⟨_, by trivial, hc, ht, hover⟩

omit hG in
/-- Code that is run has been compiled from a term without wrappers, and reduction of that does not leave the
range. -/
theorem Comparable.bare {code : Code β σ} {frame : List (Value β σ)} (hc : G.Comparable Γ (.run code frame)) :
    (∀ f ∈ frame, G.Formed Γ f) ∧ ∃ t, Bare t ∧ G.Compiled Γ t code ∧ G.like.Alike frame.length t t ∧
      ¬ G.Fails (t.instantiate 0 (sources frame)) .overflow := by
  cases hc with
  | run hcode ht hframe hover => exact ⟨hframe, exists_bare hcode ht hover⟩

/-- The value of a variable stands for what the variable stands for. -/
theorem Comparable.var {i : Nat} {frame : List (Value β σ)} {v : Value β σ}
    (hc : G.Comparable Γ (.run (.var i) frame)) (hm : G.InOrder Γ m)
    (hr : Machine.lookup frame i m = .ok v m') :
    ∃ Γ', Γ <+: Γ' ∧ G.InOrder Γ' m' ∧ G.Comparable Γ' (.force v) := by
  obtain ⟨hframe, t, hbare, hcode, ht, hover⟩ := hc.bare
  cases hcode with
  | ascribed | annotated | reify => exact hbare.elim
  | bvar =>
      cases ht with
      | bvar hi =>
          obtain ⟨Γ₁, hΓ, hm₁, hv, heq⟩ :=
            (Ensures.lookup (E := fun _ => False) (hi hG.closed) hframe).of_ok id hm hr
          rw [← heq] at hover
          exact ⟨Γ₁, hΓ, hm₁, .force hv hover⟩

omit hG in
/-- A constant without a step is unfolded. -/
theorem Comparable.const {c : String} {slot : Nat} {frame : List (Value β σ)}
    (hc : G.Comparable Γ (.run (.const c slot) frame)) : G.Comparable Γ (.unfold c) := by
  obtain ⟨-, t, hbare, hcode, ht, hover⟩ := hc.bare
  cases hcode with
  | ascribed | annotated | reify => exact hbare.elim
  | const hc =>
      rw [Term.instantiate_eq_self (t := .const _) trivial trivial] at hover
      exact .unfold hc hover

omit hG in
/-- A step is applied to no arguments at first. -/
theorem Comparable.native {t : Term β σ} {s : Step σ} {frame : List (Value β σ)}
    (hc : G.Comparable Γ (.run (.step t s) frame)) : G.Comparable Γ (.apply (.step t s []) []) := by
  obtain ⟨hframe, t, hbare, hcode, ht, hover⟩ := hc.bare
  cases hcode with
  | ascribed | annotated | reify => exact hbare.elim
  | step hs =>
      have hgood := good_instantiate ht (good_sources hframe)
      rw [instantiate_of_stepOf hs] at hover hgood
      exact .step hs hgood hover

/-- The head of an application is evaluated first, and then applied. -/
theorem Comparable.app {c : Code β σ} {ds : List (Delayed β σ)} {frame : List (Value β σ)}
    (hc : G.Comparable Γ (.run (.app c ds) frame)) (hm : G.InOrder Γ m) :
    G.Comparable Γ (.run c frame) ∧ ∀ f m₁ vs m₂, Machine.run (G.machine l) n c frame m = .ok f m₁ →
      ds.mapM (Machine.delayed frame) m₁ = .ok vs m₂ →
      ∃ Γ', Γ <+: Γ' ∧ G.InOrder Γ' m₂ ∧ G.Comparable Γ' (.apply f vs) := by
  obtain ⟨hframe, t, hbare, hcode, ht, hover⟩ := hc.bare
  cases hcode with
  | ascribed | annotated | reify => exact hbare.elim
  | app hc hds =>
      rw [Term.instantiate_app (ht.canonical hG.canonical)] at hover
      cases ht with
      | app _ hh has =>
          have hgood := good_instantiateArgs has (good_sources hframe)
          have hhead := fun hfail => hover (Fails.apps hgood hfail)
          refine ⟨.run hc hh hframe hhead, fun f m₁ vs m₂ hf hvs => ?_⟩
          obtain ⟨Γ₁, hΓ, hm₁, hf, hb⟩ := ((soundAt hG l n).run hc hh hframe).of_ok hhead hm hf
          obtain ⟨Γ₂, hΓ', hm₂, hvs, heq⟩ := (Ensures.delayed (E := fun _ => False) hG (hds.mono hΓ) has
            (formed_mono hΓ hframe)).of_ok id hm₁ hvs
          rw [← heq] at hover hgood
          exact ⟨Γ₂, hΓ.trans hΓ', hm₂, .apply (hf.mono hΓ') hvs
            fun hfail => hover (hb.failsInto hgood hfail)⟩

/-- The scrutinee is evaluated first, and then the branch that is taken. -/
theorem Comparable.case {c : Code β σ} {cs : List (Branch (Term β σ × Code β σ))}
    {frame : List (Value β σ)} (hc : G.Comparable Γ (.run (.case c cs) frame)) (hm : G.InOrder Γ m) :
    G.Comparable Γ (.run c frame) ∧ ∀ v m₁ src body bound, Machine.run (G.machine l) n c frame m = .ok v m₁ →
      Machine.select v cs = some ((src, body), bound) →
      ∃ Γ', Γ <+: Γ' ∧ G.InOrder Γ' m₁ ∧ G.Comparable Γ' (.run body (bound.reverse ++ frame)) := by
  obtain ⟨hframe, t, hbare, hcode, ht, hover⟩ := hc.bare
  cases hcode with
  | ascribed | annotated | reify => exact hbare.elim
  | @case s brs _ _ hc hcs =>
      have hgoodbrs := good_instantiateBranches ht (good_sources hframe)
      rw [Term.instantiate_case] at hover
      cases ht with
      | case hs hbrs =>
          have hscrutinee := fun hfail => hover (Fails.of_comes rfl (.case_throw (Fails.comes hfail)))
          refine ⟨.run hc hs hframe hscrutinee, fun v m₁ src body bound hv hsel => ?_⟩
          obtain ⟨Γ₁, hΓ, hm₁, hv, hb⟩ := ((soundAt hG l n).run hc hs hframe).of_ok hscrutinee hm hv
          obtain ⟨b?, hb?, hchosen⟩ :=
            select_some hv (formed_closed hG hframe) (hcs.mono hΓ) hbrs hsel
          refine ⟨Γ₁, hΓ, hm₁, .run hchosen.compiled hchosen.body (hchosen.frame (formed_mono hΓ hframe))
            fun hfail => ?_⟩
          -- if the branch left the range, so would the whole, as it takes the same branch
          refine hover (Fails.of_comes rfl (Comes.case_some hG (hb.comes hv) hgoodbrs hb? ?_))
          intro b heq
          rw [hchosen.term b heq]
          exact hfail.comes

/-! ## Definitions and suspended code -/

/-- A definition is evaluated in no frame. -/
theorem Comparable.definition {c : String} {body : Term β σ} {code : Code β σ}
    (hc : G.Comparable Γ (.unfold c)) (hm : G.InOrder Γ m) (hbody : G.env.unfoldable c = some body)
    (hr : Machine.inHeap (·.reserve (Machine.compile G.steps body)) m = .ok code m') :
    ∃ Γ', Γ <+: Γ' ∧ G.InOrder Γ' m' ∧ G.Comparable Γ' (.run code []) := by
  cases hc with
  | unfold hc hover =>
      obtain ⟨Γ₁, hΓ, hm₁, hcode⟩ := (Ensures.reserve (E := fun _ => False)
        (compile_compiled hG Γ _)).of_ok id hm hr
      refine ⟨Γ₁, hΓ, hm₁, .run hcode (hG.unfoldable hbody) formed_nil fun hfail => hover ?_⟩
      rw [sources, Term.instantiate_nil] at hfail
      exact Fails.of_comes rfl (.unfold hc hbody hfail.comes)

omit hG in
/-- What a suspended computation was suspended with. -/
theorem Comparable.suspension {slot : Nat} {src : Term β σ} {frame : List (Value β σ)}
    {code? : Option (Code β σ)} (hc : G.Comparable Γ (.force (.thunk slot src frame code?))) :
    (∀ code, code? = some code → G.Compiled Γ src code) ∧ G.like.Alike frame.length src src ∧
      (∀ f ∈ frame, G.Formed Γ f) ∧ ¬ G.Fails (src.instantiate 0 (sources frame)) .overflow := by
  cases hc with
  | forced hv => cases hv.2
  | force hv hover =>
      cases hv with
      | thunk _ hsrc hcode hframe => exact ⟨hcode, hsrc, hframe, hover⟩

/-! ## Application -/

/-- The function is forced first, and then applied. -/
theorem Comparable.applied {f : Value β σ} {args : List (Value β σ)}
    (hc : G.Comparable Γ (.apply f args)) (hm : G.InOrder Γ m) :
    G.Comparable Γ (.force f) ∧ ∀ g m₁, Machine.force (G.machine l) n f m = .ok g m₁ →
      ∃ Γ', Γ <+: Γ' ∧ G.InOrder Γ' m₁ ∧ G.Comparable Γ' (.applyForced g args) := by
  have hkeep {g : Value β σ} {m₁ : Memory β σ} (hf : f.isThunk = false)
      (hr : Machine.force (G.machine l) n f m = .ok g m₁) : g = f ∧ m₁ = m := by
    cases n with
    | zero => cases hr
    | succ n =>
        rw [Machine.force_of_forced hf] at hr
        cases hr
        exact ⟨rfl, rfl⟩
  cases hc with
  | apply hf hargs hover =>
      refine ⟨.forced hf, fun g m₁ hr => ?_⟩
      obtain ⟨rfl, rfl⟩ := hkeep hf.2 hr
      exact ⟨Γ, List.prefix_rfl, hm, .applyForced hf hargs hover⟩
  | applySuspended hf hargs hover =>
      have hgood := good_sources hargs
      have hforce := fun hfail => hover (Fails.apps hgood hfail)
      refine ⟨.force hf hforce, fun g m₁ hr => ?_⟩
      obtain ⟨Γ₁, hΓ, hm₁, hg, hb⟩ := ((soundAt hG l n).force hf).of_ok hforce hm hr
      exact ⟨Γ₁, hΓ, hm₁, .applyForced hg (formed_mono hΓ hargs)
        fun hfail => hover (hb.failsInto hgood hfail)⟩
  | constant hs ht harity hover =>
      refine ⟨.constantForce harity, fun g m₁ hr => ?_⟩
      obtain ⟨rfl, rfl⟩ := hkeep rfl hr
      exact ⟨Γ, List.prefix_rfl, hm, .constantForced hs ht harity hover⟩

/-- A closure with enough arguments runs its body; the result is applied to those that are left. -/
theorem Comparable.body {k : Nat} {src : Term β σ} {code : Code β σ} {frame held args : List (Value β σ)}
    (hc : G.Comparable Γ (.applyForced (.lam k src code frame held) args))
    (hle : k ≤ (held ++ args).length) (hm : G.InOrder Γ m) :
    G.Comparable Γ (.run code (((held ++ args).take k).reverse ++ frame)) ∧ ∀ v m₁,
      Machine.run (G.machine l) n code (((held ++ args).take k).reverse ++ frame) m = .ok v m₁ →
      ∃ Γ', Γ <+: Γ' ∧ G.InOrder Γ' m₁ ∧ G.Comparable Γ' (.applyRest v ((held ++ args).drop k)) := by
  cases hc with
  | applyForced hf hargs hover =>
      obtain ⟨b, rfl⟩ := hf.exists_body
      have hs := hf.saturated hargs hle
      have hgood := good_sources hs.later
      -- the closure goes on with its body
      have hover' : ¬ ∀ as, G.GoodArgs as → G.Comes (throw .overflow) (G.whnf
          ((b.instantiate 0 (sources (((held ++ args).take k).reverse ++ frame))).apps
            (sources ((held ++ args).drop k) ++ as))) := fun hfail => hover fun as has =>
        hs.comes hG (hfail as has)
      have hrun : ¬ G.Fails (b.instantiate 0 (sources (((held ++ args).take k).reverse ++ frame)))
          .overflow := fun hfail => hover' fun as has => hfail _ (hgood.append has)
      refine ⟨.run hs.compiled hs.body hs.values hrun, fun v m₁ hr => ?_⟩
      obtain ⟨Γ₁, hΓ, hm₁, hv, hb⟩ :=
        ((soundAt hG l n).run hs.compiled hs.body hs.values).of_ok hrun hm hr
      exact ⟨Γ₁, hΓ, hm₁, .applyRest hv (formed_mono hΓ hs.later)
        fun hfail => hover' fun as has => hb _ _ (hgood.append has) (hfail as has)⟩

/-! ## Calls -/

/-- **What the machine goes through, reduction goes through.**  A comparable call, from a memory that is in order,
makes comparable calls only, from memories that are in order. -/
theorem Comparable.call {c c' : Call β σ} (hcall : Calls (G.machine l) n c m c' m')
    (hc : G.Comparable Γ c) (hm : G.InOrder Γ m) :
    ∃ Γ', Γ <+: Γ' ∧ G.InOrder Γ' m' ∧ G.Comparable Γ' c' := by
  have hstay {c' : Call β σ} (h : G.Comparable Γ c') :
      ∃ Γ', Γ <+: Γ' ∧ G.InOrder Γ' m ∧ G.Comparable Γ' c' := ⟨Γ, List.prefix_rfl, hm, h⟩
  cases hcall with
  | var hr => exact hc.var hG hm hr
  | const _ => exact hstay hc.const
  | step => exact hstay hc.native
  | head => exact hstay (hc.app hG (l := l) (n := n) hm).1
  | app hf hvs => exact (hc.app hG hm).2 _ _ _ _ hf hvs
  | scrutinee => exact hstay (hc.case hG (l := l) (n := n) hm).1
  | branch hv hsel => exact (hc.case hG hm).2 _ _ _ _ _ hv hsel
  | definition hbody hcode => exact hc.definition hG hm hbody hcode
  | compiled _ =>
      obtain ⟨hcode, hsrc, hframe, hover⟩ := hc.suspension
      exact hstay (.run (hcode _ rfl) hsrc hframe hover)
  | uncompiled _ hcode =>
      obtain ⟨-, hsrc, hframe, hover⟩ := hc.suspension
      obtain ⟨Γ₁, hΓ, hm₁, hcode⟩ := (Ensures.reserve (E := fun _ => False)
        (compile_compiled hG Γ _)).of_ok id hm hcode
      exact ⟨Γ₁, hΓ, hm₁, .run hcode hsrc (formed_mono hΓ hframe) hover⟩
  | function => exact hstay (hc.applied hG (l := l) (n := n) hm).1
  | applied hg => exact (hc.applied hG hm).2 _ _ hg
  | body hle => exact hstay (hc.body hG (l := l) (n := n) hle hm).1
  | surplus hle hv => exact (hc.body hG hle hm).2 _ _ hv
  | argument hle _ hnow hts =>
      have hfire := hc.fireable hle
      exact comparable_argument hG hfire.formed hfire.norms hnow hm hts
  | result hle hr =>
      obtain ⟨Γ₁, hΓ, hm₁, hv⟩ := (hc.fireable hle).fire hG hm hr
      obtain ⟨hv, hover⟩ := hv _ rfl
      have hgood := good_sources (formed_mono hΓ (hc.fireable hle).formedRest)
      exact ⟨Γ₁, hΓ, hm₁, .force hv fun hfail => hover (Fails.apps hgood hfail)⟩
  | fired hle hr hu =>
      obtain ⟨Γ₁, hΓ, hm₁, hv⟩ := (hc.fireable hle).fire hG hm hr
      obtain ⟨hv, hover⟩ := hv _ rfl
      have hlater := formed_mono hΓ (hc.fireable hle).formedRest
      have hgood := good_sources hlater
      obtain ⟨Γ₂, hΓ', hm₂, hu, hb⟩ := ((soundAt hG l n).force hv).of_ok
        (fun hfail => hover (Fails.apps hgood hfail)) hm₁ hu
      exact ⟨Γ₂, hΓ.trans hΓ', hm₂, .applyRest hu (formed_mono hΓ' hlater)
        fun hfail => hover (hb.failsInto hgood hfail)⟩
  | declined hle hr hnow hts =>
      have hfire := hc.fireable hle
      obtain ⟨Γ₁, hΓ, hm₁, -⟩ := hfire.fire hG hm hr
      obtain ⟨Γ₂, hΓ', h⟩ := comparable_argument hG (formed_mono hΓ hfire.formed) hfire.norms hnow hm₁ hts
      exact ⟨Γ₂, hΓ.trans hΓ', h⟩
  | suspended =>
      cases hc with
      | applyForced hf => cases hf.2
  | resumed _ =>
      cases hc with
      | applyForced hf => cases hf.2
  | rest _ =>
      cases hc with
      | applyRest hv hrest hover => exact hstay (.applyForced hv hrest hover)
  | forced =>
      cases hc with
      | readback hv hover => exact hstay (.force hv fun hfail => hover (Comes.norm_throw (Fails.comes hfail)))
  | held hu hheld hts =>
      cases hc with
      | readback hv hover =>
          obtain ⟨Γ₁, hΓ, hm₁, hu, hb⟩ := ((soundAt hG l n).force hv).of_ok
            (fun hfail => hover (Comes.norm_throw (Fails.comes hfail))) hm hu
          have hcomes := hb.comes hu
          rw [Value.source_eq] at hcomes
          rw [Machine.Value.held_eq_args] at hheld
          obtain ⟨Γ₂, hΓ', h⟩ := comparable_argument hG hu.1.args (fun hfail => hover (Comes.norm hcomes
            fun _ => (hu.headed.comes_normArgs_throw hfail).congr_normArgs hG)) hheld hm₁ hts
          exact ⟨Γ₂, hΓ.trans hΓ', h⟩

/-- A comparable call gives well-formed values.  But a step that has not been fired stays what it is when it is
forced. -/
theorem Comparable.ensures {c : Call β σ} (hc : G.Comparable Γ c) : ∃ E : Halt β → Prop, ¬ E .overflow ∧
    G.Ensures Γ (c.perform (G.machine l) n) (fun Γ' r => ∀ v, r = .value v →
      G.Formed Γ' v ∨ v.Unfired ∧ c = .force v) E := by
  have hvalue {act : Eval β σ (Value β σ)} {Q : List (Term β σ) → Value β σ → Prop} {E : Halt β → Prop}
      (h : G.Ensures Γ act (fun Γ' v => G.Forced Γ' v ∧ Q Γ' v) E) : G.Ensures Γ
        (act >>= fun v => pure (Reply.value v)) (fun Γ' r => ∀ v, r = .value v →
          G.Formed Γ' v ∨ v.Unfired ∧ c = .force v) E := by
    refine h.bind fun Γ' v _ hv => .pure ?_
    rintro _ ⟨⟩
    exact .inl hv.1.1
  have hsound := soundAt hG l n
  cases hc with
  | run hcode ht hframe hover => exact ⟨_, hover, hvalue (hsound.run hcode ht hframe)⟩
  | unfold hc hover => exact ⟨_, hover, hvalue (hsound.unfold hc)⟩
  | force hv hover => exact ⟨_, hover, hvalue (hsound.force hv)⟩
  | forced hv =>
      refine ⟨fun _ => False, id, (Ensures.force_forced hv.2).bind fun Γ' u hΓ hu => .pure ?_⟩
      subst hu
      rintro _ ⟨⟩
      exact .inl (hv.1.mono hΓ)
  | apply hf hargs hover => exact ⟨_, hover, hvalue (hsound.apply hf hargs)⟩
  | applySuspended hf hargs hover => exact ⟨_, hover, hvalue (ensures_apply hG hf hargs)⟩
  | applyForced hf hargs hover => exact ⟨_, hover, hvalue (hsound.applyForced hf hargs)⟩
  | applyRest hv hrest hover => exact ⟨_, hover, hvalue (hsound.applyRest hv hrest)⟩
  | readback hv hover => exact ⟨_, hover, (hsound.readback hv).bind fun _ _ _ _ => .pure nofun⟩
  | constant hs ht harity hover => exact ⟨_, hover, hvalue (hsound.step hs ht)⟩
  | @constantForce t s harity =>
      refine ⟨fun _ => False, id, (Ensures.force_forced rfl).bind fun Γ' u hΓ hu => .pure ?_⟩
      subst hu
      rintro _ ⟨⟩
      exact .inr ⟨⟨t, s, harity, rfl⟩, rfl⟩
  | constantForced hs ht harity hover => exact ⟨_, hover, hvalue (hsound.constant hs ht harity)⟩

end Ground

end TacticEngine
