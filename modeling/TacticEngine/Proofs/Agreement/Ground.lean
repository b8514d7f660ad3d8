/-
# TacticEngine.Proofs.Agreement.Ground -- what two evaluators are compared on.

A `Ground` is what the evaluators share: steps, definitions, and what steps do.  It also says what does
not matter.  Terms count up to a likeness, issues up to a relation, and all admissible worlds are as
good as each other.  On a lawful ground what steps do depends on their arguments only, up to all that.

So what a term evaluates to can be said without a world.  An `Ideal` outcome is a value or a reason to
break off; a family `Gives` it if in every admissible world it yields something like it, or breaks off
because a machine word was too small.
-/
import TacticEngine.Machine.Eval
import TacticEngine.Proofs.Likeness.Equality
import TacticEngine.Proofs.Likeness.Reduction
import TacticEngine.Proofs.Run.Acts

namespace TacticEngine

variable {β σ α α' γ γ' : Type}

/-- What evaluators share, and what does not matter. -/
structure Ground (β σ : Type) where
  /-- The steps in force. -/
  steps : StepTable σ
  /-- The definitions in scope. -/
  env : Env β σ
  /-- What steps do, by the depth to which runs may nest. -/
  interp : Nat → Interp β σ
  /-- What steps do to values, where that is not what they do to terms. -/
  direct : Machine.DirectInterp β σ
  /-- Which terms are as good as each other. -/
  like : Likeness β σ
  /-- The admissible worlds. -/
  world : World β σ → Prop
  /-- Which issues are as good as each other. -/
  issue : Issue β → Issue β → Prop

/-- A value or a reason to break off, whatever the world. -/
abbrev Ideal (β α : Type) := EStateM (Halt β) Unit α

/-- Evaluations break off for like reasons. -/
inductive SameHalt (issue : Issue β → Issue β → Prop) : Halt β → Halt β → Prop where
  | issue {e e'} : issue e e' → SameHalt issue (.issue e) (.issue e')
  | overflow : SameHalt issue .overflow .overflow

theorem SameHalt.trans {issue : Issue β → Issue β → Prop}
    (hissue : ∀ a b c, issue a b → issue b c → issue a c) {a b c : Halt β}
    (h : SameHalt issue a b) (h' : SameHalt issue b c) : SameHalt issue a c := by
  cases h with
  | issue h =>
      cases h' with
      | issue h' => exact .issue (hissue _ _ _ h h')
  | overflow =>
      cases h' with
      | overflow => exact .overflow

namespace Ground

variable (G : Ground β σ)

/-- Reductions on a ground do all that running a metaprogram may do. -/
def reduction (l : Nat) : Reduce.Setting β σ := ⟨G.steps, .tactic, G.env, G.interp l⟩

/-- Compiled evaluations on a ground. -/
def machine (l : Nat) : Machine.Setting β σ := ⟨G.steps, G.env, G.interp l, G.direct⟩

theorem env_machine (l : Nat) : (G.machine l).env = G.env := rfl

/-- Evaluations in any two admissible worlds. -/
def tie : Tie (Halt β) (World β σ) (Halt β) (World β σ) where
  state w w' := G.world w ∧ G.world w'
  halt := SameHalt G.issue
  mute e _ := e = .exhausted
  escape _ _ := False

/-- An evaluation in any admissible world against an ideal outcome. -/
def ideal : Tie (Halt β) Unit (Halt β) (World β σ) where
  state _ w := G.world w
  halt := SameHalt G.issue
  mute _ _ := False
  escape h _ := h = .overflow

/-- In every admissible world the family gives something like the outcome, or breaks off because a
machine word was too small. -/
abbrev Gives (V : α → α' → Prop) (m : Ideal β α) (F : Family (Halt β) (World β σ) α') : Prop :=
  G.ideal.Follows V m F

/-- What it takes for what does not matter not to matter. -/
structure Lawful : Prop where
  /-- Terms are closed. -/
  closed : G.like.closed
  /-- Terms are in canonical form. -/
  canonical : G.like.canonical
  /-- Any constant may occur. -/
  const : ∀ c, G.like.const c
  symm : G.like.Symmetric
  trans : G.like.Transitive
  arity : G.like.KeepsArity
  issue_trans : ∀ {a b c}, G.issue a b → G.issue b c → G.issue a c
  fair : G.tie.Fair G.like
  /-- The steps of the table may occur. -/
  lookup : ∀ {c s}, G.steps.lookup c = some s → G.like.step s s
  /-- Definitions are closed terms in canonical form. -/
  unfoldable : ∀ {c t}, G.env.unfoldable c = some t → G.like.Alike 0 t t
  /-- What steps do depends on nothing that does not matter. -/
  interp : ∀ l {s s' ts ts'}, G.like.step s s' → G.like.AlikeArgs 0 ts ts' →
    G.tie.Follows (Option.Rel (G.like.Alike 0)) (G.interp l s.body G.env ts)
      fun l _ => G.interp l s'.body G.env ts'
  /-- The machine does no more with them than reduction does. -/
  direct : ∀ {s}, G.like.step s s → G.direct s.body = none
  /-- Runs that may nest deeper give the same. -/
  lasts : ∀ l body ts, Lasts (G.interp l body G.env ts) fun l _ => G.interp l body G.env ts

/-! ## Ideal outcomes -/

section Gives

variable {G} {V : α → α' → Prop} {U : γ → γ' → Prop} {m : Ideal β α}
  {F : Family (Halt β) (World β σ) α'}

theorem gives_iff : G.Gives V m F ↔
    ∀ w, G.world w → ∃ r, Yields F w r ∧ G.ideal.Matches V (m ()) r := by
  constructor
  · intro h w hw
    rcases h () w hw with ⟨_, _, _, hmute⟩ | hr
    · exact hmute.elim
    · exact hr
  · rintro h _ w hw
    exact .inr (h w hw)

/-- Families that yield the same give the same. -/
theorem Gives.of_yields {F' : Family (Halt β) (World β σ) α'}
    (hF : ∀ w r, Yields F w r → Yields F' w r) (h : G.Gives V m F) : G.Gives V m F' := by
  rw [gives_iff] at h ⊢
  intro w hw
  obtain ⟨r, hy, hm⟩ := h w hw
  exact ⟨r, hF w r hy, hm⟩

/-- What goes like all runs of a family gives what the family gives. -/
theorem Gives.congr {α'' : Type} {U : α' → α'' → Prop} {V' : α → α'' → Prop}
    {F' : Family (Halt β) (World β σ) α''}
    (hissue : ∀ {a b c}, G.issue a b → G.issue b c → G.issue a c)
    (hV : ∀ a b c, V a b → U b c → V' a c)
    (h : G.Gives V m F) (hF : ∀ l n, G.tie.Follows U (F l n) F') : G.Gives V' m F' := by
  rw [gives_iff] at h ⊢
  intro w hw
  obtain ⟨r, ⟨N, hN⟩, hm⟩ := h w hw
  have hr := hN N (Nat.le_refl N) N (Nat.le_refl N)
  rcases hF N N w w ⟨hw, hw⟩ with ⟨e, w₁, he, rfl⟩ | ⟨r', hy, hm'⟩
  · -- a run that used up its fuel gives nothing
    obtain rfl : r = .error .exhausted w₁ := hr.symm.trans he
    generalize m () = o at hm
    cases hm with
    | error he _ => cases he
    | escape he => cases he
  · refine ⟨r', hy, ?_⟩
    rw [hr] at hm'
    generalize m () = o at hm ⊢
    cases hm with
    | ok ha _ =>
        cases hm' with
        | ok hb hw' => exact .ok (hV _ _ _ ha hb) hw'.2
        | escape he => exact he.elim
    | error he _ =>
        cases hm' with
        | error he' hw' => exact .error (@SameHalt.trans β G.issue (fun _ _ _ => hissue) _ _ _ he he') hw'.2
        | escape he => exact he.elim
    | escape he =>
        subst he
        cases hm' with
        | error he' _ =>
            cases he' with
            | overflow => exact .escape rfl
        | escape he => exact he.elim

/-- Two outcomes of one family are both like what it yields. -/
theorem Gives.and {δ : Type} {a : α} {b : δ} {V' : δ → α' → Prop} (h : G.Gives V (pure a) F)
    (h' : G.Gives V' (pure b) F) : G.Gives (fun a c => V a c ∧ V' b c) (pure a) F := by
  rw [gives_iff] at h h' ⊢
  intro w hw
  obtain ⟨r, hy, hm⟩ := h w hw
  obtain ⟨r', hy', hm'⟩ := h' w hw
  obtain rfl := hy.unique hy'
  refine ⟨r, hy, ?_⟩
  cases hm with
  | ok ha hw' =>
      cases hm' with
      | ok hb _ => exact .ok ⟨ha, hb⟩ hw'
  | escape he => exact .escape he

theorem Gives.bind_pure {a : α} {m' : Ideal β γ} {F' : α' → Family (Halt β) (World β σ) γ'}
    (h : G.Gives V (pure a) F) (hF' : ∀ a', V a a' → G.Gives U m' (F' a')) :
    G.Gives U m' fun l n => F l n >>= fun x => F' x l n := by
  rw [gives_iff] at h ⊢
  intro w hw
  obtain ⟨r, hy, hm⟩ := h w hw
  cases hm with
  | ok ha hw' =>
      obtain ⟨r', hy', hm'⟩ := gives_iff.mp (hF' _ ha) _ hw'
      exact ⟨r', hy.bind hy', hm'⟩
  | escape he =>
      subst he
      exact ⟨_, hy.bind_error, .escape rfl⟩

theorem Gives.bind_throw {e : Halt β} {F' : α' → Family (Halt β) (World β σ) γ'}
    (h : G.Gives V (throw e) F) :
    G.Gives U (throw e) fun l n => F l n >>= fun x => F' x l n := by
  rw [gives_iff] at h ⊢
  intro w hw
  obtain ⟨r, hy, hm⟩ := h w hw
  cases hm with
  | error he hw' => exact ⟨_, hy.bind_error, .error he hw'⟩
  | escape he => exact ⟨_, hy.bind_error, .escape he⟩

theorem Gives.overflow : G.Gives V m fun _ _ => throw .overflow :=
  gives_iff.mpr fun w _ => ⟨_, Yields.const _ w, .escape rfl⟩

/-- What always breaks off like that gives anything. -/
theorem Gives.of_overflow (h : G.Gives V (throw .overflow) F) : G.Gives V m F := by
  rw [gives_iff] at h ⊢
  intro w hw
  obtain ⟨r, hy, hm⟩ := h w hw
  cases hm with
  | error he _ =>
      cases he with
      | overflow => exact ⟨_, hy, .escape rfl⟩
  | escape he => exact ⟨_, hy, .escape he⟩

/-- A family either gives something like the value in some world, or always breaks off. -/
theorem Gives.exists_or_overflow {a : α} (h : G.Gives V (pure a) F) :
    (∃ w w' a', G.world w ∧ Yields F w (.ok a' w') ∧ V a a') ∨ G.Gives V (throw .overflow) F := by
  by_cases hok : ∃ w w' a', G.world w ∧ Yields F w (.ok a' w') ∧ V a a'
  · exact .inl hok
  · refine .inr (gives_iff.mpr fun w hw => ?_)
    obtain ⟨r, hy, hm⟩ := gives_iff.mp h w hw
    cases hm with
    | ok ha _ => exact absurd ⟨w, _, _, hw, hy, ha⟩ hok
    | escape he => exact ⟨_, hy, .escape he⟩

/-- Where a machine word is too small nothing is left to be shown. -/
theorem Gives.bounded {a? : Option α'} {F' : α' → Family (Halt β) (World β σ) γ'} {m : Ideal β γ}
    (h : ∀ a, a? = some a → G.Gives U m (F' a)) :
    G.Gives U m fun l n => Act.bounded a? >>= fun a => F' a l n := by
  cases a? with
  | none => exact .overflow
  | some a => exact h a rfl

/-- An act that always succeeds, wherever it leaves the world. -/
theorem Gives.of_follows {α : Type} {act : Act β σ α}
    (h : G.tie.Follows (fun _ _ => True) act fun _ _ => act)
    (hok : ∀ w, ∃ a w', act w = .ok a w') :
    G.Gives (fun _ _ => True) (pure ()) fun _ _ => act := by
  refine gives_iff.mpr fun w hw => ⟨_, Yields.const act w, ?_⟩
  obtain ⟨a, w', hr⟩ := hok w
  rcases h w w ⟨hw, hw⟩ with ⟨e, w₁, he, -⟩ | ⟨r', ⟨N, hN⟩, hm⟩
  · rw [hr] at he
    cases he
  · obtain rfl : act w = r' := hN N (Nat.le_refl N) N (Nat.le_refl N)
    generalize act w = r' at hr hm
    subst hr
    cases hm with
    | ok _ hw' => exact .ok trivial hw'.2

theorem Lawful.gives_debug (hG : G.Lawful) (level : LogLevel) (text : String) :
    G.Gives (fun _ _ => True) (pure ()) fun _ _ => Act.debug level fun _ => some text := by
  refine Gives.of_follows (hG.fair.debug level text) fun w => ?_
  rw [Act.debug_run]
  cases w.debugging
  · exact ⟨_, _, rfl⟩
  · exact ⟨_, _, rfl⟩

theorem Lawful.gives_note (hG : G.Lawful) {s : Step σ} {ts : List (Term β σ)}
    (hs : G.like.step s s) (hts : G.like.AlikeArgs 0 ts ts) :
    G.Gives (fun _ _ => True) (pure ()) fun _ _ => Act.note (.fired s ts) :=
  Gives.of_follows (hG.fair.note hs hts) fun _ => ⟨_, _, rfl⟩

end Gives

end Ground

end TacticEngine
