/-
# TacticEngine.Proofs.Run.Follows -- runs with more and more fuel, and runs that go alike.

What a recursion on fuel computes is what it gives for all sufficiently large amounts of fuel.  Two
amounts matter here: how deep runs may be nested and how long a single one may get.  A `Family` has a
run for each pair, and it `Yields` a result if it gives it from some pair on.  A family that yields
anything yields one thing only.

A single run follows a family if, started in related states, it gives a result that is related to one
which the family yields.  `Tie` says which states and which halts count as related, after which halts
of the single run nothing is claimed, and with which halts the family may leave the comparison.
-/
import Mathlib.Data.List.Forall2
import TacticEngine.Run.World

namespace TacticEngine

variable {ε σ ε' σ' α α' γ γ' : Type}

theorem run_bind_ok {m : EStateM ε σ α} {f : α → EStateM ε σ γ} {s s₁ : σ} {a : α}
    (h : m s = .ok a s₁) : (m >>= f) s = f a s₁ := by
  show EStateM.bind m f s = _
  rw [EStateM.bind, h]

theorem run_bind_error {m : EStateM ε σ α} {f : α → EStateM ε σ γ} {s s₁ : σ} {e : ε}
    (h : m s = .error e s₁) : (m >>= f) s = .error e s₁ := by
  show EStateM.bind m f s = _
  rw [EStateM.bind, h]

/-! ## Families of runs -/

/-- Runs by the depth to which they may nest and by fuel. -/
abbrev Family (ε σ α : Type) := Nat → Nat → EStateM ε σ α

/-- From some depth and fuel on the family gives the result. -/
def Yields (F : Family ε σ α) (s : σ) (r : EStateM.Result ε σ α) : Prop :=
  ∃ N, ∀ l ≥ N, ∀ n ≥ N, F l n s = r

namespace Yields

variable {F : Family ε σ α} {s s₁ : σ}

theorem const (m : EStateM ε σ α) (s : σ) : Yields (fun _ _ => m) s (m s) :=
  ⟨0, fun _ _ _ _ => rfl⟩

/-- A family yields at most one result. -/
theorem unique {r r' : EStateM.Result ε σ α} (h : Yields F s r) (h' : Yields F s r') : r = r' := by
  obtain ⟨N, hN⟩ := h
  obtain ⟨N', hN'⟩ := h'
  have hr := hN (max N N') (Nat.le_max_left _ _) (max N N') (Nat.le_max_left _ _)
  have hr' := hN' (max N N') (Nat.le_max_right _ _) (max N N') (Nat.le_max_right _ _)
  exact hr.symm.trans hr'

theorem bind {G : α → Family ε σ γ} {a : α} {r : EStateM.Result ε σ γ}
    (hF : Yields F s (.ok a s₁)) (hG : Yields (G a) s₁ r) :
    Yields (fun l n => F l n >>= fun x => G x l n) s r := by
  obtain ⟨N, hN⟩ := hF
  obtain ⟨N', hN'⟩ := hG
  refine ⟨max N N', fun l hl n hn => ?_⟩
  exact (run_bind_ok (hN l (by omega) n (by omega))).trans (hN' l (by omega) n (by omega))

theorem bind_error {G : α → Family ε σ γ} {e : ε} (hF : Yields F s (.error e s₁)) :
    Yields (fun l n => F l n >>= fun x => G x l n) s (.error e s₁) := by
  obtain ⟨N, hN⟩ := hF
  exact ⟨N, fun l hl n hn => run_bind_error (hN l hl n hn)⟩

/-- How fuel is counted makes no difference to what is yielded. -/
theorem shift {F' : Family ε σ α} {r : EStateM.Result ε σ α} (a b : Nat)
    (hshift : ∀ l n, F' l (n + a) s = F l (n + b) s) (h : Yields F s r) : Yields F' s r := by
  obtain ⟨N, hN⟩ := h
  refine ⟨N + a, fun l hl n hn => ?_⟩
  obtain ⟨m, rfl⟩ := Nat.exists_eq_add_of_le' (Nat.le_trans (Nat.le_add_left a N) hn)
  rw [hshift]
  exact hN l (by omega) (m + b) (by omega)

end Yields

/-- The families differ only in how fuel is counted. -/
def Shifts (F F' : Family ε σ α) : Prop := ∃ a b, ∀ l n, F' l (n + a) = F l (n + b)

/-! ## Runs that go alike -/

/-- What it takes for a run and a family to go alike. -/
structure Tie (ε σ ε' σ' : Type) where
  /-- Related states. -/
  state : σ → σ' → Prop
  /-- Related halts. -/
  halt : ε → ε' → Prop
  /-- Nothing is claimed about a run that breaks off like this, in this state. -/
  mute : ε → σ → Prop
  /-- A family that breaks off like this, in this state, need not be like the run. -/
  escape : ε' → σ' → Prop

namespace Tie

variable {T : Tie ε σ ε' σ'} {V : α → α' → Prop} {U : γ → γ' → Prop}

/-- Results that are alike. -/
inductive Matches (T : Tie ε σ ε' σ') (V : α → α' → Prop) :
    EStateM.Result ε σ α → EStateM.Result ε' σ' α' → Prop where
  | ok {a a' s s'} : V a a' → T.state s s' → Matches T V (.ok a s) (.ok a' s')
  | error {e e' s s'} : T.halt e e' → T.state s s' → Matches T V (.error e s) (.error e' s')
  | escape {r e' s'} : T.escape e' s' → Matches T V r (.error e' s')

/-- The run goes like the family, from any related states. -/
def Follows (T : Tie ε σ ε' σ') (V : α → α' → Prop) (m : EStateM ε σ α)
    (F : Family ε' σ' α') : Prop :=
  ∀ s s', T.state s s' →
    (∃ e s₁, m s = .error e s₁ ∧ T.mute e s₁) ∨ ∃ r', Yields F s' r' ∧ T.Matches V (m s) r'

theorem Matches.imp {V' : α → α' → Prop} (hV : ∀ a a', V a a' → V' a a')
    {r : EStateM.Result ε σ α} {r' : EStateM.Result ε' σ' α'} (h : T.Matches V r r') :
    T.Matches V' r r' := by
  cases h with
  | ok ha hs => exact .ok (hV _ _ ha) hs
  | error he hs => exact .error he hs
  | escape he => exact .escape he

theorem Follows.imp {m : EStateM ε σ α} {F : Family ε' σ' α'} {V' : α → α' → Prop}
    (hV : ∀ a a', V a a' → V' a a') (h : T.Follows V m F) : T.Follows V' m F := by
  intro s s' hs
  rcases h s s' hs with hmute | ⟨r', hy, hm⟩
  · exact .inl hmute
  · exact .inr ⟨r', hy, hm.imp hV⟩

/-- A single run followed by another one that is always the same. -/
theorem Follows.const {m : EStateM ε σ α} {m' : EStateM ε' σ' α'}
    (h : ∀ s s', T.state s s' → T.Matches V (m s) (m' s')) :
    T.Follows V m fun _ _ => m' :=
  fun s s' hs => .inr ⟨m' s', Yields.const m' s', h s s' hs⟩

theorem Follows.pure {a : α} {a' : α'} (h : V a a') :
    T.Follows V (Pure.pure a) fun _ _ => Pure.pure a' :=
  .const fun _ _ hs => .ok h hs

theorem Follows.throw {e : ε} {e' : ε'} (h : T.halt e e') :
    T.Follows V (MonadExcept.throw e : EStateM ε σ α) fun _ _ => MonadExcept.throw e' :=
  .const fun _ _ hs => .error h hs

theorem Follows.mute {e : ε} {F : Family ε' σ' α'} (h : ∀ s, T.mute e s) :
    T.Follows V (MonadExcept.throw e) F :=
  fun s _ _ => .inl ⟨e, s, rfl, h s⟩

theorem Follows.bind {m : EStateM ε σ α} {F : Family ε' σ' α'} {f : α → EStateM ε σ γ}
    {G : α' → Family ε' σ' γ'} (hm : T.Follows V m F)
    (hf : ∀ a a', V a a' → T.Follows U (f a) (G a')) :
    T.Follows U (m >>= f) fun l n => F l n >>= fun x => G x l n := by
  intro s s' hs
  rcases hm s s' hs with ⟨e, s₁, hr, he⟩ | ⟨r', hy, hmatch⟩
  · exact .inl ⟨e, s₁, run_bind_error hr, he⟩
  · generalize hr : m s = r at hmatch
    cases hmatch with
    | ok ha hs₁ =>
        rcases hf _ _ ha _ _ hs₁ with ⟨e, s₂, hr₂, he⟩ | ⟨r₂, hy₂, hmatch₂⟩
        · exact .inl ⟨e, s₂, (run_bind_ok hr).trans hr₂, he⟩
        · refine .inr ⟨r₂, hy.bind hy₂, ?_⟩
          rwa [run_bind_ok hr]
    | error he hs₁ =>
        refine .inr ⟨_, hy.bind_error, ?_⟩
        rw [run_bind_error hr]
        exact .error he hs₁
    | escape he => exact .inr ⟨_, hy.bind_error, .escape he⟩

theorem Follows.shift {m : EStateM ε σ α} {F F' : Family ε' σ' α'} (a b : Nat)
    (hshift : ∀ l n, F' l (n + a) = F l (n + b)) (h : T.Follows V m F) : T.Follows V m F' := by
  intro s s' hs
  rcases h s s' hs with hmute | ⟨r', hy, hm⟩
  · exact .inl hmute
  · exact .inr ⟨r', hy.shift a b (fun l n => by rw [hshift]), hm⟩

theorem Follows.of_shifts {m : EStateM ε σ α} {F F' : Family ε' σ' α'} (hshifts : Shifts F F')
    (h : T.Follows V m F) : T.Follows V m F' := by
  obtain ⟨a, b, hshift⟩ := hshifts
  exact h.shift a b hshift

theorem Follows.of_succ {m : EStateM ε σ α} {F F' : Family ε' σ' α'}
    (hsucc : ∀ l n, F' l (n + 1) = F l n) (h : T.Follows V m F) : T.Follows V m F' :=
  h.shift 1 0 hsucc

theorem Follows.succ {m : EStateM ε σ α} {F : Family ε' σ' α'}
    (h : T.Follows V m fun l n => F l (n + 1)) : T.Follows V m F :=
  h.of_succ fun _ _ => rfl

/-- What goes like all runs of a family goes like those in which both amounts of fuel are the same. -/
theorem Follows.diagonal {m : EStateM ε σ α} {F : Family ε' σ' α'} (h : T.Follows V m F) :
    T.Follows V m fun l _ => F l l := by
  intro s s' hs
  rcases h s s' hs with hmute | ⟨r', ⟨N, hN⟩, hm⟩
  · exact .inl hmute
  · exact .inr ⟨r', ⟨N, fun l hl _ _ => hN l hl l hl⟩, hm⟩

/-- One more level makes no difference to what a family yields. -/
theorem Follows.of_level {m : EStateM ε σ α} {G G' : Nat → EStateM ε' σ' α'}
    (hsucc : ∀ l, G' (l + 1) = G l) (h : T.Follows V m fun l _ => G l) :
    T.Follows V m fun l _ => G' l := by
  intro s s' hs
  rcases h s s' hs with hmute | ⟨r', ⟨N, hN⟩, hm⟩
  · exact .inl hmute
  · refine .inr ⟨r', ⟨N + 1, fun l hl n hn => ?_⟩, hm⟩
    obtain ⟨l, rfl⟩ := Nat.exists_eq_add_of_lt (Nat.lt_of_lt_of_le (Nat.zero_lt_succ N) hl)
    have hrun : G' (0 + l + 1) s' = G l s' := by rw [Nat.zero_add, hsucc]
    exact hrun.trans (hN l (by omega) N (Nat.le_refl N))

theorem Follows.mapM {R : γ → γ' → Prop} {f : γ → EStateM ε σ α} {F : γ' → Family ε' σ' α'}
    (hf : ∀ c c', R c c' → T.Follows V (f c) (F c')) :
    ∀ {cs : List γ} {cs' : List γ'}, List.Forall₂ R cs cs' →
      T.Follows (List.Forall₂ V) (cs.mapM f) fun l n => cs'.mapM fun c' => F c' l n
  | _, _, .nil => by
      simp only [List.mapM_nil]
      exact .pure .nil
  | _, _, .cons hc hcs => by
      simp only [List.mapM_cons]
      refine (hf _ _ hc).bind fun a a' ha => ?_
      exact (Follows.mapM hf hcs).bind fun as as' has => .pure (.cons ha has)

/-- If runs go alike, then so does what is made of their results, provided that this respects how results are
compared. -/
theorem Follows.through {ε₂ ε₂' : Type} {T₂ : Tie ε₂ σ ε₂' σ'} {m : EStateM ε σ α} {F : Family ε' σ' α'}
    (f : EStateM.Result ε σ α → EStateM.Result ε₂ σ γ)
    (f' : EStateM.Result ε' σ' α' → EStateM.Result ε₂' σ' γ')
    (hstate : ∀ s s', T₂.state s s' → T.state s s')
    (hmute : ∀ e s, T.mute e s → ∃ e₂ s₂, f (.error e s) = .error e₂ s₂ ∧ T₂.mute e₂ s₂)
    (hmatch : ∀ r r', T.Matches V r r' → T₂.Matches U (f r) (f' r')) (h : T.Follows V m F) :
    T₂.Follows U (fun s => f (m s)) fun l n s => f' (F l n s) := by
  intro s s' hs
  rcases h s s' (hstate s s' hs) with ⟨e, s₁, hr, he⟩ | ⟨r', ⟨N, hN⟩, hm⟩
  · left
    simp only [hr]
    exact hmute e s₁ he
  · exact .inr ⟨f' r', ⟨N, fun l hl n hn => congrArg f' (hN l hl n hn)⟩, hmatch _ _ hm⟩

/-- A run goes like a family if it goes like another one, all runs of which go like that family; provided
that wherever one of these says nothing, so does the first run. -/
theorem Follows.trans {ε₂ σ₂ α₂ : Type} {T' : Tie ε' σ' ε₂ σ₂} {T₂ : Tie ε σ ε₂ σ₂} {V' : α' → α₂ → Prop}
    {V₂ : α → α₂ → Prop} {m : EStateM ε σ α} {F : Family ε' σ' α'} {F₂ : Family ε₂ σ₂ α₂}
    (h : T.Follows V m F) (h' : ∀ l n, T'.Follows V' (F l n) F₂)
    (hstate : ∀ s s₂, T₂.state s s₂ → ∃ s', T.state s s' ∧ T'.state s' s₂)
    (hmute : ∀ e s, T.mute e s → T₂.mute e s)
    (hmid : ∀ r e s, T.Matches V r (.error e s) → T'.mute e s →
      ∃ e₁ s₁, r = .error e₁ s₁ ∧ T₂.mute e₁ s₁)
    (hmatch : ∀ r r' r₂, T.Matches V r r' → T'.Matches V' r' r₂ → T₂.Matches V₂ r r₂) :
    T₂.Follows V₂ m F₂ := by
  intro s s₂ hs
  obtain ⟨s', hs₁, hs'⟩ := hstate s s₂ hs
  rcases h s s' hs₁ with ⟨e, s₁, hr, he⟩ | ⟨r', ⟨N, hN⟩, hm⟩
  · exact .inl ⟨e, s₁, hr, hmute e s₁ he⟩
  · have hr' := hN N (Nat.le_refl N) N (Nat.le_refl N)
    rcases h' N N s' s₂ hs' with ⟨e, s₁, hr, he⟩ | ⟨r₂, hy, hm'⟩
    · obtain rfl : r' = .error e s₁ := hr'.symm.trans hr
      exact .inl (hmid _ e s₁ hm he)
    · exact .inr ⟨r₂, hy, hmatch _ _ _ hm (hr' ▸ hm')⟩

end Tie

end TacticEngine
