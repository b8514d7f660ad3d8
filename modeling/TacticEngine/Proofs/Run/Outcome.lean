/-
# TacticEngine.Proofs.Run.Outcome -- what runs end with.

What a run ends with is its value or the reason why it broke off, apart from the state it leaves.  A
recursion on fuel settles on an outcome in a state if all its runs from there, with enough fuel, have
that outcome.  It reaches an ending if they all have it from any state, with fuel that does not depend on
the state.

`Traced` says what is known of runs whose final state is as it should be.  What should be is a property
that the runs can lose but not gain, such as one of every event in a journal.
-/
import TacticEngine.Proofs.Run.Follows

namespace TacticEngine

variable {ε ρ β σ α γ : Type}

/-! ## What a run ends with -/

/-- What a run ended with, unless fuel or a machine word was too small. -/
def outcome? : EStateM.Result (Halt β) ρ α → Option (Except (Issue β) α)
  | .ok a _ => some (.ok a)
  | .error (.issue e) _ => some (.error e)
  | .error _ _ => none

/-- The run broke off because a machine word was too small. -/
def overflowed : EStateM.Result (Halt β) ρ α → Bool
  | .error .overflow _ => true
  | _ => false

theorem outcome?_eq_ok_iff {r : EStateM.Result (Halt β) ρ α} {a : α} :
    outcome? r = some (.ok a) ↔ ∃ s, r = .ok a s := by
  constructor
  · intro h
    cases r with
    | ok b s =>
        cases h
        exact ⟨s, rfl⟩
    | error e s => cases e <;> cases h
  · rintro ⟨s, rfl⟩
    rfl

theorem outcome?_eq_error_iff {r : EStateM.Result (Halt β) ρ α} {e : Issue β} :
    outcome? r = some (.error e) ↔ ∃ s, r = .error (.issue e) s := by
  constructor
  · intro h
    cases r with
    | ok b s => cases h
    | error e s =>
        cases e with
        | issue e =>
            cases h
            exact ⟨s, rfl⟩
        | _ => cases h
  · rintro ⟨s, rfl⟩
    rfl

/-- From some amount of fuel on, the runs from the state end with this. -/
def Settles (F : Nat → EStateM (Halt β) ρ α) (s : ρ) (x : Except (Issue β) α) : Prop :=
  ∃ N, ∀ n ≥ N, outcome? (F n s) = some x

/-- With no amount of fuel does a run from the state leave the range of machine words. -/
def InRange (F : Nat → EStateM (Halt β) ρ α) (s : ρ) : Prop := ∀ n, overflowed (F n s) = false

theorem Settles.unique {F : Nat → EStateM (Halt β) ρ α} {s : ρ} {x y : Except (Issue β) α}
    (hx : Settles F s x) (hy : Settles F s y) : x = y := by
  obtain ⟨N, hN⟩ := hx
  obtain ⟨N', hN'⟩ := hy
  have hmax := hN (max N N') (Nat.le_max_left _ _)
  rw [hN' (max N N') (Nat.le_max_right _ _)] at hmax
  exact (Option.some.inj hmax).symm

/-- Runs that halt within the range of machine words settle. -/
theorem Settles.of_yields {F : Nat → EStateM (Halt β) ρ α} {s : ρ} {r : EStateM.Result (Halt β) ρ α}
    (hr : Yields (fun _ n => F n) s r) (hhalts : ∀ s', r ≠ .error .exhausted s')
    (hrange : InRange F s) : ∃ x, outcome? r = some x ∧ Settles F s x := by
  obtain ⟨N, hN⟩ := hr
  have hrun (n : Nat) (hn : n ≥ N) : F n s = r := hN N (Nat.le_refl N) n hn
  have hex : ∃ x, outcome? r = some x := by
    cases r with
    | ok a s' => exact ⟨.ok a, rfl⟩
    | error e s' =>
        cases e with
        | issue e => exact ⟨.error e, rfl⟩
        | overflow =>
            have hover := hrange N
            rw [hrun N (Nat.le_refl N)] at hover
            cases hover
        | exhausted => exact absurd rfl (hhalts s')
  obtain ⟨x, hx⟩ := hex
  exact ⟨x, hx, N, fun n hn => by rw [hrun n hn, hx]⟩

/-- Runs from two states end alike: with the same, or by leaving the range of machine words, or not at
all. -/
def SameOutcome (F : Nat → EStateM (Halt β) ρ α) (s : ρ) (F' : Nat → EStateM (Halt β) ρ α)
    (s' : ρ) : Prop :=
  (∀ x, Settles F s x ↔ Settles F' s' x) ∧ (InRange F s ↔ InRange F' s')

theorem SameOutcome.congr {F F' G G' : Nat → EStateM (Halt β) ρ α} {s s' : ρ}
    (h : SameOutcome F s F' s') (hG : ∀ n, G n s = F n s) (hG' : ∀ n, G' n s' = F' n s') :
    SameOutcome G s G' s' := by
  simpa only [SameOutcome, Settles, InRange, hG, hG'] using h

theorem SameOutcome.symm {F F' : Nat → EStateM (Halt β) ρ α} {s s' : ρ} (h : SameOutcome F s F' s') :
    SameOutcome F' s' F s :=
  ⟨fun x => (h.1 x).symm, h.2.symm⟩

theorem SameOutcome.trans {F F' F'' : Nat → EStateM (Halt β) ρ α} {s s' s'' : ρ}
    (h : SameOutcome F s F' s') (h' : SameOutcome F' s' F'' s'') : SameOutcome F s F'' s'' :=
  ⟨fun x => (h.1 x).trans (h'.1 x), h.2.trans h'.2⟩

/-- One more unit of fuel makes no difference to how runs end, unless the first run leaves the range of machine
words. -/
theorem SameOutcome.succ {F : Nat → EStateM (Halt β) ρ α} {s : ρ} (h : overflowed (F 0 s) = false) :
    SameOutcome F s (fun n => F (n + 1)) s := by
  refine ⟨fun x => ⟨?_, ?_⟩, fun hrange n => hrange (n + 1), fun hrange n => ?_⟩
  · rintro ⟨N, hN⟩
    exact ⟨N, fun n hn => hN (n + 1) (by omega)⟩
  · rintro ⟨N, hN⟩
    refine ⟨N + 1, fun n hn => ?_⟩
    obtain ⟨n, rfl⟩ := Nat.exists_eq_add_of_le' (Nat.le_trans (Nat.le_add_left 1 N) hn)
    exact hN n (by omega)
  · cases n with
    | zero => exact h
    | succ n => exact hrange n

/-! ## Runs that go alike -/

/-- Runs that go alike end alike, unless the one used up its fuel. -/
structure Tie.Exact {ρ' : Type} (T : Tie (Halt β) ρ (Halt β) ρ') : Prop where
  mute : ∀ e s, T.mute e s → e = .exhausted
  halt : ∀ e e', T.halt e e' → e = e'
  escape : ∀ e s, ¬ T.escape e s

section

variable {T : Tie (Halt β) ρ (Halt β) ρ} (hT : T.Exact) {V : α → α → Prop} (hV : ∀ a a', V a a' → a = a')
  {F F' : Nat → EStateM (Halt β) ρ α} {G G' : Family (Halt β) ρ α} {s s' : ρ}

include hT hV

theorem Tie.Exact.settles (h : ∀ n, T.Follows V (F n) G) (hG : ∀ n, G n n = F' n) (hs : T.state s s')
    {x : Except (Issue β) α} (hx : Settles F s x) : Settles F' s' x := by
  obtain ⟨N, hN⟩ := hx
  have hend := hN N (Nat.le_refl N)
  rcases h N s s' hs with ⟨e, s₁, hr, he⟩ | ⟨r', ⟨N', hN'⟩, hm⟩
  -- A run that has settled was not cut short for want of fuel.
  · rw [hr, hT.mute e s₁ he] at hend
    cases hend
  · refine ⟨N', fun n hn => ?_⟩
    rw [← hG n, hN' n hn n hn, ← hend]
    generalize F N s = r at hm
    cases hm with
    | ok ha _ => exact congrArg (some ∘ Except.ok) (hV _ _ ha).symm
    | @error e _ _ _ he _ =>
        obtain rfl := hT.halt _ _ he
        cases e <;> rfl
    | escape he => exact absurd he (hT.escape _ _)

omit hV in
theorem Tie.Exact.inRange (h : ∀ n, T.Follows V (F n) G) (hG : ∀ n, G n n = F' n) (hs : T.state s s')
    (hrange : InRange F' s') : InRange F s := by
  intro n
  rcases h n s s' hs with ⟨e, s₁, hr, he⟩ | ⟨r', ⟨N', hN'⟩, hm⟩
  · rw [hr, hT.mute e s₁ he]
    rfl
  · have hin := hrange N'
    rw [← hG N', hN' N' (Nat.le_refl _) N' (Nat.le_refl _)] at hin
    generalize F n s = r at hm ⊢
    cases hm with
    | ok _ _ => rfl
    | @error e _ _ _ he _ =>
        obtain rfl := hT.halt _ _ he
        cases e with
        | overflow => exact hin
        | _ => rfl
    | escape he => exact absurd he (hT.escape _ _)

/-- If the runs of each of two families go like the other family, both end alike. -/
theorem SameOutcome.of_follows (h : ∀ n, T.Follows V (F n) G) (hG : ∀ n, G n n = F' n) (hs : T.state s s')
    (h' : ∀ n, T.Follows V (F' n) G') (hG' : ∀ n, G' n n = F n) (hs' : T.state s' s) :
    SameOutcome F s F' s' :=
  ⟨fun _ => ⟨fun hx => hT.settles hV h hG hs hx, fun hx => hT.settles hV h' hG' hs' hx⟩,
    fun hr => hT.inRange h' hG' hs' hr, fun hr => hT.inRange h hG hs hr⟩

end

/-! ## Endings -/

/-- How a run ended: with a value, or broken off for a reason. -/
def ending : EStateM.Result ε ρ α → Except ε α
  | .ok a _ => .ok a
  | .error e _ => .error e

/-- The state that a run leaves. -/
def final : EStateM.Result ε ρ α → ρ
  | .ok _ s => s
  | .error _ s => s

theorem ending_eq_ok_iff {r : EStateM.Result ε ρ α} {a : α} :
    ending r = .ok a ↔ ∃ s, r = .ok a s := by
  cases r <;> simp [ending]

theorem ending_eq_error_iff {r : EStateM.Result ε ρ α} {e : ε} :
    ending r = .error e ↔ ∃ s, r = .error e s := by
  cases r <;> simp [ending]

/-- An outcome is an ending that fuel and machine words have no part in. -/
theorem outcome?_eq_some_iff {r : EStateM.Result (Halt β) ρ α} {x : Except (Issue β) α} :
    outcome? r = some x ↔ ending r = x.mapError .issue := by
  cases x with
  | ok a => exact outcome?_eq_ok_iff.trans ending_eq_ok_iff.symm
  | error e => exact outcome?_eq_error_iff.trans ending_eq_error_iff.symm

/-- From some amount of fuel on, all runs end like this, whatever the state they start in. -/
def Reaches (F : Nat → EStateM ε ρ α) (x : Except ε α) : Prop :=
  ∃ N, ∀ n ≥ N, ∀ s, ending (F n s) = x

theorem overflowed_of_ending {r r' : EStateM.Result (Halt β) ρ α} (h : ending r = ending r') :
    overflowed r = overflowed r' := by
  cases r with
  | ok a s =>
      cases r' with
      | ok => rfl
      | error => cases h
  | error e s =>
      cases r' with
      | ok => cases h
      | error e' s' =>
          obtain rfl : e = e' := Except.error.inj h
          cases e <;> rfl

/-- Runs that end the same way, with any amount of fuel, end alike. -/
theorem SameOutcome.of_ending {F F' : Nat → EStateM (Halt β) ρ α} {s s' : ρ}
    (h : ∀ n, ending (F n s) = ending (F' n s')) : SameOutcome F s F' s' := by
  refine ⟨fun x => ?_, ?_⟩
  · simp only [Settles, outcome?_eq_some_iff, h]
  · simp only [InRange, fun n => overflowed_of_ending (h n)]

theorem Reaches.settles {F : Nat → EStateM (Halt β) ρ α} {x : Except (Issue β) α}
    (h : Reaches F (x.mapError .issue)) (s : ρ) : Settles F s x := by
  obtain ⟨N, hN⟩ := h
  exact ⟨N, fun n hn => outcome?_eq_some_iff.mpr (hN n hn s)⟩

theorem Reaches.unique [Inhabited ρ] {F : Nat → EStateM ε ρ α} {x y : Except ε α}
    (hx : Reaches F x) (hy : Reaches F y) : x = y := by
  obtain ⟨N, hN⟩ := hx
  obtain ⟨N', hN'⟩ := hy
  exact (hN (max N N') (Nat.le_max_left _ _) default).symm.trans
    (hN' (max N N') (Nat.le_max_right _ _) default)

theorem Reaches.const {m : EStateM ε ρ α} {x : Except ε α} (h : ∀ s, ending (m s) = x) :
    Reaches (fun _ => m) x :=
  ⟨0, fun _ _ => h⟩

theorem Reaches.pure (a : α) : Reaches (fun _ => (Pure.pure a : EStateM ε ρ α)) (.ok a) :=
  .const fun _ => rfl

theorem Reaches.throw (e : ε) :
    Reaches (fun _ => (MonadExcept.throw e : EStateM ε ρ α)) (.error e) :=
  .const fun _ => rfl

theorem Reaches.bind {F : Nat → EStateM ε ρ α} {G : α → Nat → EStateM ε ρ γ} {a : α}
    {x : Except ε γ} (hF : Reaches F (.ok a)) (hG : Reaches (G a) x) :
    Reaches (fun n => F n >>= fun b => G b n) x := by
  obtain ⟨N, hN⟩ := hF
  obtain ⟨N', hN'⟩ := hG
  refine ⟨max N N', fun n hn s => ?_⟩
  obtain ⟨s₁, hs₁⟩ := ending_eq_ok_iff.mp (hN n (by omega) s)
  exact (congrArg ending (run_bind_ok hs₁)).trans (hN' n (by omega) s₁)

theorem Reaches.bind_error {F : Nat → EStateM ε ρ α} {G : α → Nat → EStateM ε ρ γ} {e : ε}
    (hF : Reaches F (.error e)) : Reaches (fun n => F n >>= fun b => G b n) (.error e) := by
  obtain ⟨N, hN⟩ := hF
  refine ⟨N, fun n hn s => ?_⟩
  obtain ⟨s₁, hs₁⟩ := ending_eq_error_iff.mp (hN n hn s)
  exact congrArg ending (run_bind_error hs₁)

/-- How fuel is counted makes no difference to what is reached. -/
theorem Reaches.shift {F G : Nat → EStateM ε ρ α} {x : Except ε α} (a b : Nat)
    (hshift : ∀ n, F (n + a) = G (n + b)) (h : Reaches G x) : Reaches F x := by
  obtain ⟨N, hN⟩ := h
  refine ⟨N + a, fun n hn => ?_⟩
  obtain ⟨m, rfl⟩ := Nat.exists_eq_add_of_le' (Nat.le_trans (Nat.le_add_left a N) hn)
  rw [hshift]
  exact hN (m + b) (by omega)

/-- One more unit of fuel makes no difference to what is reached. -/
theorem Reaches.of_succ {F G : Nat → EStateM ε ρ α} {x : Except ε α}
    (hsucc : ∀ n, F (n + 1) = G n) (h : Reaches G x) : Reaches F x :=
  h.shift 1 0 hsucc

/-! ## Runs that leave a state as it should be -/

/-- If a run leaves a state as it should be, then it started in such a state; and if fuel was not what
it broke off for, then it ended as `Q` says. -/
def Traced (ok : ρ → Prop) (m : EStateM (Halt β) ρ α) (Q : Except (Halt β) α → Prop) : Prop :=
  ∀ s, ok (final (m s)) → ok s ∧ (ending (m s) ≠ .error .exhausted → Q (ending (m s)))

namespace Traced

variable {ok : ρ → Prop} {m : EStateM (Halt β) ρ α} {f : α → EStateM (Halt β) ρ γ}
  {P : Except (Halt β) α → Prop} {Q : Except (Halt β) γ → Prop}

theorem pure {a : α} (h : P (.ok a)) : Traced ok (Pure.pure a : EStateM (Halt β) ρ α) P :=
  fun _ hs => ⟨hs, fun _ => h⟩

theorem throw_bind {e : Halt β} (h : Q (.error e)) :
    Traced ok (MonadExcept.throw e >>= f) Q :=
  fun _ hs => ⟨hs, fun _ => h⟩

theorem exhausted : Traced ok (MonadExcept.throw .exhausted : EStateM (Halt β) ρ α) P :=
  fun _ hs => ⟨hs, fun hne => absurd rfl hne⟩

theorem imp {P' : Except (Halt β) α → Prop} (h : Traced ok m P) (hP : ∀ x, P x → P' x) :
    Traced ok m P' :=
  fun s hs => ⟨(h s hs).1, fun hne => hP _ ((h s hs).2 hne)⟩

/-- What follows a value may use what is known of the value. -/
theorem bind (hm : Traced ok m P) (hf : ∀ a, Traced ok (f a) fun x => P (.ok a) → Q x)
    (he : ∀ e, P (.error e) → Q (.error e)) : Traced ok (m >>= f) Q := by
  intro s hs
  cases hr : m s with
  | ok a s₁ =>
      rw [run_bind_ok hr] at hs ⊢
      have hrest := hf a s₁ hs
      have hfirst := hm s (by rw [hr]; exact hrest.1)
      rw [hr] at hfirst
      exact ⟨hfirst.1, fun hne => hrest.2 hne (hfirst.2 nofun)⟩
  | error e s₁ =>
      rw [run_bind_error hr] at hs ⊢
      have hfirst := hm s (by rw [hr]; exact hs)
      rw [hr] at hfirst
      exact ⟨hfirst.1, fun hne => he e (hfirst.2 fun h => hne (congrArg _ (Except.error.inj h)))⟩

end Traced

end TacticEngine
