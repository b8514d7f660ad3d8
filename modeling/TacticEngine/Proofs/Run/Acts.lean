/-
# TacticEngine.Proofs.Run.Acts -- acts that last, and what they keep.

An act with little fuel lasts if more fuel does not change its result, unless it used up what it had.
That is a tie between equal worlds.  If an act lasts, a property of its results makes another tie: it
relates equal worlds and values that have the property.  So invariants of evaluations are instances of
what is known about runs that go alike.
-/
import TacticEngine.Proofs.Run.Follows

namespace TacticEngine

variable {β σ α : Type}

/-- What logging for debuggers does. -/
theorem Act.debug_run (level : LogLevel) (text? : Unit → Option String) (w : World β σ) :
    Act.debug level text? w = if w.debugging then
      match text? () with
      | some text => .ok () (w.logged ⟨level, text⟩)
      | none => .error .overflow w
    else .ok () w := by
  show (if w.debugging then Act.bounded (text? ()) >>= fun text =>
    modify (·.logged ⟨level, text⟩) else pure ()) w = _
  cases w.debugging
  · rfl
  · cases text? () <;> rfl

/-! ## Acts that last -/

/-- Nothing differs; but nothing is claimed about an act that used up its fuel. -/
def Tie.same (β σ : Type) : Tie (Halt β) (World β σ) (Halt β) (World β σ) where
  state := Eq
  halt := Eq
  mute e _ := e = .exhausted
  escape _ _ := False

/-- The family gives what the act gives, unless that used up its fuel. -/
def Lasts (act : Act β σ α) (F : Family (Halt β) (World β σ) α) : Prop :=
  (Tie.same β σ).Follows Eq act F

theorem lasts_iff {act : Act β σ α} {F : Family (Halt β) (World β σ) α} :
    Lasts act F ↔ ∀ w, (∃ w', act w = .error .exhausted w') ∨ Yields F w (act w) := by
  constructor
  · intro h w
    rcases h w w rfl with ⟨e, w', hr, rfl⟩ | ⟨r', hy, hm⟩
    · exact .inl ⟨w', hr⟩
    · generalize act w = r at hm ⊢
      cases hm with
      | ok ha hw =>
          subst ha hw
          exact .inr hy
      | error he hw =>
          subst he hw
          exact .inr hy
      | escape he => exact he.elim
  · rintro h w w₁ rfl
    rcases h w with ⟨w', hr⟩ | hy
    · exact .inl ⟨.exhausted, w', hr, rfl⟩
    · refine .inr ⟨_, hy, ?_⟩
      cases act w with
      | ok a w' => exact .ok rfl rfl
      | error e w' => exact .error rfl rfl

theorem Lasts.const (act : Act β σ α) : Lasts act fun _ _ => act :=
  lasts_iff.mpr fun w => .inr (Yields.const act w)

/-! ## What acts keep -/

section

variable (keep : World β σ → Prop) (raised : Issue β → Prop) (V : α → Prop)

/-- From a world that is to be kept, the act gives a value with the property in such a world again, or
ends with one of the given issues in such a world, or uses up its fuel or the range of a machine
word. -/
def Keeps (act : Act β σ α) : Prop :=
  ∀ w, keep w → match act w with
    | .ok a w' => V a ∧ keep w'
    | .error (.issue e) w' => raised e ∧ keep w'
    | .error _ _ => True

/-- Equal worlds that are to be kept, and equal issues among the given ones. -/
def Tie.keeping : Tie (Halt β) (World β σ) (Halt β) (World β σ) where
  state w w' := w = w' ∧ keep w
  halt e e' := e = e' ∧ ∃ i, e = .issue i ∧ raised i
  mute e _ := ∀ i, e ≠ .issue i
  escape _ _ := False

end

section

variable {keep : World β σ → Prop} {raised : Issue β → Prop} {V : α → Prop} {act : Act β σ α}
  {F : Family (Halt β) (World β σ) α}

/-- An act that lasts and keeps goes like its family, as far as the property can tell. -/
theorem Lasts.follows (hl : Lasts act F) (hk : Keeps keep raised V act) :
    (Tie.keeping keep raised).Follows (fun a a' => a = a' ∧ V a) act F := by
  rintro w _ ⟨rfl, hw⟩
  have hkw := hk w hw
  rcases lasts_iff.mp hl w with ⟨w', hr⟩ | hy
  · exact .inl ⟨.exhausted, w', hr, nofun⟩
  · generalize act w = r at hkw hy ⊢
    cases r with
    | ok a w' => exact .inr ⟨_, hy, .ok ⟨rfl, hkw.1⟩ ⟨rfl, hkw.2⟩⟩
    | error e w' =>
        cases e with
        | issue i => exact .inr ⟨_, hy, .error ⟨rfl, i, rfl, hkw.1⟩ ⟨rfl, hkw.2⟩⟩
        | overflow => exact .inl ⟨.overflow, w', rfl, nofun⟩
        | exhausted => exact .inl ⟨.exhausted, w', rfl, nofun⟩

/-- What goes like a family keeps what the tie asks for. -/
theorem Tie.Follows.keeps {α' : Type} {V' : α → α' → Prop} {F' : Family (Halt β) (World β σ) α'}
    (h : (Tie.keeping keep raised).Follows V' act F') (hV : ∀ a a', V' a a' → V a) :
    Keeps keep raised V act := by
  intro w hw
  rcases h w w ⟨rfl, hw⟩ with ⟨e, w', hr, he⟩ | ⟨r', _, hm⟩
  · rw [hr]
    cases e with
    | issue i => exact absurd rfl (he i)
    | _ => trivial
  · generalize act w = r at hm ⊢
    cases hm with
    | ok ha hw' => exact ⟨hV _ _ ha, hw'.2⟩
    | error he hw' =>
        obtain ⟨rfl, i, rfl, hi⟩ := he
        exact ⟨hi, hw'.2⟩
    | escape he => exact he.elim

end

namespace Keeps

variable {γ : Type} {keep : World β σ → Prop} {raised : Issue β → Prop} {V : α → Prop}
  {U : γ → Prop}

theorem pure {a : α} (ha : V a) : Keeps keep raised V (Pure.pure a) := fun _ hw => ⟨ha, hw⟩

theorem fail {e : Issue β} (he : raised e) :
    Keeps keep raised V (throw (.issue e) : Act β σ α) := fun _ hw => ⟨he, hw⟩

theorem bind {act : Act β σ α} {f : α → Act β σ γ} (h : Keeps keep raised V act)
    (hf : ∀ a, V a → Keeps keep raised U (f a)) : Keeps keep raised U (act >>= f) := by
  intro w hw
  have hact := h w hw
  cases hr : act w with
  | ok a w' =>
      rw [hr] at hact
      rw [run_bind_ok hr]
      exact hf a hact.1 w' hact.2
  | error e w' =>
      rw [hr] at hact
      rw [run_bind_error hr]
      cases e <;> exact hact

theorem imp {act : Act β σ α} {raised' : Issue β → Prop} {V' : α → Prop}
    (h : Keeps keep raised V act) (hr : ∀ e, raised e → raised' e) (hV : ∀ a, V a → V' a) :
    Keeps keep raised' V' act := by
  intro w hw
  have hact := h w hw
  generalize act w = r at hact ⊢
  cases r with
  | ok a w' => exact ⟨hV a hact.1, hact.2⟩
  | error e w' =>
      cases e with
      | issue e => exact ⟨hr e hact.1, hact.2⟩
      | _ => trivial

end Keeps

end TacticEngine
