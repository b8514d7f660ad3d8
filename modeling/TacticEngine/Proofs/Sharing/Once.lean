/-
# TacticEngine.Proofs.Sharing.Once -- suspended computations are evaluated once.

A suspended computation that is forced is evaluated only if its slot is empty, and while it is evaluated
nobody fills its slot: so nobody has evaluated it meanwhile.  From then on the slot has the value, and
forcing the computation again gives this value without doing anything.

Reading back forces what it meets and then puts terms together.  So reading the same value back again gives
the same term, and nothing happens: no step is fired, and no world is asked.
-/
import TacticEngine.Proofs.Machine.Slots

namespace TacticEngine.Machine

variable {β σ α γ : Type}

theorem run_bind_eq_ok_iff {ε ρ : Type} {m : EStateM ε ρ α} {f : α → EStateM ε ρ γ} {s s' : ρ} {b : γ} :
    (m >>= f) s = .ok b s' ↔ ∃ a s₁, m s = .ok a s₁ ∧ f a s₁ = .ok b s' := by
  constructor
  · intro h
    cases hr : m s with
    | ok a s₁ => exact ⟨a, s₁, rfl, (run_bind_ok hr).symm.trans h⟩
    | error e s₁ => cases (run_bind_error hr).symm.trans h
  · rintro ⟨a, s₁, hr, h⟩
    exact (run_bind_ok hr).trans h

section

variable {cfg : Setting β σ} {R : Ranks} {c : ℚ} {n : Nat} {s s' s'' : Memory β σ} {v u : Value β σ}

/-! ## Forcing -/

/-- Looking into a slot that has a value. -/
theorem read_or_run {slot : Nat} (h : s.heap.read slot = some v) (m : Eval β σ (Value β σ)) :
    (do
      match (← get).heap.read slot with
      | some v => pure v
      | none => m : Eval β σ (Value β σ)) s = .ok v s := by
  have hget : (get : Eval β σ (Memory β σ)) s = .ok s s := rfl
  rw [run_bind_ok hget, h]
  rfl

/-- Looking into a slot that has no value. -/
theorem run_of_empty {slot : Nat} (h : s.heap.read slot = none) (m : Eval β σ (Value β σ)) :
    (do
      match (← get).heap.read slot with
      | some v => pure v
      | none => m : Eval β σ (Value β σ)) s = m s := by
  have hget : (get : Eval β σ (Memory β σ)) s = .ok s s := rfl
  rw [run_bind_ok hget, h]

/-- While a suspended computation is evaluated, its slot stays empty. -/
theorem evaluate_alone (hcfg : cfg.Slotless) {slot : Nat} {src : Term β σ} {frame : List (Value β σ)}
    {code? : Option (Code β σ)} (hv : (Value.thunk slot src frame code?).Below R c)
    (hs : s.heap.Tidy R) (hempty : s.heap.read slot = none) :
    (final (evaluate cfg n src frame code? s)).heap.read slot = none := by
  obtain ⟨q, hslot, -, hframe, hcode⟩ := hv
  obtain ⟨-, -, -, -, halone, -⟩ := (growsAt hcfg n).evaluate src hframe hcode s hs
  exact (halone hslot le_rfl).trans hempty

/-- A suspended computation that has been forced has its value in its slot. -/
theorem read_of_force (hcfg : cfg.Slotless) {slot : Nat} {src : Term β σ} {frame : List (Value β σ)}
    {code? : Option (Code β σ)} (hv : (Value.thunk slot src frame code?).Below R c)
    (hs : s.heap.Tidy R) (hrun : force cfg n (.thunk slot src frame code?) s = .ok u s') :
    s'.heap.read slot = some u := by
  cases n with
  | zero => cases hrun
  | succ n =>
      rw [force_thunk] at hrun
      cases hread : s.heap.read slot with
      | some old =>
          cases (read_or_run hread _).symm.trans hrun
          exact hread
      | none =>
          have halone := @evaluate_alone _ _ cfg R c n s hcfg slot src frame code? hv hs hread
          replace hrun := (run_of_empty hread _).symm.trans hrun
          obtain ⟨a, s₁, heval, hfill⟩ := run_bind_eq_ok_iff.mp hrun
          obtain ⟨q, hslot, -, hframe, hcode⟩ := hv
          obtain ⟨R', hR, htidy, -⟩ := (growsAt hcfg n).evaluate src hframe hcode s hs
          rw [heval, final] at halone htidy
          have hlt : slot < s₁.heap.slots.size := by
            rw [htidy.size]
            exact (List.getElem?_eq_some_iff.mp (getElem?_extend hR hslot)).1
          cases (inHeap_run _ _ _).symm.trans hfill
          rw [Heap.read_fill_of_none halone, if_pos ⟨rfl, hlt⟩, Heap.fill_fst_of_none halone]

/-- Forcing a value again gives the same again and changes nothing, whatever has been done meanwhile. -/
theorem force_again (hcfg : cfg.Slotless) {m : Nat} (hv : v.Below R c) (hs : s.heap.Tidy R)
    (hrun : force cfg n v s = .ok u s') (hle : s'.heap.Le s''.heap) :
    force cfg (m + 1) v s'' = .ok u s'' := by
  cases hv' : v.isThunk with
  | false =>
      cases n with
      | zero => cases hrun
      | succ n =>
          rw [force_of_forced hv'] at hrun ⊢
          cases hrun
          rfl
  | true =>
      cases v with
      | thunk slot src frame code? =>
          have hread := hle.read (read_of_force hcfg hv hs hrun)
          rw [force_thunk]
          exact read_or_run hread _
      | _ => cases hv'

/-- Suspended computations are evaluated at most once. -/
structure EvaluatesOnce (cfg : Setting β σ) : Prop where
  /-- Whatever the machine does, heaps stay tidy and keep what is in them. -/
  grows : ∀ n, GrowsAt cfg n
  /-- While a suspended computation is evaluated its slot stays empty: nobody else has evaluated it. -/
  alone : ∀ {R : Ranks} {c : ℚ} {slot : Nat} {src : Term β σ} {frame : List (Value β σ)}
    {code? : Option (Code β σ)} {s : Memory β σ}, (Value.thunk slot src frame code?).Below R c →
    s.heap.Tidy R → s.heap.read slot = none →
    ∀ n, (final (evaluate cfg n src frame code? s)).heap.read slot = none
  /-- Once it has been forced, forcing it gives its value and does nothing. -/
  again : ∀ {R : Ranks} {c : ℚ} {v u : Value β σ} {s s' s'' : Memory β σ} {n : Nat}, v.Below R c →
    s.heap.Tidy R → force cfg n v s = .ok u s' → s'.heap.Le s''.heap →
    ∀ m, force cfg (m + 1) v s'' = .ok u s''

theorem evaluatesOnce (hcfg : cfg.Slotless) : EvaluatesOnce cfg where
  grows := growsAt hcfg
  alone hv hs hempty _ := evaluate_alone hcfg hv hs hempty
  again hv hs hrun hle _ := force_again hcfg hv hs hrun hle

end

/-! ## Evaluations that may be repeated -/

/-- From a tidy heap, an evaluation that gives a value gives it again wherever what was in the heap then
is still there, and it changes nothing then. -/
def Repeats (R : Ranks) (m : Eval β σ α) (P : Ranks → α → Prop) : Prop :=
  ∀ s a s', s.heap.Tidy R → m s = .ok a s' → ∃ R', R <+: R' ∧ s'.heap.Tidy R' ∧ s.heap.Le s'.heap ∧
    P R' a ∧ ∀ s'', s'.heap.Le s''.heap → m s'' = .ok a s''

namespace Repeats

variable {R : Ranks} {P : Ranks → α → Prop} {Q : Ranks → γ → Prop} {m : Eval β σ α}

theorem pure {a : α} (h : P R a) : Repeats R (Pure.pure a : Eval β σ α) P := by
  rintro s _ _ hs ⟨⟩
  exact ⟨R, List.prefix_rfl, hs, .refl _, h, fun _ _ => rfl⟩

theorem throw {e : Halt β} : Repeats R (MonadExcept.throw e : Eval β σ α) P := by
  rintro s _ _ hs ⟨⟩

theorem bind {f : α → Eval β σ γ} (hm : Repeats R m P)
    (hf : ∀ R' a, R <+: R' → P R' a → Repeats R' (f a) Q) : Repeats R (m >>= f) Q := by
  intro s b s' hs hr
  obtain ⟨a, s₁, hr₁, hr₂⟩ := run_bind_eq_ok_iff.mp hr
  obtain ⟨R₁, hR₁, hs₁, hle₁, ha, hagain₁⟩ := hm s a s₁ hs hr₁
  obtain ⟨R₂, hR₂, hs₂, hle₂, hb, hagain₂⟩ := hf R₁ a hR₁ ha s₁ b s' hs₁ hr₂
  refine ⟨R₂, hR₁.trans hR₂, hs₂, hle₁.trans hle₂, hb, fun s'' hle => ?_⟩
  exact run_bind_eq_ok_iff.mpr ⟨a, s'', hagain₁ s'' (hle₂.trans hle), hagain₂ s'' hle⟩

theorem bounded {a? : Option α} :
    Repeats R (Machine.bounded a? : Eval β σ α) fun _ _ => True := by
  intro s a s' hs hr
  cases a? with
  | none => cases hr
  | some a =>
      cases hr
      exact ⟨R, List.prefix_rfl, hs, .refl _, trivial, fun _ _ => rfl⟩

theorem mapM {δ : Type} {f : δ → Eval β σ α} {V : Ranks → δ → Prop}
    (hmono : ∀ R R' d, R <+: R' → V R d → V R' d) (hf : ∀ R d, V R d → Repeats R (f d) fun _ _ => True) :
    ∀ {R : Ranks} {ds : List δ}, (∀ d ∈ ds, V R d) → Repeats R (ds.mapM f) fun _ _ => True
  | R, [], _ => by
      rw [List.mapM_nil]
      exact pure trivial
  | R, d :: ds, hds => by
      obtain ⟨hd, hds⟩ := List.forall_mem_cons.mp hds
      rw [List.mapM_cons]
      refine (hf R d hd).bind fun R₁ a hR _ => ?_
      have hds₁ : ∀ d ∈ ds, V R₁ d := fun d' hd' => hmono R R₁ d' hR (hds d' hd')
      exact (mapM hmono hf hds₁).bind fun R₂ as _ _ => pure trivial

end Repeats

variable {cfg : Setting β σ} {R : Ranks} {c : ℚ}

theorem repeats_force (hcfg : cfg.Slotless) {n : Nat} {v : Value β σ} (hv : v.Below R c) :
    Repeats R (force cfg n v) (Settled c) := by
  intro s u s' hs hr
  obtain ⟨R', hR, htidy, hle, -, hu⟩ := (growsAt hcfg n).force hv s hs
  rw [hr] at htidy hle
  refine ⟨R', hR, htidy, hle, hu u s' hr, fun s'' hle' => ?_⟩
  cases n with
  | zero => cases hr
  | succ n => exact force_again hcfg hv hs hr hle'

/-- Reading a value back again gives the same term, and nothing happens. -/
theorem repeats_readback (hcfg : cfg.Slotless) : ∀ {n : Nat} {R : Ranks} {v : Value β σ}, v.Below R c →
    Repeats R (readback cfg n v) fun _ _ => True
  | 0, _, _, _ => .throw
  | n + 1, R, v, hv => by
      rw [readback_succ]
      refine (repeats_force hcfg hv).bind fun R₁ u _ hu => ?_
      rw [hu.2]
      refine Repeats.bounded.bind fun R₂ h hR _ => ?_
      exact (Repeats.mapM (V := fun R v => v.Below R c) (fun _ _ _ hR hv => hv.mono hR le_rfl)
        (fun _ _ hv => repeats_readback hcfg hv) (mono_all hR hu.1.args)).bind
        fun R₃ ts _ _ => .pure trivial

end TacticEngine.Machine
