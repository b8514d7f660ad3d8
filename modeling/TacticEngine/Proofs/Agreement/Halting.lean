/-
# TacticEngine.Proofs.Agreement.Halting -- evaluations that end, and what their ends are measured by.

A family of evaluations halts if from some fuel on it has one result, which is not that it ran out of
fuel.  That the machine halts is shown along the fuel of reductions that have ended.  These reductions
need not start from the very term that the machine works on, nor in its world: any term that is as good
and any admissible world will do.
-/
import TacticEngine.Proofs.Agreement.Parting
import TacticEngine.Proofs.Agreement.Soundness

namespace TacticEngine

variable {β σ α γ : Type}

namespace Ground

open Machine (Value Memory Eval sources)

/-! ## Reductions that have ended -/

section

variable {G : Ground β σ} {α' : Type} {V : α → α' → Prop} {F : Family (Halt β) (World β σ) α'}
  {act : Act β σ α'} {w w' : World β σ}

/-- A run that has ended is one that its family gives. -/
theorem Gives.matches {m : Ideal β α} (h : G.Gives V m F) (hl : Lasts act F) (hw : G.world w)
    (hend : Ended (act w)) : G.ideal.Matches V (m ()) (act w) := by
  rcases lasts_iff.mp hl w with ⟨w', hr⟩ | hy
  · rw [hr] at hend
    exact hend.elim
  · obtain ⟨r, hy', hm⟩ := gives_iff.mp h w hw
    obtain rfl := hy.unique hy'
    exact hm

theorem Gives.of_ok {a : α} {b : α'} (h : G.Gives V (pure a) F) (hl : Lasts act F)
    (hw : G.world w) (hr : act w = .ok b w') : V a b ∧ G.world w' := by
  have hm := h.matches hl hw (by rw [hr]; trivial)
  rw [hr] at hm
  cases hm with
  | ok hab hw' => exact ⟨hab, hw'⟩

theorem Gives.ne_issue {a : α} {e : Issue β} (h : G.Gives V (pure a) F) (hl : Lasts act F)
    (hw : G.world w) : act w ≠ .error (.issue e) w' := by
  intro hr
  have hm := h.matches hl hw (by rw [hr]; trivial)
  rw [hr] at hm
  cases hm with
  | escape he => cases he

/-- A run that has ended with a value or an issue did not leave the range of machine words. -/
theorem Gives.not_overflow (h : G.Gives V (throw .overflow) F) (hl : Lasts act F) (hw : G.world w) :
    ¬ Ended (act w) := by
  intro hend
  have hm := h.matches hl hw hend
  generalize act w = r at hend hm
  cases hm with
  | error he _ =>
      cases he with
      | overflow => exact hend
  | escape he =>
      subst he
      exact hend

end

/-! ## Families that halt -/

section

variable (G : Ground β σ)

/-- From every heap that is filled properly, the evaluations end with some amount of fuel. -/
def Halts (Γ : List (Term β σ)) (F : Family (Halt β) (Memory β σ) α) : Prop :=
  ∀ s, G.Filled Γ s.heap → G.world s.world →
    ∃ r, Yields F s r ∧ ∀ s', r ≠ .error .exhausted s'

end

variable {G : Ground β σ} {Γ : List (Term β σ)}

/-- An act that does not depend on fuel. -/
def Fuelless (m : Eval β σ α) : Prop := ∀ s s', m s ≠ .error .exhausted s'

theorem Fuelless.pure (a : α) : Fuelless (Pure.pure a : Eval β σ α) := by
  intro s s' h
  cases h

theorem Fuelless.throw (e : Issue β) : Fuelless (throw (.issue e) : Eval β σ α) := by
  intro s s' h
  cases h

theorem Fuelless.inHeap (f : Machine.Heap β σ → α × Machine.Heap β σ) :
    Fuelless (Machine.inHeap f) := by
  intro s s' h
  rw [Machine.inHeap_run] at h
  cases h

theorem Fuelless.bind {m : Eval β σ α} {f : α → Eval β σ γ} (hm : Fuelless m)
    (hf : ∀ a, Fuelless (f a)) : Fuelless (m >>= f) := by
  intro s s' h
  cases hr : m s with
  | ok a s₁ =>
      rw [run_bind_ok hr] at h
      exact hf a s₁ s' h
  | error e s₁ =>
      rw [run_bind_error hr] at h
      cases h
      exact hm s s' hr

theorem Fuelless.mapM {f : α → Eval β σ γ} (hf : ∀ a, Fuelless (f a)) (as : List α) :
    Fuelless (as.mapM f) := by
  induction as with
  | nil =>
      rw [List.mapM_nil]
      exact .pure []
  | cons a as ih =>
      rw [List.mapM_cons]
      exact (hf a).bind fun b => ih.bind fun bs => .pure (b :: bs)

theorem Fuelless.bounded (a? : Option α) : Fuelless (Machine.bounded a? : Eval β σ α) := by
  intro s s' h
  cases a? with
  | none => cases h
  | some a => cases h

theorem Fuelless.lookup (frame : List (Value β σ)) (i : Nat) : Fuelless (Machine.lookup frame i) := by
  unfold Machine.lookup
  cases frame[i]? with
  | none => exact .throw _
  | some v => exact .pure v

theorem Fuelless.ofTerm (t : Term β σ) : Fuelless (Machine.ofTerm t) := by
  have hthunk : Fuelless (Machine.inHeap (·.reserve Machine.newSlot) >>= fun slot =>
      Pure.pure (Value.thunk slot t [] none) : Eval β σ (Value β σ)) :=
    (Fuelless.inHeap _).bind fun slot => .pure _
  cases t with
  | lit l => exact .pure _
  | blob b => exact .pure _
  | _ => exact hthunk

theorem Fuelless.delayed (frame : List (Value β σ)) (d : Machine.Delayed β σ) :
    Fuelless (Machine.delayed frame d) := by
  cases d with
  | var i => exact .lookup frame i
  | lit l => exact .pure _
  | blob b => exact .pure _
  | thunk src code => exact (Fuelless.inHeap _).bind fun slot => .pure _

namespace Halts

variable {F : Family (Halt β) (Memory β σ) α}

theorem of_fuelless {m : Eval β σ α} (h : Fuelless m) : G.Halts Γ fun _ _ => m :=
  fun s _ _ => ⟨m s, Yields.const m s, h s⟩

theorem pure (a : α) : G.Halts Γ fun _ _ => (Pure.pure a : Eval β σ α) := of_fuelless (.pure a)

/-- How fuel is counted makes no difference. -/
theorem shift {F' : Family (Halt β) (Memory β σ) α} (a b : Nat)
    (hshift : ∀ l n, F' l (n + a) = F l (n + b)) (h : G.Halts Γ F) : G.Halts Γ F' := by
  intro s hs hw
  obtain ⟨r, hy, hr⟩ := h s hs hw
  exact ⟨r, hy.shift a b fun l n => by rw [hshift], hr⟩

theorem succ (h : G.Halts Γ fun l n => F l (n + 1)) : G.Halts Γ F :=
  h.shift 1 0 fun _ _ => rfl

/-- Of two evaluations in a row, the second one has to halt on what the first one is known to give. -/
theorem bind {F' : α → Family (Halt β) (Memory β σ) γ} {P : List (Term β σ) → α → Prop}
    {E : Halt β → Prop} (h : G.Halts Γ F) (hsound : ∀ l n, G.Ensures Γ (F l n) P E)
    (hE : ¬ E .overflow) (hF' : ∀ Γ' a, Γ <+: Γ' → P Γ' a → G.Halts Γ' (F' a)) :
    G.Halts Γ fun l n => F l n >>= fun a => F' a l n := by
  intro s hs hw
  obtain ⟨r, hy, hr⟩ := h s hs hw
  obtain ⟨N, hN⟩ := hy
  have hrun : F N N s = r := hN N (Nat.le_refl N) N (Nat.le_refl N)
  rcases hsound N N s hs hw with hover | hends
  · exact absurd hover hE
  · rw [hrun] at hends
    cases r with
    | ok a s' =>
        obtain ⟨Γ', hΓ, hs', hw', ha⟩ := hends
        obtain ⟨r', hy', hr'⟩ := hF' Γ' a hΓ ha s' hs' hw'
        exact ⟨r', Yields.bind ⟨N, hN⟩ hy', hr'⟩
    | error e s' =>
        refine ⟨.error e s', Yields.bind_error ⟨N, hN⟩, fun s'' heq => ?_⟩
        cases heq
        exact hr s' rfl

theorem map (h : G.Halts Γ F) (f : α → γ) : G.Halts Γ fun l n => F l n >>= fun a => Pure.pure (f a) := by
  intro s hs hw
  obtain ⟨r, hy, hr⟩ := h s hs hw
  cases r with
  | ok a s' => exact ⟨_, hy.bind (Yields.const (Pure.pure (f a)) s'), fun s'' heq => by cases heq⟩
  | error e s' =>
      refine ⟨_, hy.bind_error, fun s'' heq => ?_⟩
      cases heq
      exact hr s' rfl

theorem inWorld {A : Family (Halt β) (World β σ) α}
    (h : ∀ w, G.world w → ∃ r, Yields A w r ∧ ∀ w', r ≠ .error .exhausted w') :
    G.Halts Γ fun l n => Machine.inWorld (A l n) := by
  rintro ⟨heap, w⟩ _ hw
  obtain ⟨r, ⟨N, hN⟩, hr⟩ := h w hw
  have hrun (l : Nat) (hl : l ≥ N) (n : Nat) (hn : n ≥ N) :
      Machine.inWorld (A l n) ⟨heap, w⟩ = Machine.onHeap heap r := by
    rw [Machine.inWorld_run, hN l hl n hn]
  refine ⟨_, ⟨N, hrun⟩, fun s' heq => ?_⟩
  cases r with
  | ok a w' => cases heq
  | error e w' =>
      cases heq
      exact hr w' rfl

/-- Looking for a value before computing it. -/
theorem orElse {slot : Nat} {F : Family (Halt β) (Memory β σ) (Value β σ)} (h : G.Halts Γ F) :
    G.Halts Γ fun l n => (do
      match (← get).heap.read slot with
      | some v => Pure.pure v
      | none => F l n) := by
  intro s hs hw
  have hget : (get : Eval β σ (Memory β σ)) s = .ok s s := rfl
  cases hv : s.heap.read slot with
  | some v =>
      refine ⟨.ok v s, ⟨0, fun l _ n _ => ?_⟩, fun s' heq => by cases heq⟩
      refine (run_bind_ok hget).trans ?_
      rw [hv]
      rfl
  | none =>
      obtain ⟨r, ⟨N, hN⟩, hr⟩ := h s hs hw
      refine ⟨r, ⟨N, fun l hl n hn => ?_⟩, hr⟩
      refine (run_bind_ok hget).trans ?_
      rw [hv]
      exact hN l hl n hn

end Halts

/-! ## Measures -/

section

variable (G)

/-- With so much fuel, reducing something like the application has ended somewhere. -/
def EndsIn (n : Nat) (t : Term β σ) (as : List (Term β σ)) : Prop :=
  ∃ t' as' l w, G.like.Alike 0 t t' ∧ G.like.AlikeArgs 0 as as' ∧ G.world w ∧
    Ended (G.whnf (t'.apps as') l n w)

/-- The same if the head has been reduced. -/
def HeadEndsIn (n : Nat) (h : Term β σ) (as : List (Term β σ)) : Prop :=
  ∃ h' as' l w, G.like.Alike 0 h h' ∧ G.like.AlikeArgs 0 as as' ∧ G.world w ∧
    Ended (G.whnfApp h' as' l n w)

/-- The same for normalizing something like the term. -/
def NormEndsIn (n : Nat) (t : Term β σ) : Prop :=
  ∃ t' l w, G.like.Alike 0 t t' ∧ G.world w ∧ Ended (G.norm t' l n w)

/-- The same for normalizing one term after the other. -/
def NormsEndIn (n : Nat) (ts : List (Term β σ)) : Prop :=
  ∃ ts' l w, G.like.AlikeArgs 0 ts ts' ∧ G.world w ∧ Ended (G.norms ts' l n w)

end

theorem not_endsIn_zero {t : Term β σ} {as : List (Term β σ)} : ¬ G.EndsIn 0 t as := by
  rintro ⟨_, _, _, _, -, -, -, hend⟩
  exact hend

theorem not_headEndsIn_zero {h : Term β σ} {as : List (Term β σ)} : ¬ G.HeadEndsIn 0 h as := by
  rintro ⟨_, _, _, _, -, -, -, hend⟩
  exact hend

theorem not_normEndsIn_zero {t : Term β σ} : ¬ G.NormEndsIn 0 t := by
  rintro ⟨_, _, _, -, -, hend⟩
  exact hend

theorem endsIn_nil_iff {n : Nat} {t : Term β σ} : G.EndsIn n t [] ↔
    ∃ t' l w, G.like.Alike 0 t t' ∧ G.world w ∧ Ended (G.whnf t' l n w) := by
  constructor
  · rintro ⟨t', as', l, w, ht, has, hw, hend⟩
    obtain rfl := has.eq_nil_iff.mp rfl
    rw [Term.apps_nil] at hend
    exact ⟨t', l, w, ht, hw, hend⟩
  · rintro ⟨t', l, w, ht, hw, hend⟩
    exact ⟨t', [], l, w, ht, .nil, hw, by rwa [Term.apps_nil]⟩

theorem AlikeArgs_ne_nil {as as' : List (Term β σ)} (h : G.like.AlikeArgs 0 as as') (has : as ≠ []) :
    as' ≠ [] := fun hnil => has (h.eq_nil_iff.mpr hnil)

/-- If an application ends, so does its head. -/
theorem EndsIn.head {n : Nat} {t : Term β σ} {as : List (Term β σ)} (h : G.EndsIn n t as) :
    G.EndsIn n t [] := by
  obtain ⟨t', as', l, w, ht, has, hw, hend⟩ := h
  by_cases hnil : as' = []
  · subst hnil
    exact ⟨t', [], l, w, ht, .nil, hw, hend⟩
  · exact endsIn_nil_iff.mpr ⟨t', l, w, ht, hw, ((partsAt G l n).whnf hnil hend).1⟩

section

variable (hG : G.Lawful)

include hG

/-- What applications of canonical heads are like. -/
theorem exists_apps_of_like {t u : Term β σ} {as : List (Term β σ)} (ht : G.Good t)
    (h : G.like.Alike 0 (t.apps as) u) :
    ∃ t' as', u = t'.apps as' ∧ G.like.Alike 0 t t' ∧ G.like.AlikeArgs 0 as as' := by
  obtain ⟨t', as', rfl, ht', has⟩ := (hG.like_symm h).of_apps_right (fun c => ht.canonical c)
  exact ⟨t', as', rfl, hG.like_symm ht', has.symm hG.symm⟩

theorem EndsIn.of_apps {n : Nat} {t : Term β σ} {as : List (Term β σ)} (ht : G.Good t)
    (h : G.EndsIn n (t.apps as) []) : G.EndsIn n t as := by
  obtain ⟨u, l, w, hu, hw, hend⟩ := endsIn_nil_iff.mp h
  obtain ⟨t', as', rfl, ht', has⟩ := exists_apps_of_like hG ht hu
  exact ⟨t', as', l, w, ht', has, hw, hend⟩

/-- Reductions that end do not leave the range of machine words. -/
theorem EndsIn.not_fails {n : Nat} {t : Term β σ} (h : G.EndsIn n t []) :
    ¬ G.Fails t .overflow := by
  intro hfails
  obtain ⟨t', l, w, ht, hw, hend⟩ := endsIn_nil_iff.mp h
  exact (hfails.comes.congr_whnf hG ht).not_overflow (hG.lasts_whnf l n t') hw hend

/-- What is like a function that waits for arguments is one. -/
theorem Forced.lacks {v : Value β σ} (hv : G.Forced Γ v) (hf : v.isFunction = true) {u : Term β σ}
    (hu : G.like.Alike 0 v.source u) : ∃ h xs, u = h.apps xs ∧ G.like.Alike 0 v.head h ∧
      G.like.AlikeArgs 0 (sources v.args) xs ∧ G.Lacks h xs := by
  rw [Value.source_eq] at hu
  obtain ⟨h, xs, rfl, hh, hxs⟩ := exists_apps_of_like hG hv.headed.good hu
  refine ⟨h, xs, rfl, hh, hxs, ?_⟩
  obtain ⟨hv, -⟩ := hv
  cases hv with
  | @lam k b code frame held _ _ _ _ hlt =>
      rw [Value.head, Term.instantiate_lam (Nat.lt_of_le_of_lt (Nat.zero_le _) hlt)] at hh
      cases hh with
      | lam => exact .inl ⟨_, _, rfl, by rwa [← hxs.length_eq, Machine.length_sources]⟩
  | step hs ht _ hlt =>
      obtain ⟨s', hs', hss⟩ := exists_stepOf hG hs hh
      refine .inr ⟨s', hs', ?_⟩
      rwa [← hxs.length_eq, Machine.length_sources, ← (hG.arity hss).2]
  | _ => cases hf

/-- If an application ends whose head becomes a function, the function ends with what is left, which
takes less fuel. -/
theorem EndsIn.function {n : Nat} {t : Term β σ} {as : List (Term β σ)} {v : Value β σ}
    (h : G.EndsIn n t as) (has : as ≠ []) (hv : G.Forced Γ v) (hb : G.Becomes t v)
    (hf : v.isFunction = true) : ∃ k < n, G.HeadEndsIn k v.head (sources v.args ++ as) := by
  obtain ⟨t', as', l, w, ht, has', hw, hend⟩ := h
  obtain ⟨hhead, hleaves⟩ := (partsAt G l n).whnf (AlikeArgs_ne_nil has' has) hend
  have hcomes := (hb.comes hv).congr_whnf hG ht
  cases hr : G.whnf t' l n w with
  | ok u w' =>
      obtain ⟨hu, hw'⟩ := hcomes.of_ok (hG.lasts_whnf l n t') hw hr
      obtain ⟨x, xs, rfl, hx, hxs, hlacks⟩ := hv.lacks hG hf hu
      rw [hr] at hleaves
      obtain ⟨k, hk, hend'⟩ := hleaves x xs rfl hlacks
      exact ⟨k, hk, x, xs ++ as', l, w', hx, hxs.append has', hw', hend'⟩
  | error e w' =>
      cases e with
      | issue e => exact absurd hr (hcomes.ne_issue (hG.lasts_whnf l n t') hw)
      | _ =>
          rw [hr] at hhead
          exact hhead.elim

end

end Ground

end TacticEngine
