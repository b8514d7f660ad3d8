/-
# TacticEngine.Proofs.Pairing.Values -- values over two heaps.

Two evaluations may do the same and still number their slots differently, because one of them took some slots
earlier than the other one.  A `Pairing` says which slots of their heaps belong together.  Code and values are
paired if they are the same but for the numbers of their slots; so they stand for the same terms, and the same
branches are chosen for them.

There is one more difference: a suspended term may have been compiled already on the left, and be compiled on the
right only when it is needed.
-/
import TacticEngine.Proofs.Machine.Source

namespace TacticEngine.Machine

variable {β σ α γ : Type}

/-- Which slots of two heaps belong together. -/
structure Pairing (β σ : Type) where
  /-- The slots that belong together, the one on the left first. -/
  pairs : Nat → Nat → Prop
  /-- The slot on the left is that of a closed term, the code of which has been made on the left alone, with the slots
  from the given one on. -/
  early : Nat → Nat → Term β σ → Prop

/-- The second pairing has more slots. -/
structure Pairing.Le (π π' : Pairing β σ) : Prop where
  pairs : ∀ {s s'}, π.pairs s s' → π'.pairs s s'
  early : ∀ {s b t}, π.early s b t → π'.early s b t

theorem Pairing.Le.refl (π : Pairing β σ) : π.Le π := ⟨id, id⟩

theorem Pairing.Le.trans {π π' π'' : Pairing β σ} (h : π.Le π') (h' : π'.Le π'') : π.Le π'' :=
  ⟨fun hs => h'.pairs (h.pairs hs), fun hs => h'.early (h.early hs)⟩

/-! ## Code -/

section

variable (P : Nat → Nat → Prop)

mutual
/-- The same code, but for the numbers of slots. -/
inductive Code.Paired : Code β σ → Code β σ → Prop where
  | var (i) : Code.Paired (.var i) (.var i)
  | const {s s'} (c) : P s s' → Code.Paired (.const c s) (.const c s')
  | step (t s) : Code.Paired (.step t s) (.step t s)
  | ctor (c) : Code.Paired (.ctor c) (.ctor c)
  | neutral (t) : Code.Paired (.neutral t) (.neutral t)
  | lit (l) : Code.Paired (.lit l) (.lit l)
  | blob (b) : Code.Paired (.blob b) (.blob b)
  | app {h h' ds ds'} : Code.Paired h h' → Delayed.AllPaired ds ds' → Code.Paired (.app h ds) (.app h' ds')
  | lam {b b'} (n t) : Code.Paired b b' → Code.Paired (.lam n t b) (.lam n t b')
  | case {s s' brs brs'} : Code.Paired s s' → Code.BranchesPaired brs brs' →
      Code.Paired (.case s brs) (.case s' brs')

/-- The same arguments, but for the numbers of slots. -/
inductive Delayed.AllPaired : List (Delayed β σ) → List (Delayed β σ) → Prop where
  | nil : Delayed.AllPaired [] []
  | var {ds ds'} (i) : Delayed.AllPaired ds ds' → Delayed.AllPaired (.var i :: ds) (.var i :: ds')
  | lit {ds ds'} (l) : Delayed.AllPaired ds ds' → Delayed.AllPaired (.lit l :: ds) (.lit l :: ds')
  | blob {ds ds'} (b) : Delayed.AllPaired ds ds' → Delayed.AllPaired (.blob b :: ds) (.blob b :: ds')
  | thunk {c c' ds ds'} (t) : Code.Paired c c' → Delayed.AllPaired ds ds' →
      Delayed.AllPaired (.thunk t c :: ds) (.thunk t c' :: ds')

/-- The same branches, but for the numbers of slots. -/
inductive Code.BranchesPaired :
    List (Branch (Term β σ × Code β σ)) → List (Branch (Term β σ × Code β σ)) → Prop where
  | nil : Code.BranchesPaired [] []
  | cons {c c' brs brs'} (p t) : Code.Paired c c' → Code.BranchesPaired brs brs' →
      Code.BranchesPaired (⟨p, (t, c)⟩ :: brs) (⟨p, (t, c')⟩ :: brs')
end

end

section

variable {P P' : Nat → Nat → Prop}

mutual
theorem Code.Paired.mono (hP : ∀ s s', P s s' → P' s s') : ∀ {c c' : Code β σ}, Code.Paired P c c' → Code.Paired P' c c'
  | _, _, .var i => .var i
  | _, _, .const c h => .const c (hP _ _ h)
  | _, _, .step t s => .step t s
  | _, _, .ctor c => .ctor c
  | _, _, .neutral t => .neutral t
  | _, _, .lit l => .lit l
  | _, _, .blob b => .blob b
  | _, _, .app h hds => .app (h.mono hP) (hds.mono hP)
  | _, _, .lam n t h => .lam n t (h.mono hP)
  | _, _, .case h hbrs => .case (h.mono hP) (hbrs.mono hP)

theorem Delayed.AllPaired.mono (hP : ∀ s s', P s s' → P' s s') : ∀ {ds ds' : List (Delayed β σ)},
    Delayed.AllPaired P ds ds' → Delayed.AllPaired P' ds ds'
  | _, _, .nil => .nil
  | _, _, .var i hds => .var i (hds.mono hP)
  | _, _, .lit l hds => .lit l (hds.mono hP)
  | _, _, .blob b hds => .blob b (hds.mono hP)
  | _, _, .thunk t h hds => .thunk t (h.mono hP) (hds.mono hP)

theorem Code.BranchesPaired.mono (hP : ∀ s s', P s s' → P' s s') :
    ∀ {brs brs' : List (Branch (Term β σ × Code β σ))},
      Code.BranchesPaired P brs brs' → Code.BranchesPaired P' brs brs'
  | _, _, .nil => .nil
  | _, _, .cons p t h hbrs => .cons p t (h.mono hP) (hbrs.mono hP)
end

end

theorem Code.BranchesPaired.sources {P : Nat → Nat → Prop} :
    ∀ {brs brs' : List (Branch (Term β σ × Code β σ))}, Code.BranchesPaired P brs brs' →
      branchSources brs = branchSources brs'
  | _, _, .nil => rfl
  | _, _, .cons _ _ _ hbrs => congrArg (List.cons _) hbrs.sources

/-! ## Compiling -/

/-- Two things take equally many slots, and if these belong together in order, then so do the results. -/
def InStep (V : (Nat → Nat → Prop) → α → γ → Prop) (m : Slots α) (m' : Slots γ) : Prop :=
  ∀ n n', ∃ w, (m n).2 = n + w ∧ (m' n').2 = n' + w ∧
    ∀ P : Nat → Nat → Prop, (∀ i < w, P (n + i) (n' + i)) → V P (m n).1 (m' n').1

theorem InStep.pure {V : (Nat → Nat → Prop) → α → γ → Prop} {a : α} {a' : γ} (h : ∀ P, V P a a') :
    InStep V (Pure.pure a) (Pure.pure a') :=
  fun _ _ => ⟨0, rfl, rfl, fun P _ => h P⟩

theorem InStep.bind {α' γ' : Type} {V : (Nat → Nat → Prop) → α → γ → Prop}
    {U : (Nat → Nat → Prop) → α' → γ' → Prop} {m : Slots α} {m' : Slots γ} {f : α → Slots α'} {f' : γ → Slots γ'}
    (hm : InStep V m m') (hf : ∀ a a', InStep (fun P b b' => V P a a' → U P b b') (f a) (f' a')) :
    InStep U (m >>= f) (m' >>= f') := by
  intro n n'
  obtain ⟨w, hw, hw', hV⟩ := hm n n'
  obtain ⟨v, hv, hv', hU⟩ := hf (m n).1 (m' n').1 (n + w) (n' + w)
  have hrun : (m >>= f) n = f (m n).1 (n + w) := by rw [← hw]; rfl
  have hrun' : (m' >>= f') n' = f' (m' n').1 (n' + w) := by rw [← hw']; rfl
  rw [hrun, hrun']
  refine ⟨w + v, by rw [hv, Nat.add_assoc], by rw [hv', Nat.add_assoc], fun P hP => hU P (fun i hi => ?_) ?_⟩
  · rw [Nat.add_assoc, Nat.add_assoc]
    exact hP (w + i) (by omega)
  · exact hV P fun i hi => hP i (by omega)

theorem newSlot_inStep : InStep (fun P s s' => P s s') newSlot newSlot :=
  fun _ _ => ⟨1, rfl, rfl, fun _ hP => hP 0 Nat.zero_lt_one⟩

mutual
/-- Compiling does not look at the numbers of the slots that it takes. -/
theorem compile_inStep (steps : StepTable σ) : ∀ t : Term β σ,
    InStep Code.Paired (compile steps t) (compile steps t)
  | .const c => by
      rw [compile]
      cases steps.lookup c with
      | some s => exact .pure fun _ => .step _ s
      | none => exact newSlot_inStep.bind fun s s' => .pure fun _ hs => .const c hs
  | .app h as => by
      rw [compile]
      refine (compile_inStep steps h).bind fun c c' => ?_
      exact (delayAll_inStep steps as).bind fun ds ds' => .pure fun _ hds hc => .app hc hds
  | .lam n b => by
      rw [compile]
      exact (compile_inStep steps b).bind fun c c' => .pure fun _ hc => .lam n _ hc
  | .case s brs => by
      rw [compile]
      refine (compile_inStep steps s).bind fun c c' => ?_
      exact (compileBranches_inStep steps brs).bind fun cs cs' => .pure fun _ hcs hc => .case hc hcs
  | .ascribed e _ => by
      rw [compile]
      exact compile_inStep steps e
  | .annotated e _ => by
      rw [compile]
      exact compile_inStep steps e
  | .reify e => by
      rw [compile]
      exact compile_inStep steps e
  | .bvar i => by
      rw [compile]
      exact .pure fun _ => .var i
  | .ctor c => by
      rw [compile]
      exact .pure fun _ => .ctor c
  | .free _ | .uvar _ => by
      rw [compile]
      exact .pure fun _ => .neutral _
  | .lit l => by
      rw [compile]
      exact .pure fun _ => .lit l
  | .blob b => by
      rw [compile]
      exact .pure fun _ => .blob b
  | .native s => by
      rw [compile]
      exact .pure fun _ => .step _ s

theorem delayAll_inStep (steps : StepTable σ) : ∀ as : List (Term β σ),
    InStep Delayed.AllPaired (delayAll steps as) (delayAll steps as)
  | [] => by
      rw [delayAll]
      exact .pure fun _ => .nil
  | a :: as => by
      have hrest := delayAll_inStep steps as
      have hthunk : InStep Delayed.AllPaired
          (do
            let code ← compile steps a
            let as ← delayAll steps as
            return .thunk a code :: as)
          (do
            let code ← compile steps a
            let as ← delayAll steps as
            return .thunk a code :: as) :=
        (compile_inStep steps a).bind fun c c' => hrest.bind fun ds ds' => .pure fun _ hds hc => .thunk a hc hds
      cases a with
      | bvar i =>
          rw [delayAll]
          exact hrest.bind fun ds ds' => .pure fun _ hds => .var i hds
      | lit l =>
          rw [delayAll]
          exact hrest.bind fun ds ds' => .pure fun _ hds => .lit l hds
      | blob b =>
          rw [delayAll]
          exact hrest.bind fun ds ds' => .pure fun _ hds => .blob b hds
      | _ =>
          rw [delayAll]
          · exact hthunk
          all_goals simp

theorem compileBranches_inStep (steps : StepTable σ) : ∀ brs : List (Branch (Term β σ)),
    InStep Code.BranchesPaired (compileBranches steps brs) (compileBranches steps brs)
  | [] => by
      rw [compileBranches]
      exact .pure fun _ => .nil
  | ⟨p, b⟩ :: brs => by
      rw [compileBranches]
      refine (compile_inStep steps b).bind fun c c' => ?_
      exact (compileBranches_inStep steps brs).bind fun cs cs' => .pure fun _ hcs hc => .cons p b hc hcs
end

/-! ## Values -/

section

variable (steps : StepTable σ) (π : Pairing β σ)

mutual
/-- The same value, but for the numbers of slots, and for code that has been made early. -/
inductive Value.Paired : Value β σ → Value β σ → Prop where
  | ctor {vs vs'} (c) : Value.AllPaired vs vs' → Value.Paired (.ctor c vs) (.ctor c vs')
  | lit (l) : Value.Paired (.lit l) (.lit l)
  | blob (b) : Value.Paired (.blob b) (.blob b)
  | lam {b b' fs fs' vs vs'} (n t) : Code.Paired π.pairs b b' → Value.AllPaired fs fs' → Value.AllPaired vs vs' →
      Value.Paired (.lam n t b fs vs) (.lam n t b' fs' vs')
  | step {vs vs'} (t s) : Value.AllPaired vs vs' → Value.Paired (.step t s vs) (.step t s vs')
  | neutral {vs vs'} (t) : Value.AllPaired vs vs' → Value.Paired (.neutral t vs) (.neutral t vs')
  | stuck {s s' fs fs' vs vs'} (brs) : Value.Paired s s' → Value.AllPaired fs fs' → Value.AllPaired vs vs' →
      Value.Paired (.stuck s brs fs vs) (.stuck s' brs fs' vs')
  | thunk {s s' fs fs' c c'} (t) : π.pairs s s' → Value.AllPaired fs fs' → Code.Paired π.pairs c c' →
      Value.Paired (.thunk s t fs (some c)) (.thunk s' t fs' (some c'))
  | term {s s' fs fs'} (t) : π.pairs s s' → Value.AllPaired fs fs' →
      Value.Paired (.thunk s t fs none) (.thunk s' t fs' none)
  | early {s s' b t} : π.pairs s s' → π.early s b t →
      Value.Paired (.thunk s t [] (some (compile steps t b).1)) (.thunk s' t [] none)

/-- The same of lists of values. -/
inductive Value.AllPaired : List (Value β σ) → List (Value β σ) → Prop where
  | nil : Value.AllPaired [] []
  | cons {v v' vs vs'} : Value.Paired v v' → Value.AllPaired vs vs' → Value.AllPaired (v :: vs) (v' :: vs')
end

end

section

variable {steps : StepTable σ} {π π' : Pairing β σ} {v v' : Value β σ} {vs vs' ws ws' : List (Value β σ)}

theorem Value.allPaired_iff : Value.AllPaired steps π vs vs' ↔ List.Forall₂ (Value.Paired steps π) vs vs' := by
  constructor
  · intro h
    induction vs generalizing vs' with
    | nil =>
        cases h
        exact .nil
    | cons v vs ih =>
        cases h with
        | cons hv hvs => exact .cons hv (ih hvs)
  · intro h
    induction h with
    | nil => exact .nil
    | cons hv _ ih => exact .cons hv ih

mutual
theorem Value.Paired.mono (hπ : π.Le π') : ∀ {v v' : Value β σ}, Value.Paired steps π v v' →
    Value.Paired steps π' v v'
  | _, _, .ctor c h => .ctor c (h.mono hπ)
  | _, _, .lit l => .lit l
  | _, _, .blob b => .blob b
  | _, _, .lam n t hc hfs hvs => .lam n t (hc.mono fun _ _ => hπ.pairs) (hfs.mono hπ) (hvs.mono hπ)
  | _, _, .step t s h => .step t s (h.mono hπ)
  | _, _, .neutral t h => .neutral t (h.mono hπ)
  | _, _, .stuck brs hs hfs hvs => .stuck brs (hs.mono hπ) (hfs.mono hπ) (hvs.mono hπ)
  | _, _, .thunk t hs hfs hc => .thunk t (hπ.pairs hs) (hfs.mono hπ) (hc.mono fun _ _ => hπ.pairs)
  | _, _, .term t hs hfs => .term t (hπ.pairs hs) (hfs.mono hπ)
  | _, _, .early hs he => .early (hπ.pairs hs) (hπ.early he)

theorem Value.AllPaired.mono (hπ : π.Le π') : ∀ {vs vs' : List (Value β σ)}, Value.AllPaired steps π vs vs' →
    Value.AllPaired steps π' vs vs'
  | _, _, .nil => .nil
  | _, _, .cons h hvs => .cons (h.mono hπ) (hvs.mono hπ)
end

namespace Value.AllPaired

theorem length_eq (h : Value.AllPaired steps π vs vs') : vs.length = vs'.length :=
  (Value.allPaired_iff.mp h).length_eq

theorem append (hv : Value.AllPaired steps π vs vs') (hw : Value.AllPaired steps π ws ws') :
    Value.AllPaired steps π (vs ++ ws) (vs' ++ ws') :=
  Value.allPaired_iff.mpr (List.rel_append (Value.allPaired_iff.mp hv) (Value.allPaired_iff.mp hw))

theorem take (n : Nat) (h : Value.AllPaired steps π vs vs') : Value.AllPaired steps π (vs.take n) (vs'.take n) :=
  Value.allPaired_iff.mpr (List.forall₂_take n (Value.allPaired_iff.mp h))

theorem drop (n : Nat) (h : Value.AllPaired steps π vs vs') : Value.AllPaired steps π (vs.drop n) (vs'.drop n) :=
  Value.allPaired_iff.mpr (List.forall₂_drop n (Value.allPaired_iff.mp h))

theorem reverse (h : Value.AllPaired steps π vs vs') : Value.AllPaired steps π vs.reverse vs'.reverse :=
  Value.allPaired_iff.mpr (List.forall₂_reverse_iff.mpr (Value.allPaired_iff.mp h))

theorem getElem? (h : Value.AllPaired steps π vs vs') (i : Nat) :
    Option.Rel (Value.Paired steps π) vs[i]? vs'[i]? := by
  induction vs generalizing vs' i with
  | nil =>
      cases h
      exact .none
  | cons v vs ih =>
      cases h with
      | cons hv hvs =>
          cases i with
          | zero => exact .some hv
          | succ i => exact ih hvs i

end Value.AllPaired

mutual
/-- What a value stands for has nothing to do with slots. -/
theorem Value.Paired.source?_eq : ∀ {v v' : Value β σ}, Value.Paired steps π v v' → v.source? = v'.source?
  | _, _, .ctor _ h => by rw [Value.source?, Value.source?, h.sources?_eq]
  | _, _, .lit _ | _, _, .blob _ => rfl
  | _, _, .lam _ _ _ hfs hvs => by rw [Value.source?, Value.source?, hfs.sources?_eq, hvs.sources?_eq]
  | _, _, .step _ _ h => by rw [Value.source?, Value.source?, h.sources?_eq]
  | _, _, .neutral _ h => by rw [Value.source?, Value.source?, h.sources?_eq]
  | _, _, .stuck _ hs hfs hvs => by
      rw [Value.source?, Value.source?, hs.source?_eq, hfs.sources?_eq, hvs.sources?_eq]
  | _, _, .thunk _ _ hfs _ => by rw [Value.source?, Value.source?, hfs.sources?_eq]
  | _, _, .term _ _ hfs => by rw [Value.source?, Value.source?, hfs.sources?_eq]
  | _, _, .early _ _ => by rw [Value.source?, Value.source?]

theorem Value.AllPaired.sources?_eq : ∀ {vs vs' : List (Value β σ)}, Value.AllPaired steps π vs vs' →
    sources? vs = sources? vs'
  | _, _, .nil => rfl
  | _, _, .cons h hvs => by rw [sources?, sources?, h.source?_eq, hvs.sources?_eq]
end

theorem Value.Paired.isThunk_eq (h : Value.Paired steps π v v') : v.isThunk = v'.isThunk := by
  cases h <;> rfl

theorem Value.Paired.args (h : Value.Paired steps π v v') : Value.AllPaired steps π v.args v'.args := by
  cases h with
  | lit | blob | thunk | term | early => exact .nil
  | ctor _ hvs | lam _ _ _ _ hvs | step _ _ hvs | neutral _ hvs | stuck _ _ _ hvs => exact hvs

theorem Value.Paired.head?_eq (h : Value.Paired steps π v v') (hforced : v.isThunk = false) :
    v.head? = v'.head? := by
  cases h with
  | lam _ _ _ hfs _ => rw [Value.head?, Value.head?, hfs.sources?_eq]
  | stuck brs hs hfs _ => exact (Value.Paired.stuck brs hs hfs .nil).source?_eq
  | thunk | term | early => cases hforced
  | _ => rfl

/-- Paired branches are chosen for paired values, with paired values for their variables. -/
theorem select_paired {P : Nat → Nat → Prop} {brs brs' : List (Branch (Term β σ × Code β σ))}
    (hv : Value.Paired steps π v v') (hbrs : Code.BranchesPaired P brs brs') :
    Option.Rel (fun x x' => Code.Paired P x.1.2 x'.1.2 ∧ Value.AllPaired steps π x.2 x'.2)
      (select v brs) (select v' brs') := by
  induction brs generalizing brs' with
  | nil =>
      cases hbrs
      exact .none
  | cons br brs ih =>
      obtain - | ⟨p, t, hc, hbrs⟩ := hbrs
      have ih := ih hbrs
      cases p with
      | wild => exact .some ⟨hc, .nil⟩
      | var => exact .some ⟨hc, .cons hv .nil⟩
      | lit l =>
          cases hv with
          | lit l' =>
              rw [select, select]
              split
              · exact .some ⟨hc, .nil⟩
              · exact ih
          | _ => exact .none
      | ctor c k =>
          cases hv with
          | ctor c' hvs =>
              rw [select, select, hvs.length_eq]
              split
              · exact .some ⟨hc, hvs⟩
              · exact ih
          | _ => exact .none

end

end TacticEngine.Machine
