/-
# TacticEngine.Proofs.Pairing.Suspension -- when arguments are suspended.

A host evaluates the head of an application, suspends the arguments and applies the one to the others.  The machine
does the same for an application, but it compiles the arguments before the head is evaluated, with slots that are set
aside until they are needed (`Pairing.parts_meet`).

Nor does it matter whether arguments are suspended before something else is done or after it
(`Pairing.suspended_meets`).
-/
import TacticEngine.Proofs.Pairing.Machine

namespace TacticEngine.Machine

variable {β σ α γ α' γ' : Type}

/-! ## Slots in one go -/

/-- Taking slots in two goes is the same as taking them in one. -/
theorem reserve_bind {m : Slots α} {f : α → Slots γ} (hm : ∀ n, n ≤ (m n).2) (hf : ∀ a n, n ≤ (f a n).2) :
    (inHeap (·.reserve (m >>= f)) : Eval β σ γ) =
      inHeap (·.reserve m) >>= fun a => inHeap (·.reserve (f a)) := by
  funext ⟨heap, w⟩
  rw [inHeap_run, run_bind_ok (inHeap_run _ heap w), inHeap_run]
  have hsize : (heap.reserve m).2.slots.size = (m heap.slots.size).2 := by
    have hle := hm heap.slots.size
    rw [Heap.size_reserve]
    omega
  have hrun : (m >>= f) heap.slots.size = f (m heap.slots.size).1 (m heap.slots.size).2 := rfl
  have hle := hm heap.slots.size
  have hle' := hf (m heap.slots.size).1 (m heap.slots.size).2
  simp only [Heap.reserve_eq (f (heap.reserve m).1), hsize]
  simp only [Heap.reserve_eq, hrun, Array.append_assoc, Array.replicate_append_replicate]
  congr 6
  omega

theorem reserve_pure (a : α) : (inHeap (·.reserve (pure a)) : Eval β σ α) = pure a := by
  funext ⟨heap, w⟩
  have hsize : ((pure a : Slots α) heap.slots.size).2 = heap.slots.size := rfl
  rw [inHeap_run, Heap.reserve_eq, hsize, Nat.sub_self, Array.replicate_zero, Array.append_empty]
  rfl

theorem InStep.le {V : (Nat → Nat → Prop) → α → γ → Prop} {m : Slots α} {m' : Slots γ} (h : InStep V m m')
    (n : Nat) : n ≤ (m n).2 := by
  obtain ⟨w, hw, -⟩ := h n n
  rw [hw]
  exact Nat.le_add_right n w

/-! ## Suspended terms -/

/-- Suspend a closed term. -/
def suspend (t : Term β σ) : Slots (Value β σ) :=
  match t with
  | .lit l => return .lit l
  | .blob b => return .blob b
  | _ => return .thunk (← newSlot) t [] none

/-- The same suspended terms, but for their slots. -/
def Suspended (P : Nat → Nat → Prop) (vs vs' : List (Value β σ)) : Prop :=
  ∀ (steps : StepTable σ) early, Value.AllPaired steps ⟨P, early⟩ vs vs'

theorem suspend_inStep (t : Term β σ) :
    InStep (fun P v v' => Suspended P [v] [v']) (suspend t) (suspend t) := by
  have hthunk : InStep (fun P (v v' : Value β σ) => Suspended P [v] [v'])
      (do return .thunk (← newSlot) t [] none) (do return .thunk (← newSlot) t [] none) :=
    newSlot_inStep.bind fun s s' => .pure fun _ hs _ _ => .cons (.term t hs .nil) .nil
  cases t with
  | lit l => exact .pure fun _ _ _ => .cons (.lit l) .nil
  | blob b => exact .pure fun _ _ _ => .cons (.blob b) .nil
  | _ => exact hthunk

theorem suspends_inStep (ts : List (Term β σ)) : InStep Suspended (ts.mapM suspend) (ts.mapM suspend) := by
  induction ts with
  | nil =>
      rw [List.mapM_nil]
      exact .pure fun _ _ _ => .nil
  | cons t ts ih =>
      rw [List.mapM_cons]
      refine (suspend_inStep t).bind fun v v' => ?_
      refine ih.bind fun vs vs' => .pure fun P hvs hv steps early => ?_
      exact (hv steps early).append (hvs steps early)

theorem ofTerm_eq (t : Term β σ) : ofTerm t = inHeap (·.reserve (suspend t)) := by
  have hthunk : (do return .thunk (← inHeap (·.reserve newSlot)) t [] none : Eval β σ (Value β σ)) =
      inHeap (·.reserve (do return .thunk (← newSlot) t [] none)) := by
    rw [reserve_bind (fun n => Nat.le_succ n) fun _ n => Nat.le_refl n]
    simp only [reserve_pure]
  cases t with
  | lit | blob => exact (reserve_pure _).symm
  | _ => exact hthunk

theorem mapM_ofTerm (ts : List (Term β σ)) : ts.mapM ofTerm = inHeap (·.reserve (ts.mapM suspend)) := by
  induction ts with
  | nil =>
      rw [List.mapM_nil, List.mapM_nil]
      exact (reserve_pure _).symm
  | cons t ts ih =>
      have hrest : ∀ v n, n ≤ ((do return v :: (← ts.mapM suspend) : Slots (List (Value β σ))) n).2 :=
        fun v n => (suspends_inStep ts).le n
      rw [List.mapM_cons, List.mapM_cons, reserve_bind (suspend_inStep t).le hrest, ofTerm_eq]
      congr 1
      funext v
      rw [reserve_bind (suspends_inStep ts).le fun _ n => Nat.le_refl n, ih]
      simp only [reserve_pure]

namespace Pairing

/-! ## Ending in paired memories -/

section

variable (steps : StepTable σ) (V : Pairing β σ → α → α' → Prop)

/-- Both break off for the same reason, or both go on to memories that are paired. -/
inductive Meets :
    EStateM.Result (Halt β) (Memory β σ) α → EStateM.Result (Halt β) (Memory β σ) α' → Prop where
  | ok {π a a' m m'} : π.Heaps steps m.heap m'.heap → m.world = m'.world → V π a a' →
      Meets (.ok a m) (.ok a' m')
  | error {e m m'} : Meets (.error e m) (.error e m')

end

section

variable {steps : StepTable σ} {π : Pairing β σ} {V : Pairing β σ → α → α' → Prop}
  {U : Pairing β σ → γ → γ' → Prop}

theorem Ends.meets {h h' : Heap β σ} {r : EStateM.Result (Halt β) (Memory β σ) α}
    {r' : EStateM.Result (Halt β) (Memory β σ) α'} (hr : π.Ends steps V h h' r r') : Meets steps V r r' := by
  cases hr with
  | ok _ hm hw ha => exact .ok hm hw ha
  | error => exact .error

theorem Meets.andThen {act : Eval β σ α} {act' : Eval β σ α'} {m m' : Memory β σ} {f : α → Eval β σ γ}
    {f' : α' → Eval β σ γ'} (hr : Meets steps V (act m) (act' m'))
    (hf : ∀ π a a' m m', V π a a' → π.Heaps steps m.heap m'.heap → m.world = m'.world →
      Meets steps U (f a m) (f' a' m')) :
    Meets steps U ((act >>= f) m) ((act' >>= f') m') := by
  generalize hx : act m = r at hr
  generalize hx' : act' m' = r' at hr
  cases hr with
  | ok hm hw ha =>
      rw [run_bind_ok hx, run_bind_ok hx']
      exact hf _ _ _ _ _ ha hm hw
  | error =>
      rw [run_bind_error hx, run_bind_error hx']
      exact .error

theorem Meets.bind {act : Eval β σ α} {act' : Eval β σ α'} {m m' : Memory β σ} {f : α → Eval β σ γ}
    {f' : α' → Eval β σ γ'} (hr : Meets steps V (act m) (act' m'))
    (hf : ∀ π a a', V π a a' → π.Beside steps U (f a) (f' a')) :
    Meets steps U ((act >>= f) m) ((act' >>= f') m') :=
  hr.andThen fun _ _ _ m m' ha hm hw => (hf _ _ _ ha m m' hm hw).meets

variable (steps) in
theorem Meets.ending_eq {r r' : EStateM.Result (Halt β) (Memory β σ) α} (hr : Meets steps (fun _ => Eq) r r') :
    ending r = ending r' := by
  cases hr with
  | ok _ _ ha => exact congrArg Except.ok ha
  | error => rfl

/-! ## Before or after -/

/-- Slots that were taken beforehand on the right are still empty when both sides have gone on, and nothing belongs to
them. -/
theorem Grows.spare_of_reserve {π₁ : Pairing β σ} {h h' h₁ h₁' : Heap β σ} {sl : Slots α} {j : Nat}
    (hm : π.Heaps steps h h') (g : π.Grows steps h (h'.reserve sl).2 π₁ h₁ h₁') (hj : h'.slots.size ≤ j)
    (hlt : j < (h'.reserve sl).2.slots.size) :
    j < h₁'.slots.size ∧ h₁'.read j = none ∧ ∀ s, ¬ π₁.pairs s j := by
  have hfree (s : Nat) : ¬ π.pairs s j := fun hs => absurd (hm.contents.lt hs).2 (Nat.not_lt.mpr hj)
  refine ⟨Nat.lt_of_lt_of_le hlt g.size', (g.frame' hlt hfree).trans ?_, g.unpaired' hlt hfree⟩
  rw [Heap.read_reserve]
  exact read_of_ge hj

/-- Terms may be suspended after something else is done, or before. -/
theorem suspended_meets {act : Eval β σ (Value β σ)} {act' : Eval β σ (Value β σ)}
    (hact : π.Beside steps (Value.Paired steps) act act') (ts : List (Term β σ)) {m m' : Memory β σ}
    (hm : π.Heaps steps m.heap m'.heap) (hw : m.world = m'.world) :
    Meets steps (fun π x x' => Value.Paired steps π x.1 x'.1 ∧ Value.AllPaired steps π x.2 x'.2)
      ((do
        let v ← act
        let vs ← ts.mapM ofTerm
        return (v, vs)) m)
      ((do
        let vs ← ts.mapM ofTerm
        let v ← act'
        return (v, vs)) m') := by
  obtain ⟨heap, w⟩ := m
  obtain ⟨heap', _⟩ := m'
  obtain rfl := hw
  simp only [mapM_ofTerm]
  rw [run_bind_ok (inHeap_run _ heap' w)]
  have hsize' : heap'.slots.size ≤ (heap'.reserve (ts.mapM suspend)).2.slots.size := by
    rw [Heap.size_reserve]
    omega
  have hmore : π.Heaps steps heap (heap'.reserve (ts.mapM suspend)).2 :=
    hm.more (Nat.le_refl _) hsize' (fun _ => rfl) (Heap.read_reserve _ heap')
  have hr := hact ⟨heap, w⟩ ⟨_, w⟩ hmore rfl
  generalize hx : act ⟨heap, w⟩ = r at hr
  generalize hx' : act' ⟨_, w⟩ = r' at hr
  cases hr with
  | error =>
      rw [run_bind_error hx, run_bind_error hx']
      exact .error
  | @ok π₁ v v' m₁ m₁' g hm₁ hw₁ hv =>
      obtain ⟨heap₁, w₁⟩ := m₁
      obtain ⟨heap₁', _⟩ := m₁'
      obtain rfl := hw₁
      have hm₁ : π₁.Heaps steps heap₁ heap₁' := hm₁
      rw [run_bind_ok hx, run_bind_ok hx', run_bind_ok (inHeap_run _ heap₁ w₁)]
      obtain ⟨k, hk, hk', hvs⟩ := suspends_inStep ts heap₁.slots.size heap'.slots.size
      have hsize₁ : heap₁.slots.size + k ≤ (heap₁.reserve (ts.mapM suspend)).2.slots.size := by
        rw [Heap.size_reserve, hk]
        omega
      -- the slots of the suspended terms: new ones on the left, and on the right those that were taken beforehand
      have hspare (i : Nat) (hi : i < k) := g.spare_of_reserve hm (Nat.le_add_right heap'.slots.size i) <| by
        rw [Heap.size_reserve, hk']
        omega
      have hread₁ := Heap.read_reserve (ts.mapM suspend) heap₁
      refine .ok (π := π₁.extend heap₁.slots.size heap'.slots.size k)
        ⟨hm₁.contents.extend hsize₁ (Nat.le_refl _) hread₁ (fun _ => rfl) hspare,
          hm₁.reserve.extend _ _ (Nat.le_trans (Nat.le_add_right _ _) hsize₁) hread₁⟩ rfl
        ⟨hv.mono (le_extend _ _ _), ?_⟩
      exact hvs _ (fun i hi => .inr ⟨i, hi, rfl, rfl⟩) steps π₁.early

/-! ## Early code -/

/-- The slot is there, but it is not used. -/
structure Spare (steps : StepTable σ) (π : Pairing β σ) (h : Heap β σ) (i : Nat) : Prop where
  lt : i < h.slots.size
  empty : h.read i = none
  free : ∀ j, ¬ π.pairs i j
  notSetAside : ¬ π.SetAside steps i

theorem Spare.grows {π' : Pairing β σ} {h h' k k' : Heap β σ} {i : Nat} (hi : π.Spare steps h i)
    (g : π.Grows steps h h' π' k k') : π'.Spare steps k i where
  lt := Nat.lt_of_lt_of_le hi.lt g.size
  empty := (g.frame hi.lt hi.free hi.notSetAside).trans hi.empty
  free := g.unpaired hi.lt hi.free hi.notSetAside
  notSetAside := mt g.setAside_iff.mp hi.notSetAside

/-- The code of one more term has been made early. -/
def put (π : Pairing β σ) (s b : Nat) (t : Term β σ) : Pairing β σ where
  pairs := π.pairs
  early r c u := π.early r c u ∨ r = s ∧ c = b ∧ u = t

theorem le_put (π : Pairing β σ) (s b : Nat) (t : Term β σ) : π.Le (π.put s b t) := ⟨id, .inl⟩

theorem setAside_put {s b i : Nat} {t : Term β σ} :
    (π.put s b t).SetAside steps i ↔ π.SetAside steps i ∨ Within steps t b i := by
  constructor
  · rintro ⟨r, c, u, he | ⟨rfl, rfl, rfl⟩, hi⟩
    · exact .inl ⟨r, c, u, he, hi⟩
    · exact .inr hi
  · rintro (⟨r, c, u, he, hi⟩ | hi)
    · exact ⟨r, c, u, .inl he, hi⟩
    · exact ⟨s, b, t, .inr ⟨rfl, rfl, rfl⟩, hi⟩

/-- Slots that are not used may be set aside. -/
theorem Heaps.put {h h' : Heap β σ} (hh : π.Heaps steps h h') {s s' b : Nat} {t : Term β σ} (hs : π.pairs s s')
    (hspare : ∀ i, Within steps t b i → π.Spare steps h i) : (π.put s b t).Heaps steps h h' where
  contents := {
    lt := hh.contents.lt
    unique := hh.contents.unique
    read := fun hs => rel_imp (fun _ _ hv => hv.mono (le_put _ _ _ _)) (hh.contents.read hs) }
  reserve := {
    kept := by
      rintro r c u (he | ⟨rfl, -, -⟩)
      · exact hh.reserve.kept he
      · exact ⟨s', hs⟩
    lt := by
      intro i hi
      rcases setAside_put.mp hi with hi | hi
      · exact hh.reserve.lt hi
      · exact (hspare i hi).lt
    spare := by
      rintro r c u i (he | ⟨rfl, rfl, rfl⟩) hi hread
      · exact hh.reserve.spare he hi hread
      · exact ⟨(hspare i hi).empty, (hspare i hi).free⟩
    apart := by
      -- the slots of the new code had not been set aside before
      rintro r c u r' c' u' i (he | ⟨rfl, rfl, rfl⟩) (he' | ⟨rfl, rfl, rfl⟩) hi hi'
      · exact hh.reserve.apart he he' hi hi'
      · exact absurd ⟨r, c, u, he, hi⟩ (hspare i hi').notSetAside
      · exact absurd ⟨r', c', u', he', hi'⟩ (hspare i hi).notSetAside
      · rfl }

theorem size_newSlot (h : Heap β σ) : (h.reserve newSlot).2.slots.size = h.slots.size + 1 := by
  rw [Heap.size_reserve]
  exact congrArg _ (Nat.add_sub_cancel_left h.slots.size 1)

/-- A slot that is not used is not a new one. -/
theorem Spare.newSlot {h : Heap β σ} {i : Nat} (hi : π.Spare steps h i) (n' : Nat) :
    (π.extend h.slots.size n' 1).Spare steps (h.reserve newSlot).2 i where
  lt := by
    rw [size_newSlot]
    exact Nat.lt_succ_of_lt hi.lt
  empty := (Heap.read_reserve _ h i).trans hi.empty
  free := by
    rintro j (hj | ⟨x, -, rfl, -⟩)
    · exact hi.free j hj
    · have hlt := hi.lt
      omega
  notSetAside := hi.notSetAside

/-- One more term is suspended, on the left with code that has been made early. -/
theorem Heaps.suspended {h h' : Heap β σ} (hh : π.Heaps steps h h') {b : Nat} {t : Term β σ}
    (hspare : ∀ i, Within steps t b i → π.Spare steps h i) :
    ((π.extend h.slots.size h'.slots.size 1).put h.slots.size b t).Heaps steps (h.reserve newSlot).2
      (h'.reserve newSlot).2 := by
  have hsize (h : Heap β σ) := Nat.le_of_eq (size_newSlot h).symm
  obtain ⟨hm, -⟩ := hh.extend (hsize h) (hsize h') (Heap.read_reserve _ h) (Heap.read_reserve _ h')
  exact hm.put (.inr ⟨0, Nat.zero_lt_one, rfl, rfl⟩) fun i hi => (hspare i hi).newSlot _

/-- One argument before the others. -/
theorem Meets.cons {R : Pairing β σ → Prop} {d : Delayed β σ} {ds : List (Delayed β σ)} {t : Term β σ}
    {ts : List (Term β σ)} {v v' : Value β σ} {m m₁ m' m₁' : Memory β σ} (hd : delayed [] d m = .ok v m₁)
    (ht : ofTerm t m' = .ok v' m₁') (hv : ∀ π, R π → Value.Paired steps π v v')
    (hrest : Meets steps (fun π vs vs' => R π ∧ Value.AllPaired steps π vs vs')
      (ds.mapM (delayed []) m₁) (ts.mapM ofTerm m₁')) :
    Meets steps (fun π vs vs' => R π ∧ Value.AllPaired steps π vs vs')
      ((d :: ds).mapM (delayed []) m) ((t :: ts).mapM ofTerm m') := by
  rw [List.mapM_cons, List.mapM_cons, run_bind_ok hd, run_bind_ok ht]
  exact hrest.bind fun π vs vs' h => .pure ⟨h.1, .cons (hv π h.1) h.2⟩

theorem Meets.imp {V' : Pairing β σ → α → α' → Prop} (hV : ∀ π a a', V π a a' → V' π a a')
    {r : EStateM.Result (Halt β) (Memory β σ) α} {r' : EStateM.Result (Halt β) (Memory β σ) α'}
    (hr : Meets steps V r r') : Meets steps V' r r' := by
  cases hr with
  | ok hm hw ha => exact .ok hm hw (hV _ _ _ ha)
  | error => exact .error

/-- Closed arguments are suspended, on the left with code that has been made early. -/
theorem delayed_meets : ∀ {ts : List (Term β σ)}, (∀ t ∈ ts, ∀ i, t ≠ .bvar i) →
    ∀ {π : Pairing β σ} {b : Nat} {m m' : Memory β σ}, π.Heaps steps m.heap m'.heap → m.world = m'.world →
      (∀ i, b ≤ i → i < (delayAll steps ts b).2 → π.Spare steps m.heap i) →
      Meets steps (fun π₁ vs vs' => π.Le π₁ ∧ Value.AllPaired steps π₁ vs vs')
        ((delayAll steps ts b).1.mapM (delayed []) m) (ts.mapM ofTerm m')
  | [], _, π, b, m, m', hm, hw, _ => by
      rw [List.mapM_nil]
      exact .ok hm hw ⟨.refl π, .nil⟩
  | t :: ts, hts, π, b, ⟨heap, w⟩, ⟨heap', _⟩, hm, rfl, hspare => by
      obtain ⟨ht, hts⟩ := List.forall_mem_cons.mp hts
      have hthunk (ht : ofTerm t ⟨heap', w⟩ =
            .ok (.thunk heap'.slots.size t [] none) ⟨(heap'.reserve newSlot).2, w⟩)
          (hspare : ∀ i, b ≤ i → i < (delayAll steps ts (compile steps t b).2).2 → π.Spare steps heap i) :
          Meets steps (fun π₁ vs vs' => π.Le π₁ ∧ Value.AllPaired steps π₁ vs vs')
            ((.thunk t (compile steps t b).1 :: (delayAll steps ts (compile steps t b).2).1).mapM (delayed [])
              ⟨heap, w⟩)
            ((t :: ts).mapM ofTerm ⟨heap', w⟩) := by
        have hle := (compile_inStep steps t).le b
        have hle' := (delayAll_inStep steps ts).le (compile steps t b).2
        have hm₁ : ((π.extend heap.slots.size heap'.slots.size 1).put heap.slots.size b t).Heaps steps
            (heap.reserve newSlot).2 (heap'.reserve newSlot).2 :=
          Heaps.suspended hm fun i hi => hspare i hi.1 (Nat.lt_of_lt_of_le hi.2 hle')
        -- the slots of the code of this argument are set aside now, and those of the others are left
        have hspare₁ (i : Nat) (hi : (compile steps t b).2 ≤ i)
            (hi' : i < (delayAll steps ts (compile steps t b).2).2) :
            ((π.extend heap.slots.size heap'.slots.size 1).put heap.slots.size b t).Spare steps
              (heap.reserve newSlot).2 i := by
          have hi₁ := (hspare i (Nat.le_trans hle hi) hi').newSlot heap'.slots.size
          refine ⟨hi₁.lt, hi₁.empty, hi₁.free, fun haside => ?_⟩
          rcases setAside_put.mp haside with haside | ⟨-, hlt⟩
          · exact hi₁.notSetAside haside
          · omega
        have hrest : Meets steps _
            ((delayAll steps ts (compile steps t b).2).1.mapM (delayed []) ⟨(heap.reserve newSlot).2, w⟩)
            (ts.mapM ofTerm ⟨(heap'.reserve newSlot).2, w⟩) := delayed_meets hts hm₁ rfl hspare₁
        refine (Meets.cons rfl ht (fun π₁ hle₁ => .early ?_ ?_) hrest).imp fun π₁ vs vs' h => ⟨?_, h.2⟩
        · exact hle₁.pairs (.inr ⟨0, Nat.zero_lt_one, rfl, rfl⟩)
        · exact hle₁.early (.inr ⟨rfl, rfl, rfl⟩)
        · exact (le_extend _ _ _).trans ((le_put _ _ _ _).trans h.1)
      have hatom (hspare : ∀ i, b ≤ i → i < (delayAll steps ts b).2 → π.Spare steps heap i) :
          Meets steps (fun π₁ vs vs' => π.Le π₁ ∧ Value.AllPaired steps π₁ vs vs')
            ((delayAll steps ts b).1.mapM (delayed []) ⟨heap, w⟩) (ts.mapM ofTerm ⟨heap', w⟩) :=
        delayed_meets hts hm rfl hspare
      cases t with
      | bvar i => exact absurd rfl (ht i)
      | lit l => exact .cons rfl rfl (fun _ _ => .lit l) (hatom hspare)
      | blob u => exact .cons rfl rfl (fun _ _ => .blob u) (hatom hspare)
      | _ => exact hthunk rfl hspare

end

end Pairing

/-! ## Heads and arguments -/

section

variable (cfg : Setting β σ) (n : Nat) (h : Term β σ) (ts : List (Term β σ))

/-- The value of the head of an application and the suspended arguments, where the arguments have been compiled
before. -/
def compiledParts : Eval β σ (Value β σ × List (Value β σ)) := do
  let code ← inHeap (·.reserve (compile cfg.steps h))
  let ds ← inHeap (·.reserve (delayAll cfg.steps ts))
  let f ← run cfg n code []
  let vs ← ds.mapM (delayed [])
  return (f, vs)

/-- The value of the head of an application and the suspended arguments. -/
def parts : Eval β σ (Value β σ × List (Value β σ)) := do
  let f ← eval cfg n h
  let vs ← ts.mapM ofTerm
  return (f, vs)

/-- To evaluate an application is to evaluate its head and to apply it to the suspended arguments. -/
theorem eval_app : eval cfg (n + 1) (.app h ts) = compiledParts cfg n h ts >>= fun x => apply cfg n x.1 x.2 := by
  have hrest : ∀ code n, n ≤ ((do return .app code (← delayAll cfg.steps ts) : Slots (Code β σ)) n).2 :=
    fun _ n => (delayAll_inStep cfg.steps ts).le n
  rw [eval, compile, reserve_bind (compile_inStep cfg.steps h).le hrest, compiledParts, bind_assoc, bind_assoc]
  congr 1
  funext code
  rw [reserve_bind (delayAll_inStep cfg.steps ts).le fun _ n => Nat.le_refl n]
  simp only [reserve_pure, bind_assoc, pure_bind, run]

end

namespace Pairing

theorem heaps_empty (steps : StepTable σ) (h h' : Heap β σ) : empty.Heaps steps h h' where
  contents := {
    lt := False.elim
    unique := False.elim
    read := False.elim }
  reserve := {
    kept := False.elim
    lt := by
      rintro i ⟨_, _, _, he, -⟩
      exact he.elim
    spare := False.elim
    apart := False.elim }

/-- When the head of an application has been compiled, and on the left its arguments too, the slots of the head belong
together and those of the arguments are spare. -/
theorem heaps_compiled (steps : StepTable σ) (h : Term β σ) (ts : List (Term β σ)) {heap heap₁ heap₂ : Heap β σ}
    (hheap₁ : (heap.reserve (compile steps h)).2 = heap₁) (hheap₂ : (heap₁.reserve (delayAll steps ts)).2 = heap₂) :
    ∃ π : Pairing β σ, π.Heaps steps heap₂ heap₁ ∧
      Code.Paired π.pairs (compile steps h heap.slots.size).1 (compile steps h heap.slots.size).1 ∧
      ∀ i, heap₁.slots.size ≤ i → i < (delayAll steps ts heap₁.slots.size).2 → π.Spare steps heap₂ i := by
  obtain ⟨k, hk, -, hcode⟩ := compile_inStep steps h heap.slots.size heap.slots.size
  have hread₁ (i : Nat) : heap₁.read i = heap.read i := by rw [← hheap₁, Heap.read_reserve]
  have hread₂ (i : Nat) : heap₂.read i = heap₁.read i := by rw [← hheap₂, Heap.read_reserve]
  have hsize₁ : heap.slots.size + k = heap₁.slots.size := by
    rw [← hheap₁, Heap.size_reserve, hk]
    omega
  have hle := (delayAll_inStep steps ts).le heap₁.slots.size
  have hsize₂ : heap₂.slots.size = (delayAll steps ts heap₁.slots.size).2 := by
    rw [← hheap₂, Heap.size_reserve]
    omega
  obtain ⟨hm₁, -⟩ := (heaps_empty steps heap heap).extend (Nat.le_of_eq hsize₁) (Nat.le_of_eq hsize₁) hread₁ hread₁
  refine ⟨_, hm₁.more (by omega) (Nat.le_refl _) hread₂ fun _ => rfl,
    hcode _ fun i hi => .inr ⟨i, hi, rfl, rfl⟩, fun i hi hi' => ?_⟩
  refine ⟨by omega, (hread₂ i).trans (read_of_ge hi), ?_, not_setAside_own⟩
  rintro j (hj | ⟨x, hx, rfl, -⟩)
  · exact hj
  · omega

/-- It makes no difference that the arguments of an application are compiled before its head is evaluated. -/
theorem parts_meet {cfg : Setting β σ} (hcfg : cfg.Derived) (n : Nat) (h : Term β σ) {ts : List (Term β σ)}
    (hts : ∀ t ∈ ts, ∀ i, t ≠ .bvar i) (m : Memory β σ) :
    Meets cfg.steps (fun π x x' => Value.Paired cfg.steps π x.1 x'.1 ∧ Value.AllPaired cfg.steps π x.2 x'.2)
      (compiledParts cfg n h ts m) (parts cfg n h ts m) := by
  obtain ⟨heap, w⟩ := m
  generalize hheap₁ : (heap.reserve (compile cfg.steps h)).2 = heap₁
  generalize hheap₂ : (heap₁.reserve (delayAll cfg.steps ts)).2 = heap₂
  -- the head runs beside itself; what it does leaves the slots of the arguments on the left alone
  obtain ⟨π, hm, hpaired, hspare⟩ := heaps_compiled cfg.steps h ts hheap₁ hheap₂
  have hrun := (besideAt hcfg n).run hpaired .nil ⟨heap₂, w⟩ ⟨heap₁, w⟩ hm rfl
  have hcode : inHeap (·.reserve (compile cfg.steps h)) ⟨heap, w⟩ =
      .ok (compile cfg.steps h heap.slots.size).1 ⟨heap₁, w⟩ := by
    rw [inHeap_run, hheap₁]
    rfl
  have hds : inHeap (·.reserve (delayAll cfg.steps ts)) ⟨heap₁, w⟩ =
      .ok (delayAll cfg.steps ts heap₁.slots.size).1 ⟨heap₂, w⟩ := by
    rw [inHeap_run, hheap₂]
    rfl
  rw [compiledParts, run_bind_ok hcode, run_bind_ok hds, parts, eval, bind_assoc, run_bind_ok hcode]
  generalize hx : run cfg n (compile cfg.steps h heap.slots.size).1 [] ⟨heap₂, w⟩ = r at hrun
  generalize hx' : run cfg n (compile cfg.steps h heap.slots.size).1 [] ⟨heap₁, w⟩ = r' at hrun
  cases hrun with
  | error =>
      rw [run_bind_error hx, run_bind_error hx']
      exact .error
  | ok g hm hw hf =>
      rw [run_bind_ok hx, run_bind_ok hx']
      refine (delayed_meets hts hm hw fun i hi hi' => (hspare i hi hi').grows g).bind fun _ vs vs' h => .pure ?_
      exact ⟨hf.mono h.1, h.2⟩

end Pairing

end TacticEngine.Machine
