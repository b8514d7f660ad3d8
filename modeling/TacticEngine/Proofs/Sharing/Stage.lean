/-
# TacticEngine.Proofs.Sharing.Stage -- evaluations with what they fire.

A stage is a heap in order: each slot is there for a good term, which turns into what the slot holds for
nothing.  `Tells` is the triple of an evaluation.  From a stage in an admissible world it goes on to a
later stage, and it has fired some steps meanwhile; what is said about the value may depend on both.

As for outcomes alone, nothing is claimed any more if reduction is known to leave the range of a machine
word.
-/
import TacticEngine.Proofs.Agreement.Filled
import TacticEngine.Proofs.Sharing.Once
import TacticEngine.Proofs.Sharing.Turning

namespace TacticEngine

variable {β σ α γ : Type}

/-! ## Evaluations that only take slots -/

namespace Machine

/-- The evaluation takes slots at most: it leaves the world alone, and no slot gets a value. -/
def Silent (m : Eval β σ α) : Prop :=
  ∀ s a s', m s = .ok a s' → s'.world = s.world ∧ ∀ i, s'.heap.read i = s.heap.read i

namespace Silent

theorem pure (a : α) : Silent (Pure.pure a : Eval β σ α) := by
  rintro s _ _ ⟨⟩
  exact ⟨rfl, fun _ => rfl⟩

theorem throw (e : Halt β) : Silent (MonadExcept.throw e : Eval β σ α) := by
  rintro s _ _ ⟨⟩

theorem reserve (m : Slots α) : Silent (inHeap (·.reserve m) : Eval β σ α) := by
  rintro s _ _ ⟨⟩
  exact ⟨rfl, s.heap.read_reserve m⟩

theorem bind {m : Eval β σ α} {f : α → Eval β σ γ} (hm : Silent m) (hf : ∀ a, Silent (f a)) :
    Silent (m >>= f) := by
  intro s b s' hr
  obtain ⟨a, s₁, hr₁, hr₂⟩ := run_bind_eq_ok_iff.mp hr
  obtain ⟨hw₁, hread₁⟩ := hm s a s₁ hr₁
  obtain ⟨hw₂, hread₂⟩ := hf a s₁ b s' hr₂
  exact ⟨hw₂.trans hw₁, fun i => (hread₂ i).trans (hread₁ i)⟩

theorem mapM {f : α → Eval β σ γ} (hf : ∀ a, Silent (f a)) : ∀ as : List α, Silent (as.mapM f)
  | [] => by
      rw [List.mapM_nil]
      exact pure []
  | a :: as => by
      rw [List.mapM_cons]
      exact (hf a).bind fun b => (mapM hf as).bind fun bs => pure (b :: bs)

theorem lookup (frame : List (Value β σ)) (i : Nat) : Silent (Machine.lookup frame i) := by
  rw [Machine.lookup]
  cases frame[i]? with
  | none => exact throw _
  | some v => exact pure v

theorem ofTerm (t : Term β σ) : Silent (Machine.ofTerm t) := by
  cases t with
  | lit l => exact pure _
  | blob b => exact pure _
  | _ => exact (reserve newSlot).bind fun slot => pure _

theorem delayed (frame : List (Value β σ)) (d : Delayed β σ) : Silent (Machine.delayed frame d) := by
  cases d with
  | var i => exact lookup frame i
  | lit l => exact pure _
  | blob b => exact pure _
  | thunk src code => exact (reserve newSlot).bind fun slot => pure _

end Silent

end Machine

namespace Ground

open Machine (Code Delayed Value Heap Slots Memory Eval Silent sources)

/-! ## Stages -/

section

variable (G : Ground β σ)

/-- A heap in order: each slot is there for a good term, which turns into what the slot holds. -/
structure Stage where
  /-- The terms that the slots are there for. -/
  terms : List (Term β σ)
  heap : Heap β σ
  size : heap.slots.size = terms.length
  good : ∀ t ∈ terms, G.Good t
  read : ∀ {slot v}, heap.read slot = some v →
    G.Forced terms v ∧ ∀ t, terms[slot]? = some t → G.Turns t v []

end

variable {G : Ground β σ}

namespace Stage

/-- One stage comes after the other. -/
structure Le (κ κ' : G.Stage) : Prop where
  terms : κ.terms <+: κ'.terms
  heap : κ.heap.Le κ'.heap

variable {κ κ' κ'' : G.Stage}

theorem Le.refl (κ : G.Stage) : κ.Le κ := ⟨List.prefix_rfl, .refl _⟩

theorem Le.trans (h : κ.Le κ') (h' : κ'.Le κ'') : κ.Le κ'' :=
  ⟨h.terms.trans h'.terms, h.heap.trans h'.heap⟩

/-- A slot that is there for a term is a slot of the heap. -/
theorem lt_size {slot : Nat} {t : Term β σ} (h : κ.terms[slot]? = some t) :
    slot < κ.heap.slots.size := by
  rw [κ.size]
  exact (List.getElem?_eq_some_iff.mp h).1

theorem filled (hG : G.Lawful) (hq : G.Quiet) (κ : G.Stage) : G.Filled κ.terms κ.heap where
  size := κ.size
  good := κ.good
  read hr := ⟨(κ.read hr).1, fun t ht => ((κ.read hr).2 t ht).becomes hG hq (κ.read hr).1⟩

/-- The stage after a heap has got more slots but no more values. -/
def extend (κ : G.Stage) {Γ : List (Term β σ)} {heap : Heap β σ} (hΓ : κ.terms <+: Γ)
    (hfilled : G.Filled Γ heap) (hread : ∀ i, heap.read i = κ.heap.read i) : G.Stage where
  terms := Γ
  heap := heap
  size := hfilled.size
  good := hfilled.good
  read {slot v} hr := by
    refine ⟨(hfilled.read hr).1, fun t ht => ?_⟩
    rw [hread] at hr
    have hlt : slot < κ.terms.length := κ.size ▸ Heap.lt_size_of_read hr
    obtain ⟨Δ, rfl⟩ := hΓ
    rw [List.getElem?_append_left hlt] at ht
    exact (κ.read hr).2 t ht

theorem le_extend (κ : G.Stage) {Γ : List (Term β σ)} {heap : Heap β σ} (hΓ : κ.terms <+: Γ)
    (hfilled : G.Filled Γ heap) (hread : ∀ i, heap.read i = κ.heap.read i) :
    κ.Le (κ.extend hΓ hfilled hread) where
  terms := hΓ
  heap := by
    refine ⟨?_, fun hr => (hread _).trans hr⟩
    rw [κ.size, show (κ.extend hΓ hfilled hread).heap.slots.size = Γ.length from hfilled.size]
    exact hΓ.length_le

/-- The stage after a slot has got a value that its term turns into. -/
def fill (κ : G.Stage) {slot : Nat} {v : Value β σ} (hempty : κ.heap.read slot = none)
    (hv : G.Forced κ.terms v) (hturns : ∀ t, κ.terms[slot]? = some t → G.Turns t v []) :
    G.Stage where
  terms := κ.terms
  heap := (κ.heap.fill slot v).2
  size := by
    rw [Heap.size_fill]
    exact κ.size
  good := κ.good
  read {i u} hr := by
    rw [Heap.read_fill_of_none hempty] at hr
    split at hr
    next heq =>
      cases hr
      obtain ⟨rfl, -⟩ := heq
      exact ⟨hv, hturns⟩
    next => exact κ.read hr

theorem le_fill (κ : G.Stage) {slot : Nat} {v : Value β σ} (hempty : κ.heap.read slot = none)
    (hv : G.Forced κ.terms v) (hturns : ∀ t, κ.terms[slot]? = some t → G.Turns t v []) :
    κ.Le (κ.fill hempty hv hturns) where
  terms := List.prefix_rfl
  heap := by
    refine ⟨(Heap.size_fill slot v κ.heap).ge, fun {i u} hr => ?_⟩
    have hne : ¬(i = slot ∧ slot < κ.heap.slots.size) := by
      rintro ⟨rfl, -⟩
      rw [hempty] at hr
      cases hr
    exact ((Heap.read_fill_of_none hempty v i).trans (if_neg hne)).trans hr

end Stage

/-! ## Evaluations that have been done -/

/-- From this stage on the evaluation gives this value, and does nothing. -/
def Again (κ : G.Stage) (m : Eval β σ α) (a : α) : Prop :=
  ∀ s, κ.heap.Le s.heap → m s = .ok a s

namespace Again

variable {κ κ' : G.Stage} {m : Eval β σ α} {a : α}

theorem pure (κ : G.Stage) (a : α) : Again κ (Pure.pure a : Eval β σ α) a := fun _ _ => rfl

theorem mono (hκ : κ.Le κ') (h : Again κ m a) : Again κ' m a := fun s hs => h s (hκ.heap.trans hs)

theorem bind {f : α → Eval β σ γ} {b : γ} (hm : Again κ m a) (hf : Again κ (f a) b) :
    Again κ (m >>= f) b := by
  intro s hs
  rw [run_bind_ok (hm s hs)]
  exact hf s hs

theorem bounded (κ : G.Stage) {a? : Option α} (h : a? = some a) :
    Again κ (Machine.bounded a? : Eval β σ α) a := by
  subst h
  exact fun _ _ => rfl

/-- Looking into a slot that has a value. -/
theorem orElse {slot : Nat} {v : Value β σ} (h : κ.heap.read slot = some v)
    (m : Eval β σ (Value β σ)) : Again κ (do
      match (← get).heap.read slot with
      | some v => Pure.pure v
      | none => m) v :=
  fun _ hs => Machine.read_or_run (hs.read h) m

end Again

/-! ## What an evaluation tells -/

/-- An evaluation ends at a later stage with such a value, or breaks off for such a reason, and it has
fired steps after those that had been fired. -/
def Told (κ : G.Stage) (w : World β σ) (P : G.Stage → List (Firing β σ) → α → Prop)
    (E : Halt β → List (Firing β σ) → Prop) : EStateM.Result (Halt β) (Memory β σ) α → Prop
  | .ok a s => ∃ κ' : G.Stage, ∃ M, κ.Le κ' ∧ s.heap = κ'.heap ∧ G.world s.world ∧
      s.world.firings = w.firings ++ M ∧ P κ' M a
  | .error (.issue e) s => ∃ M, s.world.firings = w.firings ++ M ∧ E (.issue e) M
  | .error _ _ => True

/-- From the stage the evaluation ends like that, unless reduction leaves the range of a machine word. -/
def Tells (κ : G.Stage) (m : Eval β σ α) (P : G.Stage → List (Firing β σ) → α → Prop)
    (E : Halt β → List (Firing β σ) → Prop) : Prop :=
  ∀ w, G.world w → (∃ M, E .overflow M) ∨ Told κ w P E (m ⟨κ.heap, w⟩)

namespace Tells

variable {κ : G.Stage} {P P' : G.Stage → List (Firing β σ) → α → Prop}
  {Q : G.Stage → List (Firing β σ) → γ → Prop} {E E' : Halt β → List (Firing β σ) → Prop}
  {m : Eval β σ α}

theorem pure {a : α} (h : P κ [] a) : Tells κ (Pure.pure a) P E :=
  fun _ hw => .inr ⟨κ, [], .refl κ, rfl, hw, (List.append_nil _).symm, h⟩

theorem exhausted : Tells κ (MonadExcept.throw .exhausted : Eval β σ α) P E := fun _ _ => .inr trivial

theorem of_overflow {M : List (Firing β σ)} (h : E .overflow M) : Tells κ m P E := fun _ _ => .inl ⟨M, h⟩

/-- What is fired first and what is fired then. -/
theorem bind {f : α → Eval β σ γ} (hm : Tells κ m P E)
    (hf : ∀ κ' M a, κ.Le κ' → P κ' M a →
      Tells κ' (f a) (fun κ'' N b => Q κ'' (M ++ N) b) fun h N => E h (M ++ N)) :
    Tells κ (m >>= f) Q E := by
  intro w hw
  rcases hm w hw with hover | hrun
  · exact .inl hover
  · cases hr : m ⟨κ.heap, w⟩ with
    | ok a s =>
        rw [hr] at hrun
        obtain ⟨κ', M, hκ, hheap, hw', hM, hP⟩ := hrun
        obtain ⟨heap, w'⟩ := s
        subst hheap
        rcases hf κ' M a hκ hP w' hw' with ⟨N, hover⟩ | hrun'
        · exact .inl ⟨M ++ N, hover⟩
        · refine .inr ?_
          rw [run_bind_ok hr]
          generalize f a ⟨κ'.heap, w'⟩ = r at hrun' ⊢
          have hfirings {N K : List (Firing β σ)} (hK : K = w'.firings ++ N) :
              K = w.firings ++ (M ++ N) := by
            rw [hK, hM, List.append_assoc]
          cases r with
          | ok b s' =>
              obtain ⟨κ'', N, hκ', hheap, hw'', hN, hQ⟩ := hrun'
              exact ⟨κ'', M ++ N, hκ.trans hκ', hheap, hw'', hfirings hN, hQ⟩
          | error e s' =>
              cases e with
              | issue e =>
                  obtain ⟨N, hN, hE⟩ := hrun'
                  exact ⟨M ++ N, hfirings hN, hE⟩
              | _ => trivial
    | error e s =>
        rw [hr] at hrun
        refine .inr ?_
        rw [run_bind_error hr]
        cases e <;> exact hrun

theorem imp (hm : Tells κ m P E) (hP : ∀ κ' M a, κ.Le κ' → P κ' M a → P' κ' M a)
    (hE : ∀ h M, E h M → E' h M) : Tells κ m P' E' := by
  intro w hw
  rcases hm w hw with ⟨M, hover⟩ | hrun
  · exact .inl ⟨M, hE _ M hover⟩
  · refine .inr ?_
    generalize m ⟨κ.heap, w⟩ = r at hrun ⊢
    cases r with
    | ok a s =>
        obtain ⟨κ', M, hκ, hheap, hw', hM, ha⟩ := hrun
        exact ⟨κ', M, hκ, hheap, hw', hM, hP κ' M a hκ ha⟩
    | error e s =>
        cases e with
        | issue e =>
            obtain ⟨M, hM, he⟩ := hrun
            exact ⟨M, hM, hE _ M he⟩
        | _ => trivial

theorem map {f : α → γ} (hm : Tells κ m P E) (hf : ∀ κ' M a, κ.Le κ' → P κ' M a → Q κ' M (f a)) :
    Tells κ (m >>= fun a => Pure.pure (f a)) Q E := by
  refine hm.bind fun κ' M a hκ ha => pure ?_
  rw [List.append_nil]
  exact hf κ' M a hκ ha

/-- An evaluation that has been done fires nothing. -/
theorem again {a : α} {f : α → Eval β σ γ} (hm : Again κ m a) (hf : Tells κ (f a) Q E) :
    Tells κ (m >>= f) Q E := by
  intro w hw
  rw [run_bind_ok (hm ⟨κ.heap, w⟩ (.refl _))]
  exact hf w hw

/-- What an act in the world keeps and fires. -/
theorem inWorld {act : Act β σ α} {V : α → Prop} {M : List (Firing β σ)}
    (h : Keeps G.world (fun e => E (.issue e) M) V act)
    (hM : ∀ w, (final (act w)).firings = w.firings ++ M) :
    Tells κ (Machine.inWorld act) (fun _ N a => N = M ∧ V a) E := by
  intro w hw
  refine .inr ?_
  have hact := h w hw
  have hfirings := hM w
  rw [Machine.inWorld_run]
  generalize act w = r at hact hfirings ⊢
  cases r with
  | ok a w' => exact ⟨κ, M, .refl κ, rfl, hact.2, hfirings, rfl, hact.1⟩
  | error e w' =>
      cases e with
      | issue e => exact ⟨M, hfirings, hact.1⟩
      | _ => trivial

theorem bounded {a? : Option α} :
    Tells κ (Machine.bounded a?) (fun _ N a => N = [] ∧ a? = some a) E := by
  intro w hw
  refine .inr ?_
  cases a? with
  | none => trivial
  | some a => exact ⟨κ, [], .refl κ, rfl, hw, (List.append_nil _).symm, rfl, rfl⟩

/-- An evaluation that only takes slots. -/
theorem of_ensures {V : List (Term β σ) → α → Prop} (hG : G.Lawful) (hq : G.Quiet) (hm : Silent m)
    (h : G.Ensures κ.terms m V fun _ => False) :
    Tells κ m (fun κ' N a => N = [] ∧ V κ'.terms a) E := by
  intro w hw
  refine .inr ?_
  rcases h ⟨κ.heap, w⟩ (κ.filled hG hq) hw with hover | hrun
  · exact hover.elim
  · cases hr : m ⟨κ.heap, w⟩ with
    | ok a s =>
        obtain ⟨hworld, hread⟩ := hm _ a s hr
        rw [hr] at hrun
        obtain ⟨Γ, hΓ, hfilled, hw', ha⟩ := hrun
        refine ⟨κ.extend hΓ hfilled hread, [], κ.le_extend hΓ hfilled hread, rfl, hw', ?_, rfl, ha⟩
        rw [hworld, List.append_nil]
    | error e s =>
        rw [hr] at hrun
        cases e with
        | issue e => exact hrun.1.elim
        | _ => trivial

/-! ## Slots -/

/-- Looking for a value before computing it. -/
theorem orElse {slot : Nat} {m : Eval β σ (Value β σ)} {P : G.Stage → List (Firing β σ) → Value β σ → Prop}
    (hread : ∀ v, κ.heap.read slot = some v → P κ [] v) (hm : Tells κ m P E) :
    Tells κ (do
      match (← get).heap.read slot with
      | some v => Pure.pure v
      | none => m) P E := by
  intro w hw
  have hget : (get : Eval β σ (Memory β σ)) ⟨κ.heap, w⟩ = .ok ⟨κ.heap, w⟩ ⟨κ.heap, w⟩ := rfl
  rw [run_bind_ok hget]
  dsimp only
  cases hr : κ.heap.read slot with
  | some v => exact pure (hread v hr) w hw
  | none => exact hm w hw

/-- Keeping a value that the term of the slot turns into.  If another value has been kept meanwhile, the
term turns into that one just as well. -/
theorem fill (hG : G.Lawful) (hq : G.Quiet) {slot : Nat} {t : Term β σ} {v : Value β σ}
    {M : List (Firing β σ)} (hslot : κ.terms[slot]? = some t) (hv : G.Forced κ.terms v)
    (hturns : G.Turns t v M) :
    Tells κ (Machine.inHeap (·.fill slot v)) (fun κ' N u => N = [] ∧ G.Forced κ'.terms u ∧
      G.Turns t u M ∧ κ'.heap.read slot = some u) E := by
  intro w hw
  refine .inr ?_
  rw [Machine.inHeap_run]
  cases hr : κ.heap.read slot with
  | some old =>
      obtain ⟨hold, hturns'⟩ := κ.read hr
      rw [Heap.fill_of_read hr]
      exact ⟨κ, [], .refl κ, rfl, hw, (List.append_nil _).symm, rfl, hold,
        hturns.exchange hG hq hv hold (hturns' t hslot), hr⟩
  | none =>
      have hall (t' : Term β σ) (ht' : κ.terms[slot]? = some t') : G.Turns t' v [] := by
        rw [hslot] at ht'
        cases ht'
        exact hturns.mono (List.nil_sublist M)
      rw [Heap.fill_fst_of_none hr]
      refine ⟨κ.fill hr hv hall, [], κ.le_fill hr hv hall, rfl, hw, (List.append_nil _).symm, rfl, hv,
        hturns, ?_⟩
      exact (Heap.read_fill_of_none hr v slot).trans (if_pos ⟨rfl, Stage.lt_size hslot⟩)

end Tells

end Ground

end TacticEngine
