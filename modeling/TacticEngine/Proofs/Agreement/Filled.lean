/-
# TacticEngine.Proofs.Agreement.Filled -- evaluations that keep the heap in order.

A heap is filled properly if each slot is there for a good term and holds, if anything, a value that
this term becomes.  `Ensures` is the triple of an evaluation: from such a heap in an admissible world it
ends in one again, perhaps with more slots.  What it says about the value may depend on the slots.

If reduction is known to break off because a machine word is too small, nothing is claimed any more:
the machine may go on, but there is nothing to compare it with.
-/
import TacticEngine.Proofs.Agreement.Becoming

namespace TacticEngine

variable {β σ α γ : Type}

namespace Ground

open Machine (Code Delayed Value Heap Slots Memory Eval sources)

section

variable (G : Ground β σ)

/-- A heap with a slot for each of the terms, whose value the term becomes. -/
structure Filled (Γ : List (Term β σ)) (heap : Heap β σ) : Prop where
  size : heap.slots.size = Γ.length
  good : ∀ t ∈ Γ, G.Good t
  read : ∀ {slot v}, heap.read slot = some v →
    G.Forced Γ v ∧ ∀ t, Γ[slot]? = some t → G.Becomes t v

/-- An evaluation ends with such a value or breaks off for such a reason, and with a heap that is filled
properly. -/
def Ends (Γ : List (Term β σ)) (P : List (Term β σ) → α → Prop) (E : Halt β → Prop) :
    EStateM.Result (Halt β) (Memory β σ) α → Prop
  | .ok a s => ∃ Γ', Γ <+: Γ' ∧ G.Filled Γ' s.heap ∧ G.world s.world ∧ P Γ' a
  | .error (.issue e) s => E (.issue e) ∧ G.world s.world ∧ ∃ Γ', Γ <+: Γ' ∧ G.Filled Γ' s.heap
  | .error _ _ => True

/-- From a heap that is filled properly the evaluation ends like that, unless reduction leaves the range
of a machine word. -/
def Ensures (Γ : List (Term β σ)) (m : Eval β σ α) (P : List (Term β σ) → α → Prop)
    (E : Halt β → Prop) : Prop :=
  ∀ s, G.Filled Γ s.heap → G.world s.world → E .overflow ∨ G.Ends Γ P E (m s)

end

variable {G : Ground β σ} {Γ : List (Term β σ)}

namespace Ensures

variable {P : List (Term β σ) → α → Prop} {Q : List (Term β σ) → γ → Prop} {E : Halt β → Prop}

theorem pure {a : α} (h : P Γ a) : G.Ensures Γ (Pure.pure a) P E :=
  fun _ hs hw => .inr ⟨Γ, List.prefix_rfl, hs, hw, h⟩

theorem exhausted : G.Ensures Γ (MonadExcept.throw .exhausted : Eval β σ α) P E :=
  fun _ _ _ => .inr trivial

theorem of_overflow {m : Eval β σ α} (h : E .overflow) : G.Ensures Γ m P E :=
  fun _ _ _ => .inl h

theorem bind {m : Eval β σ α} {f : α → Eval β σ γ} (hm : G.Ensures Γ m P E)
    (hf : ∀ Γ' a, Γ <+: Γ' → P Γ' a → G.Ensures Γ' (f a) Q E) : G.Ensures Γ (m >>= f) Q E := by
  intro s hs hw
  rcases hm s hs hw with hover | hrun
  · exact .inl hover
  · cases hr : m s with
    | ok a s' =>
        rw [hr] at hrun
        obtain ⟨Γ', hΓ, hs', hw', hP⟩ := hrun
        rcases hf Γ' a hΓ hP s' hs' hw' with hover | hrun'
        · exact .inl hover
        · refine .inr ?_
          rw [run_bind_ok hr]
          generalize f a s' = r at hrun' ⊢
          cases r with
          | ok b s'' =>
              obtain ⟨Γ'', hΓ', hrest⟩ := hrun'
              exact ⟨Γ'', hΓ.trans hΓ', hrest⟩
          | error e s'' =>
              cases e with
              | issue e =>
                  obtain ⟨he, hw'', Γ'', hΓ', hs''⟩ := hrun'
                  exact ⟨he, hw'', Γ'', hΓ.trans hΓ', hs''⟩
              | _ => trivial
    | error e s' =>
        rw [hr] at hrun
        refine .inr ?_
        rw [run_bind_error hr]
        cases e <;> exact hrun

theorem imp {P' : List (Term β σ) → α → Prop} {E' : Halt β → Prop} {m : Eval β σ α}
    (hm : G.Ensures Γ m P E) (hP : ∀ Γ' a, Γ <+: Γ' → P Γ' a → P' Γ' a) (hE : ∀ h, E h → E' h) :
    G.Ensures Γ m P' E' := by
  intro s hs hw
  rcases hm s hs hw with hover | hrun
  · exact .inl (hE _ hover)
  · refine .inr ?_
    generalize m s = r at hrun ⊢
    cases r with
    | ok a s' =>
        obtain ⟨Γ', hΓ, hs', hw', ha⟩ := hrun
        exact ⟨Γ', hΓ, hs', hw', hP Γ' a hΓ ha⟩
    | error e s' =>
        cases e with
        | issue e => exact ⟨hE _ hrun.1, hrun.2⟩
        | _ => trivial

/-- What an act in the world keeps. -/
theorem inWorld {act : Act β σ α} {V : α → Prop}
    (h : Keeps G.world (fun e => E (.issue e)) V act) :
    G.Ensures Γ (Machine.inWorld act) (fun _ a => V a) E := by
  rintro ⟨heap, w⟩ hs hw
  refine .inr ?_
  have hact := h w hw
  rw [Machine.inWorld_run]
  generalize act w = r at hact ⊢
  cases r with
  | ok a w' => exact ⟨Γ, List.prefix_rfl, hs, hact.2, hact.1⟩
  | error e w' =>
      cases e with
      | issue e => exact ⟨hact.1, hact.2, Γ, List.prefix_rfl, hs⟩
      | _ => trivial

theorem bounded {a? : Option α} : G.Ensures Γ (Machine.bounded a?) (fun _ a => a? = some a) E := by
  refine inWorld (V := fun a => a? = some a) ?_
  cases a? with
  | none => exact fun _ _ => trivial
  | some a => exact Keeps.pure rfl

/-! ## Operations on the heap -/

theorem reserve {m : Slots α} (h : G.Reserves Γ m P) :
    G.Ensures Γ (Machine.inHeap (·.reserve m)) P E := by
  rintro ⟨heap, w⟩ hs hw
  obtain ⟨Δ, hlen, hgood, hP⟩ := h
  refine .inr ?_
  have hsize : heap.slots.size = Γ.length := hs.size
  rw [Machine.inHeap_run]
  refine ⟨Γ ++ Δ, List.prefix_append Γ Δ, ⟨?_, ?_, ?_⟩, hw, ?_⟩
  · rw [Heap.size_reserve, hsize, hlen, List.length_append]
    omega
  · intro t ht
    rcases List.mem_append.mp ht with ht | ht
    · exact hs.good t ht
    · exact hgood t ht
  · intro slot v hv
    rw [Heap.read_reserve] at hv
    obtain ⟨hforced, hbecomes⟩ := hs.read hv
    refine ⟨hforced.mono (List.prefix_append Γ Δ), fun t ht => hbecomes t ?_⟩
    have hlt : slot < Γ.length := hsize ▸ Heap.lt_size_of_read hv
    rwa [List.getElem?_append_left hlt] at ht
  · rw [Heap.reserve_eq, hsize]
    exact hP

/-- A slot for a term. -/
theorem newSlot {t : Term β σ} (ht : G.Good t) :
    G.Ensures Γ (Machine.inHeap (·.reserve Machine.newSlot))
      (fun Γ' slot => Γ'[slot]? = some t) E := by
  refine reserve ⟨[t], ?_, ?_, ?_⟩
  · rw [List.length_append]
    rfl
  · intro u hu
    rwa [List.mem_singleton.mp hu]
  · exact List.getElem?_concat_length

/-- Looking for a value before computing it. -/
theorem orElse {slot : Nat} {m : Eval β σ (Value β σ)}
    {P : List (Term β σ) → Value β σ → Prop}
    (hread : ∀ v, G.Forced Γ v → (∀ t, Γ[slot]? = some t → G.Becomes t v) → P Γ v)
    (hm : G.Ensures Γ m P E) :
    G.Ensures Γ (do
      match (← get).heap.read slot with
      | some v => Pure.pure v
      | none => m) P E := by
  intro s hs hw
  have hget : (get : Eval β σ (Memory β σ)) s = .ok s s := rfl
  rw [run_bind_ok hget]
  cases hv : s.heap.read slot with
  | some v =>
      obtain ⟨hforced, hbecomes⟩ := hs.read hv
      exact pure (hread v hforced hbecomes) s hs hw
  | none => exact hm s hs hw

/-- Keeping a value that the term of the slot becomes. -/
theorem fill {slot : Nat} {v : Value β σ} (hv : G.Forced Γ v)
    (hbecomes : ∀ t, Γ[slot]? = some t → G.Becomes t v) :
    G.Ensures Γ (Machine.inHeap (·.fill slot v))
      (fun Γ' u => G.Forced Γ' u ∧ ∀ t, Γ'[slot]? = some t → G.Becomes t u) E := by
  rintro ⟨heap, w⟩ hs hw
  refine .inr ?_
  rw [Machine.inHeap_run]
  cases hr : heap.read slot with
  | some old =>
      rw [Heap.fill_of_read hr]
      exact ⟨Γ, List.prefix_rfl, hs, hw, hs.read hr⟩
  | none =>
      rw [Heap.fill_fst_of_none hr]
      refine ⟨Γ, List.prefix_rfl, ⟨?_, hs.good, ?_⟩, hw, hv, hbecomes⟩
      · rw [Heap.size_fill]
        exact hs.size
      · intro i u hu
        rw [Heap.read_fill_of_none hr] at hu
        split at hu
        next heq =>
          cases hu
          obtain ⟨rfl, -⟩ := heq
          exact ⟨hv, hbecomes⟩
        next => exact hs.read hu

/-! ## Passing arguments -/

theorem lookup {frame : List (Value β σ)} {i : Nat} (hi : i < frame.length)
    (hframe : ∀ f ∈ frame, G.Formed Γ f) :
    G.Ensures Γ (Machine.lookup frame i)
      (fun Γ' v => G.Formed Γ' v ∧ v.source = (Term.bvar i).instantiate 0 (sources frame)) E := by
  have hget : frame[i]? = some frame[i] := List.getElem?_eq_getElem hi
  rw [Machine.lookup, hget]
  exact pure ⟨hframe _ (List.getElem_mem hi), (Machine.instantiate_lookup hget).symm⟩

/-- A suspended closed term stands for itself. -/
theorem ofTerm {t : Term β σ} (ht : G.Good t) :
    G.Ensures Γ (Machine.ofTerm t) (fun Γ' v => G.Formed Γ' v ∧ v.source = t) E := by
  have hthunk : G.Ensures Γ
      (Machine.inHeap (·.reserve Machine.newSlot) >>= fun slot =>
        Pure.pure (Value.thunk slot t [] none))
      (fun Γ' v => G.Formed Γ' v ∧ v.source = t) E := by
    refine (newSlot ht).bind fun Γ' slot _ hslot => pure ⟨.thunk ?_ ht (by simp) (by simp), ?_⟩
    · rwa [sources, Term.instantiate_nil]
    · rw [Value.source, sources, Term.instantiate_nil]
  cases t with
  | lit l => exact pure ⟨.lit, rfl⟩
  | blob b => exact pure ⟨.blob ht, rfl⟩
  | _ => exact hthunk

/-- Arguments are passed as the terms that they are in their frame. -/
theorem delayed (hG : G.Lawful) {frame : List (Value β σ)} :
    ∀ {Γ : List (Term β σ)} {as : List (Term β σ)} {ds : List (Delayed β σ)},
      G.CompiledArgs Γ as ds → G.like.AlikeArgs frame.length as as → (∀ f ∈ frame, G.Formed Γ f) →
      G.Ensures Γ (ds.mapM (Machine.delayed frame)) (fun Γ' vs => (∀ v ∈ vs, G.Formed Γ' v) ∧
        sources vs = Term.instantiateArgs 0 (sources frame) as) E
  | _, _, _, .nil, _, _ => by
      rw [List.mapM_nil]
      exact pure ⟨(by simp), rfl⟩
  | Γ, a :: as, d :: ds, hds, .cons ha has, hframe => by
      have hd : G.Ensures Γ (Machine.delayed frame d)
          (fun Γ' v => G.Formed Γ' v ∧ v.source = a.instantiate 0 (sources frame)) E := by
        cases hds with
        | var =>
            cases ha with
            | bvar hi => exact lookup (hi hG.closed) hframe
        | @lit l =>
            exact pure ⟨.lit, (Term.instantiate_eq_self (t := .lit l) trivial trivial _).symm⟩
        | @blob b =>
            cases ha with
            | blob hb =>
                exact pure ⟨.blob (.blob hb),
                  (Term.instantiate_eq_self (t := .blob b) trivial trivial _).symm⟩
        | thunk hc =>
            refine (newSlot (good_instantiate ha (good_sources hframe))).bind fun Γ' slot hΓ hslot => ?_
            refine pure ⟨.thunk hslot ha ?_ (formed_mono hΓ hframe), rfl⟩
            intro c heq
            cases heq
            exact hc.mono hΓ
      have hrest : G.CompiledArgs Γ as ds := by
        cases hds <;> assumption
      rw [List.mapM_cons]
      refine hd.bind fun Γ₁ v hΓ hv => ?_
      refine (delayed hG (hrest.mono hΓ) has (formed_mono hΓ hframe)).bind
        fun Γ₂ vs hΓ' hvs => pure ⟨?_, ?_⟩
      · intro u hu
        rcases List.mem_cons.mp hu with rfl | hu
        · exact hv.1.mono hΓ'
        · exact hvs.1 u hu
      · rw [sources, hv.2, hvs.2]
        rfl

end Ensures

end Ground

end TacticEngine
