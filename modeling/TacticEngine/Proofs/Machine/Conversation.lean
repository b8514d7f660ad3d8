/-
# TacticEngine.Proofs.Machine.Conversation -- what a host meets.

A host suspends and evaluates canonical terms, forces, applies and reads back the values that it gets, takes them
apart and looks into slots, in one memory and for as long as it likes, whatever breaks off in the meantime
(`Conversation`).  The machine is `Underway` for it in all the configurations that its calls go through.

In all of that there are poised values only, but for a step that takes no arguments, before it is fired
(`Underway.applicable`).
-/
import TacticEngine.Proofs.Machine.Poised

namespace TacticEngine.Machine

variable {β σ : Type}

/-! ## Calls -/

/-- What a call is made with is poised, but for a step that it is about to fire. -/
def Call.Poised : Call β σ → Prop
  | .run code frame => code.Poised ∧ ∀ f ∈ frame, f.Poised
  | .unfold _ => True
  | .force v => v.Applicable
  | .apply f args | .applyForced f args => f.Applicable ∧ ∀ a ∈ args, a.Poised
  | .applyRest v rest => v.Result ∧ ∀ a ∈ rest, a.Poised
  | .readback v => v.Poised

theorem lookup_eq_ok {frame : List (Value β σ)} {i : Nat} {v : Value β σ} {m m' : Memory β σ}
    (hr : lookup frame i m = .ok v m') : v ∈ frame ∧ m' = m := by
  unfold lookup at hr
  cases hi : frame[i]? with
  | none =>
      rw [hi] at hr
      cases hr
  | some u =>
      rw [hi] at hr
      cases hr
      exact ⟨List.mem_of_getElem? hi, rfl⟩

section

variable {cfg : Setting β σ} (hcfg : cfg.Canonical) (hderived : cfg.Derived) {n : Nat} {m m' : Memory β σ}
  {c c' : Call β σ}

include hcfg hderived

/-- From a poised call and a poised heap, the machine makes poised calls from poised heaps only. -/
theorem Calls.poised (hcall : Calls cfg n c m c' m') (hc : c.Poised) (hm : m.heap.Poised) :
    c'.Poised ∧ m'.heap.Poised := by
  have hat := poisedAt hcfg hderived n
  -- what comes before a call within another one leaves a poised heap
  have hreadbacks {vs : List (Value β σ)} {ts : List (Term β σ)} {m m' : Memory β σ}
      (hvs : ∀ v ∈ vs, v.Poised) (hm : m.heap.Poised) (hr : vs.mapM (readback cfg n) m = .ok ts m') :
      m'.heap.Poised := ((hat.readbacks hvs).ok hm hr).2
  cases hcall with
  | var hr =>
      obtain ⟨hv, rfl⟩ := lookup_eq_ok hr
      exact ⟨.inl (hc.2 _ hv), hm⟩
  | const => exact ⟨trivial, hm⟩
  | @step t s =>
      refine ⟨⟨?_, nofun⟩, hm⟩
      rcases Nat.eq_zero_or_pos s.arity with harity | harity
      · exact .inr ⟨t, s, hc.1, harity, rfl⟩
      · exact .inl ⟨harity, hc.1, trivial⟩
  | head => exact ⟨⟨hc.1.1, hc.2⟩, hm⟩
  | app hf hvs =>
      obtain ⟨hf, hm₁⟩ := (hat.run hc.1.1 hc.2).ok hm hf
      obtain ⟨hvs, hm₂⟩ := (upholds_delayed hc.2 hc.1.2).ok hm₁ hvs
      exact ⟨⟨.inl hf.1, hvs⟩, hm₂⟩
  | scrutinee => exact ⟨⟨hc.1.1, hc.2⟩, hm⟩
  | branch hv hsel =>
      obtain ⟨hv, hm₁⟩ := (hat.run hc.1.1 hc.2).ok hm hv
      obtain ⟨hbody, hbound⟩ := select_poised hv.1 hc.1.2 hsel
      exact ⟨⟨hbody, List.forall_mem_append.mpr ⟨fun u hu => hbound u (List.mem_reverse.mp hu), hc.2⟩⟩, hm₁⟩
  | definition hbody hcode =>
      obtain ⟨hcode, hm₁⟩ :=
        (Upholds.reserve (compile_poised cfg.steps (hcfg.unfoldable _ _ hbody))).ok hm hcode
      exact ⟨⟨hcode, nofun⟩, hm₁⟩
  | compiled =>
      have hv := hc.poised nofun
      exact ⟨⟨hv.2.2 _ rfl, Value.allPoised_iff.mp hv.2.1⟩, hm⟩
  | uncompiled _ hcode =>
      have hv := hc.poised nofun
      obtain ⟨hcode, hm₁⟩ := (Upholds.reserve (compile_poised cfg.steps hv.1)).ok hm hcode
      exact ⟨⟨hcode, Value.allPoised_iff.mp hv.2.1⟩, hm₁⟩
  | function => exact ⟨hc.1, hm⟩
  | applied hg =>
      obtain ⟨hg, hm₁⟩ := (hat.force_applicable hc.1).ok hm hg
      exact ⟨⟨hg, hc.2⟩, hm₁⟩
  | body =>
      have hf := hc.1.poised nofun
      exact ⟨⟨hf.2.2.1, (hf.body hc.2).1⟩, hm⟩
  | surplus _ hr =>
      have hf := hc.1.poised nofun
      obtain ⟨hframe, hlater⟩ := hf.body hc.2
      obtain ⟨hv, hm₁⟩ := (hat.run hf.2.2.1 hframe).ok hm hr
      exact ⟨⟨hv, hlater⟩, hm₁⟩
  | argument _ _ heq hts =>
      have hnow := (hc.1.fired hc.2).1
      rw [heq, List.forall_mem_append, List.forall_mem_cons] at hnow
      exact ⟨hnow.2.1, hreadbacks hnow.1 hm hts⟩
  | result _ hr =>
      obtain ⟨hv, hm₁⟩ := (hat.fire hcfg hderived _ (hc.1.fired hc.2).1).ok hm hr
      exact ⟨.inl (hv _ rfl), hm₁⟩
  | fired _ hr hu =>
      obtain ⟨hnow, hlater⟩ := hc.1.fired hc.2
      obtain ⟨hv, hm₁⟩ := (hat.fire hcfg hderived _ hnow).ok hm hr
      obtain ⟨hu, hm₂⟩ := (hat.force (hv _ rfl)).ok hm₁ hu
      exact ⟨⟨hu, hlater⟩, hm₂⟩
  | declined _ hr heq hts =>
      have hnow := (hc.1.fired hc.2).1
      obtain ⟨-, hm₁⟩ := (hat.fire hcfg hderived _ hnow).ok hm hr
      rw [heq, List.forall_mem_append, List.forall_mem_cons] at hnow
      exact ⟨hnow.2.1, hreadbacks hnow.1 hm₁ hts⟩
  | suspended => exact ⟨hc.1, hm⟩
  | resumed hv =>
      obtain ⟨hv, hm₁⟩ := (hat.force (hc.1.poised nofun)).ok hm hv
      exact ⟨⟨hv, hc.2⟩, hm₁⟩
  | rest => exact ⟨⟨.inl hc.1.1, hc.2⟩, hm⟩
  | forced => exact ⟨.inl hc, hm⟩
  | held hu heq hts =>
      obtain ⟨hu, hm₁⟩ := (hat.force hc).ok hm hu
      have hsplit := hu.1.args
      rw [← Value.held_eq_args, heq, List.forall_mem_append, List.forall_mem_cons] at hsplit
      exact ⟨hsplit.2.1, hreadbacks hsplit.1 hm₁ hts⟩

end

/-! ## What a host meets -/

section

variable (cfg : Setting β σ)

/-- What a host may ask for that holds values: from which memory which call is made, in the memory that this
leaves. -/
inductive Ask (vs : List (Value β σ)) : Memory β σ → Call β σ → Memory β σ → Prop where
  /-- It evaluates a canonical term. -/
  | eval {t code m m'} : t.Canonical → inHeap (·.reserve (compile cfg.steps t)) m = .ok code m' →
      Ask vs m (.run code []) m'
  | force {v m} : v ∈ vs → Ask vs m (.force v) m
  | apply {f args m} : f ∈ vs → (∀ a ∈ args, a ∈ vs) → Ask vs m (.apply f args) m
  | readback {v m} : v ∈ vs → Ask vs m (.readback v) m

/-- The memory and the values that a host may have after any number of calls, some of which may have broken off. -/
inductive Conversation : Memory β σ → List (Value β σ) → Prop where
  | start (w) : Conversation { world := w } []
  /-- The host does something else. -/
  | elsewhere {m vs} (w) : Conversation m vs → Conversation { m with world := w } vs
  | suspended {m vs t v m'} : Conversation m vs → t.Canonical → ofTerm t m = .ok v m' →
      Conversation m' (v :: vs)
  /-- The host takes a value apart. -/
  | taken {m vs v u} : Conversation m vs → v ∈ vs → u ∈ v.parts → Conversation m (u :: vs)
  /-- The host looks into a slot. -/
  | found {m vs slot v} : Conversation m vs → m.heap.read slot = some v → Conversation m (v :: vs)
  | answered {m vs c m₁ fuel v m'} : Conversation m vs → Ask cfg vs m c m₁ →
      c.perform cfg fuel m₁ = .ok (.value v) m' → Conversation m' (v :: vs)
  | read {m vs c m₁ fuel t m'} : Conversation m vs → Ask cfg vs m c m₁ →
      c.perform cfg fuel m₁ = .ok (.term t) m' → Conversation m' vs
  | brokeOff {m vs c m₁ fuel e m'} : Conversation m vs → Ask cfg vs m c m₁ →
      c.perform cfg fuel m₁ = .error e m' → Conversation m' vs

/-- The configurations that the machine goes through for a host. -/
inductive Underway : Nat → Call β σ → Memory β σ → Prop where
  | asked {vs m c m' fuel} : Conversation cfg m vs → Ask cfg vs m c m' → Underway fuel c m'
  | call {fuel c m c' m'} : Underway (fuel + 1) c m → Calls cfg fuel c m c' m' → Underway fuel c' m'

end

section

variable {cfg : Setting β σ} (hcfg : cfg.Canonical) (hderived : cfg.Derived) {n : Nat} {m m' : Memory β σ}
  {c : Call β σ} {vs : List (Value β σ)}

include hcfg hderived

/-- A host that holds poised values makes poised calls and gets poised values. -/
theorem Ask.poised (ha : Ask cfg vs m c m') (hm : m.heap.Poised) (hvs : ∀ v ∈ vs, v.Poised) :
    c.Poised ∧ m'.heap.Poised ∧
      ∀ n, Upholds (fun r => ∀ v, r = .value v → v.Poised) (c.perform cfg n) := by
  have hvalue {act : Eval β σ (Value β σ)} (hact : Upholds Value.Result act) :
      Upholds (fun r => ∀ v, r = Reply.value v → v.Poised) (do return .value (← act)) :=
    hact.bind fun v hv => .pure (by rintro _ ⟨⟩; exact hv.1)
  cases ha with
  | eval ht hcode =>
      obtain ⟨hcode, hm'⟩ := (Upholds.reserve (compile_poised cfg.steps ht)).ok hm hcode
      exact ⟨⟨hcode, nofun⟩, hm', fun n => hvalue ((poisedAt hcfg hderived n).run hcode nofun)⟩
  | force hv =>
      exact ⟨.inl (hvs _ hv), hm, fun n => hvalue ((poisedAt hcfg hderived n).force (hvs _ hv))⟩
  | apply hf hargs =>
      have hargs := fun a ha => hvs a (hargs a ha)
      exact ⟨⟨.inl (hvs _ hf), hargs⟩, hm,
        fun n => hvalue ((poisedAt hcfg hderived n).apply (.inl (hvs _ hf)) hargs)⟩
  | readback hv =>
      exact ⟨hvs _ hv, hm,
        fun n => ((poisedAt hcfg hderived n).readback (hvs _ hv)).bind fun t _ => .pure nofun⟩

/-- A host meets poised values only. -/
theorem Conversation.poised (h : Conversation cfg m vs) : m.heap.Poised ∧ ∀ v ∈ vs, v.Poised := by
  induction h with
  | start w => exact ⟨Heap.poised_empty, nofun⟩
  | elsewhere w _ ih => exact ih
  | suspended _ ht hr ih =>
      obtain ⟨hv, hm'⟩ := (upholds_ofTerm ht).ok ih.1 hr
      exact ⟨hm', List.forall_mem_cons.mpr ⟨hv, ih.2⟩⟩
  | taken _ hv hu ih => exact ⟨ih.1, List.forall_mem_cons.mpr ⟨(ih.2 _ hv).parts _ hu, ih.2⟩⟩
  | found _ hr ih => exact ⟨ih.1, List.forall_mem_cons.mpr ⟨(ih.1 _ _ hr).1, ih.2⟩⟩
  | answered _ ha hr ih =>
      obtain ⟨-, hm₁, hperform⟩ := ha.poised hcfg hderived ih.1 ih.2
      obtain ⟨hv, hm'⟩ := (hperform _).ok hm₁ hr
      exact ⟨hm', List.forall_mem_cons.mpr ⟨hv _ rfl, ih.2⟩⟩
  | read _ ha hr ih =>
      obtain ⟨-, hm₁, hperform⟩ := ha.poised hcfg hderived ih.1 ih.2
      exact ⟨((hperform _).ok hm₁ hr).2, ih.2⟩
  | brokeOff _ ha hr ih =>
      obtain ⟨-, hm₁, hperform⟩ := ha.poised hcfg hderived ih.1 ih.2
      exact ⟨(hperform _).error hm₁ hr, ih.2⟩

theorem Underway.poised (h : Underway cfg n c m) : c.Poised ∧ m.heap.Poised := by
  induction h with
  | asked hconv ha =>
      obtain ⟨hm, hvs⟩ := hconv.poised hcfg hderived
      obtain ⟨hc, hm', -⟩ := ha.poised hcfg hderived hm hvs
      exact ⟨hc, hm'⟩
  | call _ hcall ih => exact hcall.poised hcfg hderived ih.1 ih.2

omit hcfg hderived in
/-- Of the values that a poised call is made with, only a step that is about to be fired is not poised. -/
theorem Call.Poised.values (hc : c.Poised) : ∀ v ∈ c.values, v.Applicable := by
  cases c with
  | run code frame => exact fun v hv => .inl (hc.2 v hv)
  | unfold => exact nofun
  | force v => exact List.forall_mem_singleton.mpr hc
  | readback v => exact List.forall_mem_singleton.mpr (.inl hc)
  | apply f args | applyForced f args =>
      exact List.forall_mem_cons.mpr ⟨hc.1, fun a ha => .inl (hc.2 a ha)⟩
  | applyRest v rest => exact List.forall_mem_cons.mpr ⟨.inl hc.1.1, fun a ha => .inl (hc.2 a ha)⟩

/-- All the values that there are at any time may be applied. -/
theorem Underway.applicable (h : Underway cfg n c m) {v : Value β σ} (hv : c.Holds m v) : v.Applicable := by
  obtain ⟨hc, hm⟩ := h.poised hcfg hderived
  obtain ⟨u, hu | ⟨slot, hu⟩, hhas⟩ := hv
  · rcases hc.values u hu with hpoised | ⟨t, s, ht, harity, rfl⟩
    · exact .inl (hpoised.has hhas)
    · -- a step that has not been fired has no parts
      rcases Relation.ReflTransGen.cases_head hhas with rfl | ⟨_, hpart, -⟩
      · exact .inr ⟨t, s, ht, harity, rfl⟩
      · cases hpart
  · exact .inl ((hm slot u hu).1.has hhas)

end

end TacticEngine.Machine
