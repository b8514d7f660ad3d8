/-
# TacticEngine.Proofs.Likeness.Machine -- the machine takes alike code to alike values.

As for reduction, two settings are alike if their tables and definitions are and if what their steps
do goes alike.  The states now hold a heap, and likeness of heaps is part of what ties them: slot by
slot they hold alike values, none of which is a suspended computation.  So forcing never gives a
suspended computation, and code never looks up a variable that its frame does not have, if the terms it
was compiled from are closed.
-/
import TacticEngine.Proofs.Likeness.Reduction
import TacticEngine.Proofs.Likeness.Value
import TacticEngine.Proofs.Machine.Heap

namespace TacticEngine.Machine

variable {β σ α : Type}

/-! ## States that are alike -/

section

variable (L : Likeness β σ) (plain : String → Prop)

/-- Alike values, neither of them suspended. -/
def Value.AlikeForced (v v' : Value β σ) : Prop := Value.Alike L plain v v' ∧ v.isThunk = false

/-- Heaps with the same slots, which hold alike values. -/
structure Heap.Alike (h h' : Heap β σ) : Prop where
  size_eq : h.slots.size = h'.slots.size
  read : ∀ i, Option.Rel (Value.AlikeForced L plain) (h.read i) (h'.read i)

/-- The tie between evaluations that a tie between worlds makes. -/
def withHeaps (T : Tie (Halt β) (World β σ) (Halt β) (World β σ)) :
    Tie (Halt β) (Memory β σ) (Halt β) (Memory β σ) where
  state m m' := Heap.Alike L plain m.heap m'.heap ∧ T.state m.world m'.world
  halt := T.halt
  mute e m := T.mute e m.world
  escape e m := T.escape e m.world

end

section

variable {L : Likeness β σ} {plain : String → Prop}
  {T : Tie (Halt β) (World β σ) (Halt β) (World β σ)}

theorem Heap.Alike.empty : Heap.Alike L plain {} {} := by
  refine ⟨rfl, fun i => ?_⟩
  simp only [Heap.read]
  exact .none

theorem inWorld_follows {V : α → α → Prop} {act : Act β σ α} {F : Family (Halt β) (World β σ) α}
    (h : T.Follows V act F) :
    (withHeaps L plain T).Follows V (inWorld act) fun l n => inWorld (F l n) := by
  rintro ⟨heap, w⟩ ⟨heap', w'⟩ ⟨hheap, hw⟩
  rcases h w w' hw with ⟨e, w₁, hr, he⟩ | ⟨r', ⟨N, hN⟩, hm⟩
  · refine .inl ⟨e, ⟨heap, w₁⟩, ?_, he⟩
    rw [inWorld_run, hr, onHeap]
  · refine .inr ⟨onHeap heap' r', ⟨N, fun l hl n hn => ?_⟩, ?_⟩
    · exact (inWorld_run _ _ _).trans (congrArg (onHeap heap') (hN l hl n hn))
    · rw [inWorld_run]
      generalize act w = r at hm
      cases hm with
      | ok ha hw => exact .ok ha ⟨hheap, hw⟩
      | error he hw => exact .error he ⟨hheap, hw⟩
      | escape he => exact .escape he

theorem bounded_follows (hT : T.Fair L) {V : α → α → Prop} {a? a?' : Option α}
    (h : Option.Rel V a? a?') :
    (withHeaps L plain T).Follows V (bounded a?) fun _ _ => bounded a?' :=
  inWorld_follows (hT.bounded h)

theorem reserve_follows {V : α → α → Prop} {m m' : Slots α} (h : Reserved V m m') :
    (withHeaps L plain T).Follows V (inHeap (·.reserve m)) fun _ _ => inHeap (·.reserve m') := by
  refine .const ?_
  rintro ⟨heap, w⟩ ⟨heap', w'⟩ ⟨hheap, hw⟩
  have hsize : heap.slots.size = heap'.slots.size := hheap.size_eq
  rw [inHeap_run, inHeap_run]
  refine .ok ?_ ⟨⟨?_, fun i => ?_⟩, hw⟩
  · rw [Heap.reserve_eq, Heap.reserve_eq, hsize]
    exact (h _).1
  · rw [Heap.size_reserve, Heap.size_reserve, hsize, (h _).2]
  · rw [Heap.read_reserve, Heap.read_reserve]
    exact hheap.read i

theorem newSlot_follows :
    (withHeaps L plain T).Follows Eq (inHeap (·.reserve newSlot))
      fun _ _ => inHeap (·.reserve newSlot) :=
  reserve_follows fun _ => ⟨rfl, rfl⟩

theorem fill_follows {slot : Nat} {v v' : Value β σ} (h : Value.AlikeForced L plain v v') :
    (withHeaps L plain T).Follows (Value.AlikeForced L plain) (inHeap (·.fill slot v))
      fun _ _ => inHeap (·.fill slot v') := by
  refine .const ?_
  rintro ⟨heap, w⟩ ⟨heap', w'⟩ ⟨hheap, hw⟩
  have hslot := hheap.read slot
  rw [inHeap_run, inHeap_run]
  generalize hx : heap.read slot = x at hslot
  generalize hx' : heap'.read slot = x' at hslot
  cases hslot with
  | some hold =>
      rw [Heap.fill_of_read hx, Heap.fill_of_read hx']
      exact .ok hold ⟨hheap, hw⟩
  | none =>
      rw [Heap.fill_fst_of_none hx, Heap.fill_fst_of_none hx']
      refine .ok h ⟨⟨?_, fun i => ?_⟩, hw⟩
      · rw [Heap.size_fill, Heap.size_fill, hheap.size_eq]
      · rw [Heap.read_fill_of_none hx, Heap.read_fill_of_none hx', hheap.size_eq]
        split
        · exact .some h
        · exact hheap.read i

/-- What is in a slot. -/
theorem get_follows (slot : Nat) :
    (withHeaps L plain T).Follows
      (fun m m' => Option.Rel (Value.AlikeForced L plain) (m.heap.read slot) (m'.heap.read slot))
      get fun _ _ => get :=
  .const fun _ _ h => .ok (h.1.read slot) h

end

/-! ## Settings that are alike -/

/-- A setting with another meaning of steps. -/
def Setting.withInterp (cfg : Setting β σ) (i : Interp β σ) : Setting β σ := { cfg with interp := i }

@[simp]
theorem Setting.env_withInterp (cfg : Setting β σ) (i : Interp β σ) :
    (cfg.withInterp i).env = cfg.env := rfl

@[simp]
theorem Setting.steps_withInterp (cfg : Setting β σ) (i : Interp β σ) :
    (cfg.withInterp i).steps = cfg.steps := rfl

/-- What forcing does with a suspended computation: if its slot is empty, its code is run. -/
def suspended (cfg : Setting β σ) (fuel slot : Nat) (code : Eval β σ (Code β σ))
    (frame : List (Value β σ)) : Eval β σ (Value β σ) := do
  match (← get).heap.read slot with
  | some v => pure v
  | none => do
    let v ← run cfg fuel (← code) frame
    inHeap (·.fill slot v)

/-- Settings that are alike; on the right, what steps do may depend on how deep runs may nest. -/
structure Setting.Like (T : Tie (Halt β) (World β σ) (Halt β) (World β σ)) (L : Likeness β σ)
    (plain : String → Prop) (cfg cfg' : Setting β σ) (I : Nat → Interp β σ) : Prop where
  /-- Names mean related steps. -/
  lookup : ∀ c, L.const c → Option.Rel L.step (cfg.steps.lookup c) (cfg'.steps.lookup c)
  /-- Names that may occur and mean no steps are plain. -/
  plain_of_lookup : ∀ c, L.const c → cfg.steps.lookup c = none → plain c
  /-- Plain names may occur. -/
  const_of_plain : ∀ c, plain c → L.const c
  /-- Plain names mean alike terms. -/
  unfoldable : ∀ c, plain c →
    Option.Rel (L.Alike 0) (cfg.env.unfoldable c) (cfg'.env.unfoldable c)
  /-- What steps do goes alike. -/
  interp : ∀ {s s' ts ts'}, L.step s s' → L.AlikeArgs 0 ts ts' →
    T.Follows (Option.Rel (L.Alike 0)) (cfg.interp s.body cfg.env ts)
      fun l _ => I l s'.body cfg'.env ts'
  /-- So does what they do to values, and both leave them alone or neither. -/
  direct : ∀ {s s'}, L.step s s' → Option.Rel
    (fun f f' => ∀ vs vs', Value.AlikeArgs L plain vs vs' →
      T.Follows (Option.Rel (Value.Alike L plain)) (f vs) fun _ _ => f' vs')
    (cfg.direct s.body) (cfg'.direct s'.body)
  /-- There are no variables without value, or the issues about them are related. -/
  unbound : L.closed ∨ ∀ i, T.halt (.issue (unbound i)) (.issue (unbound i))

section

variable {T : Tie (Halt β) (World β σ) (Halt β) (World β σ)} {L : Likeness β σ}
  {plain : String → Prop} {cfg cfg' : Setting β σ} {I : Nat → Interp β σ}

section Parts

variable {frame frame' : List (Value β σ)}

theorem lookup_follows
    (hunbound : L.closed ∨ ∀ i, T.halt (.issue (unbound i)) (.issue (unbound i)))
    (hframe : Value.AlikeArgs L plain frame frame') {i : Nat} (hi : L.closed → i < frame.length) :
    (withHeaps L plain T).Follows (Value.Alike L plain) (lookup frame i)
      fun _ _ => lookup frame' i := by
  have hget := hframe.getElem? i
  unfold lookup
  generalize hx : frame[i]? = x at hget
  generalize frame'[i]? = x' at hget
  cases hget with
  | some hv => exact .pure hv
  | none =>
      rcases hunbound with hclosed | hunbound
      · have hle := List.getElem?_eq_none_iff.mp hx
        have hlt := hi hclosed
        omega
      · exact .throw (hunbound i)

theorem delayed_follows
    (hunbound : L.closed ∨ ∀ i, T.halt (.issue (unbound i)) (.issue (unbound i)))
    (hframe : Value.AlikeArgs L plain frame frame') {d d' : Delayed β σ}
    (hd : Delayed.Alike L plain frame.length d d') :
    (withHeaps L plain T).Follows (Value.Alike L plain) (delayed frame d)
      fun _ _ => delayed frame' d' := by
  cases hd with
  | var hi => exact lookup_follows hunbound hframe hi
  | lit => exact .pure .lit
  | blob hb => exact .pure (.blob hb)
  | thunk ht hc =>
      refine newSlot_follows.bind ?_
      rintro slot _ rfl
      exact .pure (.thunk ht hframe hc)

theorem ofTerm_follows {t t' : Term β σ} (ht : L.Alike 0 t t') :
    (withHeaps L plain T).Follows (Value.Alike L plain) (ofTerm t) fun _ _ => ofTerm t' := by
  have hthunk : (withHeaps L plain T).Follows (Value.Alike L plain)
      (do return .thunk (← inHeap (·.reserve newSlot)) t [] none)
      fun _ _ => do return .thunk (← inHeap (·.reserve newSlot)) t' [] none := by
    refine newSlot_follows.bind ?_
    rintro slot _ rfl
    exact .pure (.unknown ht .nil)
  cases ht with
  | lit => exact .pure .lit
  | blob hb => exact .pure (.blob hb)
  | _ => exact hthunk

end Parts

/-! ## Evaluation -/

section

variable (T L plain cfg cfg' I)

/-- With a given amount of fuel, the machine takes alike code and values to alike values, and never to
suspended computations. -/
structure AlikeAt (n : Nat) : Prop where
  run : ∀ {code code' frame frame'}, Code.Alike L plain frame.length code code' →
    Value.AlikeArgs L plain frame frame' →
    (withHeaps L plain T).Follows (Value.AlikeForced L plain)
      (run cfg n code frame) fun l m => run (cfg'.withInterp (I l)) m code' frame'
  unfold : ∀ {c}, plain c →
    (withHeaps L plain T).Follows (Value.AlikeForced L plain)
      (unfold cfg n c) fun l m => unfold (cfg'.withInterp (I l)) m c
  force : ∀ {v v'}, Value.Alike L plain v v' →
    (withHeaps L plain T).Follows (Value.AlikeForced L plain)
      (force cfg n v) fun l m => force (cfg'.withInterp (I l)) m v'
  apply : ∀ {f f' vs vs'}, Value.Alike L plain f f' →
    Value.AlikeArgs L plain vs vs' →
    (withHeaps L plain T).Follows (Value.AlikeForced L plain)
      (apply cfg n f vs) fun l m => apply (cfg'.withInterp (I l)) m f' vs'
  applyForced : ∀ {f f' vs vs'}, Value.Alike L plain f f' →
    Value.AlikeArgs L plain vs vs' →
    (withHeaps L plain T).Follows (Value.AlikeForced L plain)
      (applyForced cfg n f vs) fun l m => applyForced (cfg'.withInterp (I l)) m f' vs'
  applyRest : ∀ {f f' vs vs'}, Value.AlikeForced L plain f f' →
    Value.AlikeArgs L plain vs vs' →
    (withHeaps L plain T).Follows (Value.AlikeForced L plain)
      (applyRest cfg n f vs) fun l m => applyRest (cfg'.withInterp (I l)) m f' vs'
  readback : ∀ {v v'}, Value.Alike L plain v v' →
    (withHeaps L plain T).Follows (L.Alike 0)
      (readback cfg n v) fun l m => readback (cfg'.withInterp (I l)) m v'

end

theorem alikeAt_zero (hT : T.Fair L) : AlikeAt T L plain cfg cfg' I 0 where
  run _ _ := .mute fun _ => hT.exhausted _
  unfold _ := .mute fun _ => hT.exhausted _
  force _ := .mute fun _ => hT.exhausted _
  apply _ _ := .mute fun _ => hT.exhausted _
  applyForced _ _ := .mute fun _ => hT.exhausted _
  applyRest _ _ := .mute fun _ => hT.exhausted _
  readback _ := .mute fun _ => hT.exhausted _

section Step

variable {n : Nat} (ih : AlikeAt T L plain cfg cfg' I n)

include ih

theorem apply_alike {f f' : Value β σ} {vs vs' : List (Value β σ)}
    (hf : Value.Alike L plain f f')
    (hvs : Value.AlikeArgs L plain vs vs') :
    (withHeaps L plain T).Follows (Value.AlikeForced L plain)
      (apply cfg (n + 1) f vs) fun l m => apply (cfg'.withInterp (I l)) m f' vs' := by
  refine .succ ?_
  simp only [apply]
  exact (ih.force hf).bind fun g g' hg => ih.applyForced hg.1 hvs

theorem applyRest_alike {f f' : Value β σ} {vs vs' : List (Value β σ)}
    (hf : Value.AlikeForced L plain f f')
    (hvs : Value.AlikeArgs L plain vs vs') :
    (withHeaps L plain T).Follows (Value.AlikeForced L plain)
      (applyRest cfg (n + 1) f vs) fun l m => applyRest (cfg'.withInterp (I l)) m f' vs' := by
  refine .succ ?_
  simp only [applyRest]
  cases hvs with
  | nil => exact .pure hf
  | cons hv hvs => exact ih.applyForced hf.1 (.cons hv hvs)

theorem readback_alike (hT : T.Fair L) {v v' : Value β σ}
    (hv : Value.Alike L plain v v') :
    (withHeaps L plain T).Follows (L.Alike 0) (readback cfg (n + 1) v)
      fun l m => readback (cfg'.withInterp (I l)) m v' := by
  -- the arguments are read back one by one and put behind the head
  have hargs {h h' : Term β σ} (hh : L.Alike 0 h h') {vs vs' : List (Value β σ)}
      (hvs : Value.AlikeArgs L plain vs vs') :
      (withHeaps L plain T).Follows (L.Alike 0)
        (vs.mapM (readback cfg n) >>= fun ts => pure (h.apps ts))
        fun l m => vs'.mapM (readback (cfg'.withInterp (I l)) m) >>= fun ts =>
          pure (h'.apps ts) := by
    refine (Tie.Follows.mapM (fun _ _ hu => ih.readback hu)
      (Value.alikeArgs_iff_forall₂.mp hvs)).bind fun ts ts' hts => ?_
    exact .pure (hh.apps (Term.alikeArgs_iff_forall₂.mpr hts))
  refine .succ ?_
  simp only [readback]
  refine (ih.force hv).bind ?_
  rintro u u' ⟨hu, hforced⟩
  cases hu with
  | ctor hvs => exact hargs .ctor hvs
  | lit => exact .pure .lit
  | blob hb => exact .pure (.blob hb)
  | lam ht hc hfs hvs =>
      refine (bounded_follows hT ?_).bind fun f f' hf => hargs hf hvs
      refine Term.rel_bind hfs.sources? fun ts ts' hts => ?_
      exact Term.Alike.instantiate? (c := 0) hts.1 (by rwa [Nat.zero_add, Nat.add_zero, hts.2])
  | step ht hs hvs => exact hargs ht hvs
  | neutral ht hvs => exact hargs ht hvs
  | stuck hs hbrs hfs hvs =>
      exact (bounded_follows hT (Value.Alike.stuck hs hbrs hfs .nil).source?).bind
        fun f f' hf => hargs hf hvs
  | unknown => cases hforced
  | thunk => cases hforced

theorem suspended_alike {slot : Nat} {code : Eval β σ (Code β σ)}
    {code' : Family (Halt β) (Memory β σ) (Code β σ)} {fs fs' : List (Value β σ)}
    (hcode : (withHeaps L plain T).Follows (Code.Alike L plain fs.length) code code')
    (hfs : Value.AlikeArgs L plain fs fs') :
    (withHeaps L plain T).Follows (Value.AlikeForced L plain) (suspended cfg n slot code fs)
      fun l k => suspended (cfg'.withInterp (I l)) k slot (code' l k) fs' := by
  unfold suspended
  refine (get_follows slot).bind fun m m' hread => ?_
  generalize m.heap.read slot = x at hread ⊢
  generalize m'.heap.read slot = x' at hread ⊢
  cases hread with
  | some hold => exact .pure hold
  | none =>
      refine hcode.bind fun c c' hc => ?_
      exact (ih.run hc hfs).bind fun u u' hu => fill_follows hu

variable (hS : Setting.Like T L plain cfg cfg' I)

include hS

theorem unfold_alike {c : String} (hc : plain c) :
    (withHeaps L plain T).Follows (Value.AlikeForced L plain)
      (unfold cfg (n + 1) c) fun l m => unfold (cfg'.withInterp (I l)) m c := by
  have hbody := hS.unfoldable c hc
  refine .succ ?_
  simp only [unfold, Setting.env_withInterp, Setting.steps_withInterp]
  generalize cfg.env.unfoldable c = x at hbody ⊢
  generalize cfg'.env.unfoldable c = x' at hbody ⊢
  cases hbody with
  | none => exact .pure ⟨.neutral (.const (hS.const_of_plain c hc)) .nil, rfl⟩
  | some hb =>
      refine (reserve_follows (compile_alike hS.lookup hS.plain_of_lookup hb)).bind fun code code' hcode => ?_
      exact ih.run hcode .nil

theorem force_alike {v v' : Value β σ} (hv : Value.Alike L plain v v') :
    (withHeaps L plain T).Follows (Value.AlikeForced L plain)
      (force cfg (n + 1) v) fun l m => force (cfg'.withInterp (I l)) m v' := by
  cases hv with
  | unknown ht hfs =>
      exact .succ (suspended_alike ih
        (reserve_follows (compile_alike hS.lookup hS.plain_of_lookup ht)) hfs)
  | thunk ht hfs hc => exact .succ (suspended_alike ih (.pure hc) hfs)
  | ctor hvs => exact .succ (.pure ⟨.ctor hvs, rfl⟩)
  | lit => exact .succ (.pure ⟨.lit, rfl⟩)
  | blob hb => exact .succ (.pure ⟨.blob hb, rfl⟩)
  | lam ht hc hfs hvs =>
      exact .succ (.pure ⟨.lam ht hc hfs hvs, rfl⟩)
  | step ht hs hvs =>
      exact .succ (.pure ⟨.step ht hs hvs, rfl⟩)
  | neutral ht hvs =>
      exact .succ (.pure ⟨.neutral ht hvs, rfl⟩)
  | stuck hs hbrs hfs hvs =>
      exact .succ (.pure ⟨.stuck hs hbrs hfs hvs, rfl⟩)

theorem run_alike {code code' : Code β σ} {frame frame' : List (Value β σ)}
    (hcode : Code.Alike L plain frame.length code code')
    (hframe : Value.AlikeArgs L plain frame frame') :
    (withHeaps L plain T).Follows (Value.AlikeForced L plain)
      (run cfg (n + 1) code frame) fun l m => run (cfg'.withInterp (I l)) m code' frame' := by
  cases hcode with
  | @var _ i hi =>
      refine .succ ?_
      simp only [run]
      exact (lookup_follows hS.unbound hframe hi).bind fun v v' hv => ih.force hv
  | @const _ c slot hc =>
      refine .succ ?_
      simp only [run]
      refine (get_follows slot).bind fun s s' hread => ?_
      generalize s.heap.read slot = x at hread ⊢
      generalize s'.heap.read slot = x' at hread ⊢
      cases hread with
      | some hold => exact .pure hold
      | none => exact (ih.unfold hc).bind fun u u' hu => fill_follows hu
  | step ht hs =>
      refine .succ ?_
      simp only [run]
      exact ih.apply (.step ht hs .nil) .nil
  | ctor => exact .succ (.pure ⟨.ctor .nil, rfl⟩)
  | neutral ht =>
      exact .succ (.pure ⟨.neutral ht .nil, rfl⟩)
  | lit => exact .succ (.pure ⟨.lit, rfl⟩)
  | blob hb => exact .succ (.pure ⟨.blob hb, rfl⟩)
  | @app _ h h' as as' hh has =>
      refine .succ ?_
      simp only [run]
      refine (ih.run hh hframe).bind fun f f' hf => ?_
      refine (Tie.Follows.mapM (fun _ _ hd => delayed_follows hS.unbound hframe hd)
        (Delayed.alikeArgs_iff_forall₂.mp has)).bind fun vs vs' hvs => ?_
      exact ih.apply hf.1 (Value.alikeArgs_iff_forall₂.mpr hvs)
  | lam ht hb =>
      exact .succ (.pure ⟨.lam ht hb hframe .nil, rfl⟩)
  | @case _ s s' brs brs' hs hbrs =>
      refine .succ ?_
      simp only [run]
      refine (ih.run hs hframe).bind fun v v' hv => ?_
      have hsel := select_alike hv.1 hbrs
      generalize select v brs = x at hsel ⊢
      generalize select v' brs' = x' at hsel ⊢
      cases hsel with
      | none => exact .pure ⟨.stuck hv.1 hbrs.sources hframe .nil, rfl⟩
      | @some x x' h =>
          refine ih.run ?_ (h.2.reverse.append hframe)
          rw [List.length_append, List.length_reverse, Nat.add_comm]
          exact h.1

theorem fire_alike (hT : T.Fair L) {s s' : Step σ} (hs : L.step s s') {vs vs' : List (Value β σ)}
    (hvs : Value.AlikeArgs L plain vs vs') :
    (withHeaps L plain T).Follows (Option.Rel (Value.Alike L plain))
      (fire cfg (readback cfg n) s vs)
      fun l m => fire (cfg'.withInterp (I l)) (readback (cfg'.withInterp (I l)) m) s' vs' := by
  have hdirect := hS.direct hs
  unfold fire
  have hwith (i : Interp β σ) : (cfg'.withInterp i).direct s'.body = cfg'.direct s'.body := rfl
  simp only [hwith]
  generalize cfg.direct s.body = x at hdirect ⊢
  generalize cfg'.direct s'.body = x' at hdirect ⊢
  cases hdirect with
  | some hf => exact inWorld_follows (hf vs vs' hvs)
  | none =>
      refine (Tie.Follows.mapM (fun _ _ hu => ih.readback hu)
        (Value.alikeArgs_iff_forall₂.mp hvs)).bind fun ts ts' hts => ?_
      have hts := Term.alikeArgs_iff_forall₂.mpr hts
      refine (inWorld_follows (hT.note hs hts)).bind fun _ _ _ => ?_
      refine (inWorld_follows (hS.interp hs hts)).bind fun r r' hr => ?_
      cases hr with
      | none => exact .pure .none
      | some hr => exact (ofTerm_follows hr).bind fun u u' hu => .pure (.some hu)

theorem applyForced_alike (hT : T.Fair L) (hL : L.KeepsArity) {f f' : Value β σ}
    {vs vs' : List (Value β σ)} (hf : Value.Alike L plain f f')
    (hvs : Value.AlikeArgs L plain vs vs') :
    (withHeaps L plain T).Follows (Value.AlikeForced L plain)
      (applyForced cfg (n + 1) f vs)
      fun l m => applyForced (cfg'.withInterp (I l)) m f' vs' := by
  have hthunk := hf
  cases hf with
  | @lam k t t' c c' fs fs' ws ws' ht hc hfs hws =>
      have hheld := hws.append hvs
      refine .succ ?_
      simp only [applyForced, hheld.length_eq]
      split
      · exact .pure ⟨.lam ht hc hfs hheld, rfl⟩
      next hlt =>
        refine (ih.run ?_ ((hheld.take k).reverse.append hfs)).bind
          fun u u' hu => ih.applyRest hu (hheld.drop k)
        have hlen : (((ws ++ vs).take k).reverse ++ fs).length = fs.length + k := by
          rw [List.length_append, List.length_reverse, List.length_take, hheld.length_eq]
          omega
        rwa [hlen]
  | @step t t' s s' ws ws' ht hs hws =>
      have hheld := hws.append hvs
      refine .succ ?_
      simp only [applyForced, hheld.length_eq, (hL hs).2]
      split
      · exact .pure ⟨.step ht hs hheld, rfl⟩
      next hlt =>
        refine (fire_alike ih hS hT hs (hheld.take _)).bind fun r r' hr => ?_
        cases hr with
        | some hr =>
            refine (ih.force hr).bind fun u u' hu => ?_
            exact ih.applyRest hu (hheld.drop _)
        | none =>
            refine (Tie.Follows.mapM (fun _ _ hu => ih.readback hu)
              (Value.alikeArgs_iff_forall₂.mp (hheld.take _))).bind fun ts ts' hts => ?_
            exact .pure ⟨.neutral (ht.apps (Term.alikeArgs_iff_forall₂.mpr hts)) (hheld.drop _), rfl⟩
  | ctor hws =>
      exact .succ (.pure ⟨.ctor (hws.append hvs), rfl⟩)
  | neutral ht hws =>
      exact .succ
        (.pure ⟨.neutral ht (hws.append hvs), rfl⟩)
  | stuck hs hbrs hfs hws =>
      exact .succ
        (.pure ⟨.stuck hs hbrs hfs (hws.append hvs), rfl⟩)
  | lit =>
      refine .succ ?_
      simp only [applyForced]
      cases hvs with
      | nil => exact .pure ⟨.lit, rfl⟩
      | cons hv hvs => exact .pure ⟨.neutral .lit (.cons hv hvs), rfl⟩
  | blob hb =>
      refine .succ ?_
      simp only [applyForced]
      cases hvs with
      | nil => exact .pure ⟨.blob hb, rfl⟩
      | cons hv hvs => exact .pure ⟨.neutral (.blob hb) (.cons hv hvs), rfl⟩
  | unknown | thunk =>
      refine .succ ?_
      simp only [applyForced]
      exact (ih.force hthunk).bind fun u u' hu => ih.applyRest hu hvs

end Step

/-- The machine takes alike code and values to alike values. -/
theorem alikeAt (hT : T.Fair L) (hL : L.KeepsArity) (hS : Setting.Like T L plain cfg cfg' I) (n : Nat) :
    AlikeAt T L plain cfg cfg' I n := by
  induction n with
  | zero => exact alikeAt_zero hT
  | succ n ih =>
      exact {
        run := run_alike ih hS
        unfold := unfold_alike ih hS
        force := force_alike ih hS
        apply := apply_alike ih
        applyForced := applyForced_alike ih hS hT hL
        applyRest := applyRest_alike ih
        readback := readback_alike ih hT }

end

end TacticEngine.Machine
