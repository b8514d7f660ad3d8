/-
# TacticEngine.Proofs.Pairing.Machine -- evaluations beside each other.

From paired heaps and with the same fuel, the machine takes paired code and values to paired values, or breaks off
for the same reason.  It acts alike on the world in doing so, and reads back the same terms (`besideAt`).
-/
import TacticEngine.Proofs.Machine.Renaming
import TacticEngine.Proofs.Pairing.Heaps

namespace TacticEngine.Machine

variable {β σ α γ α' γ' : Type}

namespace Pairing

/-! ## Beside each other -/

section

variable (steps : StepTable σ) (π : Pairing β σ) (V : Pairing β σ → α → α' → Prop)

/-- Both break off for the same reason, or both go on to memories that are paired, with some more pairs. -/
inductive Ends (h h' : Heap β σ) :
    EStateM.Result (Halt β) (Memory β σ) α → EStateM.Result (Halt β) (Memory β σ) α' → Prop where
  | ok {π' a a' m m'} : π.Grows steps h h' π' m.heap m'.heap → π'.Heaps steps m.heap m'.heap →
      m.world = m'.world → V π' a a' → Ends h h' (.ok a m) (.ok a' m')
  | error {e m m'} : Ends h h' (.error e m) (.error e m')

/-- From paired heaps and equal worlds, the evaluations end beside each other. -/
def Beside (act : Eval β σ α) (act' : Eval β σ α') : Prop :=
  ∀ m m', π.Heaps steps m.heap m'.heap → m.world = m'.world →
    π.Ends steps V m.heap m'.heap (act m) (act' m')

end

section

variable {steps : StepTable σ} {π : Pairing β σ} {V : Pairing β σ → α → α' → Prop}
  {U : Pairing β σ → γ → γ' → Prop}

theorem Ends.after {π' : Pairing β σ} {h h' k k' : Heap β σ} (g : π.Grows steps h h' π' k k')
    {r : EStateM.Result (Halt β) (Memory β σ) α} {r' : EStateM.Result (Halt β) (Memory β σ) α'}
    (hr : π'.Ends steps V k k' r r') : π.Ends steps V h h' r r' := by
  cases hr with
  | ok g' hm hw ha => exact .ok (g.trans g') hm hw ha
  | error => exact .error

theorem Ends.bind {h h' : Heap β σ} {act : Eval β σ α} {act' : Eval β σ α'} {m m' : Memory β σ}
    {f : α → Eval β σ γ} {f' : α' → Eval β σ γ'} (hr : π.Ends steps V h h' (act m) (act' m'))
    (hf : ∀ π' a a', π.Le π' → V π' a a' → π'.Beside steps U (f a) (f' a')) :
    π.Ends steps U h h' ((act >>= f) m) ((act' >>= f') m') := by
  generalize hx : act m = r at hr
  generalize hx' : act' m' = r' at hr
  cases hr with
  | ok g hm hw ha =>
      rw [run_bind_ok hx, run_bind_ok hx']
      exact (hf _ _ _ g.le ha _ _ hm hw).after g
  | error =>
      rw [run_bind_error hx, run_bind_error hx']
      exact .error

namespace Beside

variable {act : Eval β σ α} {act' : Eval β σ α'}

theorem pure {a : α} {a' : α'} (h : V π a a') : π.Beside steps V (Pure.pure a) (Pure.pure a') :=
  fun m m' hm hw => .ok (.refl π m.heap m'.heap) hm hw h

theorem throw {e : Halt β} : π.Beside steps V (MonadExcept.throw e) (MonadExcept.throw e) :=
  fun _ _ _ _ => .error

theorem bind {f : α → Eval β σ γ} {f' : α' → Eval β σ γ'} (h : π.Beside steps V act act')
    (hf : ∀ π' a a', π.Le π' → V π' a a' → π'.Beside steps U (f a) (f' a')) :
    π.Beside steps U (act >>= f) (act' >>= f') :=
  fun m m' hm hw => (h m m' hm hw).bind hf

theorem imp {W : Pairing β σ → α → α' → Prop} (h : π.Beside steps V act act')
    (hW : ∀ π' a a', V π' a a' → W π' a a') : π.Beside steps W act act' := by
  intro m m' hm hw
  have hr := h m m' hm hw
  generalize act m = r at hr ⊢
  generalize act' m' = r' at hr ⊢
  cases hr with
  | ok g hm hw ha => exact .ok g hm hw (hW _ _ _ ha)
  | error => exact .error

theorem inWorld (act : Act β σ α) :
    π.Beside steps (fun _ => Eq) (Machine.inWorld act) (Machine.inWorld act) := by
  rintro ⟨heap, w⟩ ⟨heap', _⟩ hm rfl
  rw [inWorld_run, inWorld_run]
  cases act w with
  | ok a w' => exact .ok (.refl π heap heap') hm rfl rfl
  | error e w' => exact .error

theorem reserve {R : (Nat → Nat → Prop) → α → α' → Prop} {m : Slots α} {m' : Slots α'} (h : InStep R m m') :
    π.Beside steps (fun π' => R π'.pairs) (inHeap (·.reserve m)) (inHeap (·.reserve m')) := by
  rintro ⟨heap, w⟩ ⟨heap', _⟩ hm rfl
  obtain ⟨k, hk, hk', hR⟩ := h heap.slots.size heap'.slots.size
  have hsize : heap.slots.size + k ≤ (heap.reserve m).2.slots.size := by
    rw [Heap.size_reserve, hk]
    omega
  have hsize' : heap'.slots.size + k ≤ (heap'.reserve m').2.slots.size := by
    rw [Heap.size_reserve, hk']
    omega
  -- the slots that both sides take belong together in order, past all that belonged together before
  obtain ⟨hm', g⟩ := Heaps.extend hm hsize hsize' (Heap.read_reserve m heap) (Heap.read_reserve m' heap')
  rw [inHeap_run, inHeap_run]
  exact .ok g hm' rfl (hR _ fun i hi => .inr ⟨i, hi, rfl, rfl⟩)

theorem newSlot :
    π.Beside steps (fun π' s s' => π'.pairs s s') (inHeap (·.reserve newSlot)) (inHeap (·.reserve newSlot)) :=
  reserve newSlot_inStep

theorem fill {s s' : Nat} {v v' : Value β σ} (hs : π.pairs s s') (hv : Value.Paired steps π v v') :
    π.Beside steps (Value.Paired steps) (inHeap (·.fill s v)) (inHeap (·.fill s' v')) := by
  rintro ⟨heap, w⟩ ⟨heap', _⟩ hm rfl
  obtain ⟨hfilled, hcontents⟩ := Contents.fill hm.contents hs hv
  rw [inHeap_run, inHeap_run]
  exact .ok (Grows.fill (.refl π heap heap') hs) ⟨hcontents, Reserve.fill hm.reserve hs⟩ rfl hfilled

/-- Looking for a value before computing it. -/
theorem orElse {s s' : Nat} (hs : π.pairs s s') {act act' : Eval β σ (Value β σ)}
    (h : ∀ m m', π.Heaps steps m.heap m'.heap → m.world = m'.world → m.heap.read s = none →
      π.Ends steps (Value.Paired steps) m.heap m'.heap (act m) (act' m')) :
    π.Beside steps (Value.Paired steps)
      (do
        match (← get).heap.read s with
        | some v => Pure.pure v
        | none => act)
      (do
        match (← get).heap.read s' with
        | some v => Pure.pure v
        | none => act') := by
  intro m m' hm hw
  have hget (m : Memory β σ) : (get : Eval β σ (Memory β σ)) m = .ok m m := rfl
  rw [run_bind_ok (hget m), run_bind_ok (hget m')]
  have hread := hm.contents.read hs
  generalize hx : m.heap.read s = x at hread
  generalize m'.heap.read s' = x' at hread
  cases hread with
  | some hv => exact pure hv m m' hm hw
  | none => exact h m m' hm hw hx

theorem lookup {frame frame' : List (Value β σ)} (hframe : Value.AllPaired steps π frame frame') (i : Nat) :
    π.Beside steps (Value.Paired steps) (Machine.lookup frame i) (Machine.lookup frame' i) := by
  have hget := hframe.getElem? i
  unfold Machine.lookup
  generalize frame[i]? = x at hget
  generalize frame'[i]? = x' at hget
  cases hget with
  | some hv => exact pure hv
  | none => exact throw

theorem ofTerm (t : Term β σ) : π.Beside steps (Value.Paired steps) (ofTerm t) (ofTerm t) := by
  have hthunk : π.Beside steps (Value.Paired steps)
      (do return .thunk (← inHeap (·.reserve Machine.newSlot)) t [] none)
      (do return .thunk (← inHeap (·.reserve Machine.newSlot)) t [] none) :=
    newSlot.bind fun π' s s' _ hs => pure (.term t hs .nil)
  cases t with
  | lit l => exact pure (.lit l)
  | blob b => exact pure (.blob b)
  | _ => exact hthunk

theorem delayed {ds ds' : List (Delayed β σ)} : ∀ {π : Pairing β σ} {frame frame' : List (Value β σ)},
    Value.AllPaired steps π frame frame' → Delayed.AllPaired π.pairs ds ds' →
    π.Beside steps (Value.AllPaired steps) (ds.mapM (delayed frame)) (ds'.mapM (delayed frame')) := by
  induction ds generalizing ds' with
  | nil =>
      intro π frame frame' _ hds
      cases hds
      rw [List.mapM_nil, List.mapM_nil]
      exact pure .nil
  | cons d ds ih =>
      intro π frame frame' hframe hds
      have hcons {d' : Delayed β σ} {ds' : List (Delayed β σ)}
          (hd : π.Beside steps (Value.Paired steps) (Machine.delayed frame d) (Machine.delayed frame' d'))
          (hds : Delayed.AllPaired π.pairs ds ds') : π.Beside steps (Value.AllPaired steps)
            ((d :: ds).mapM (Machine.delayed frame)) ((d' :: ds').mapM (Machine.delayed frame')) := by
        rw [List.mapM_cons, List.mapM_cons]
        refine hd.bind fun π₁ v v' hle hv => ?_
        refine (ih (hframe.mono hle) (hds.mono fun _ _ => hle.pairs)).bind fun π₂ vs vs' hle' hvs => ?_
        exact pure (.cons (hv.mono hle') hvs)
      cases hds with
      | var i hds => exact hcons (lookup hframe i) hds
      | lit l hds => exact hcons (pure (.lit l)) hds
      | blob b hds => exact hcons (pure (.blob b)) hds
      | thunk t hc hds =>
          refine hcons (newSlot.bind fun π' s s' hle hs => pure ?_) hds
          exact .thunk t hs (hframe.mono hle) (hc.mono fun _ _ => hle.pairs)

end Beside

end

end Pairing

/-! ## The machine -/

/-- With a given amount of fuel, the machine takes paired code and values to paired values. -/
structure BesideAt (cfg : Setting β σ) (n : Nat) : Prop where
  run : ∀ {π : Pairing β σ} {code code' frame frame'}, Code.Paired π.pairs code code' →
    Value.AllPaired cfg.steps π frame frame' →
    π.Beside cfg.steps (Value.Paired cfg.steps) (Machine.run cfg n code frame) (Machine.run cfg n code' frame')
  unfold : ∀ {π : Pairing β σ} {c},
    π.Beside cfg.steps (Value.Paired cfg.steps) (Machine.unfold cfg n c) (Machine.unfold cfg n c)
  force : ∀ {π : Pairing β σ} {v v'}, Value.Paired cfg.steps π v v' →
    π.Beside cfg.steps (Value.Paired cfg.steps) (Machine.force cfg n v) (Machine.force cfg n v')
  apply : ∀ {π : Pairing β σ} {f f' vs vs'}, Value.Paired cfg.steps π f f' → Value.AllPaired cfg.steps π vs vs' →
    π.Beside cfg.steps (Value.Paired cfg.steps) (Machine.apply cfg n f vs) (Machine.apply cfg n f' vs')
  applyForced : ∀ {π : Pairing β σ} {f f' vs vs'}, Value.Paired cfg.steps π f f' →
    Value.AllPaired cfg.steps π vs vs' →
    π.Beside cfg.steps (Value.Paired cfg.steps) (Machine.applyForced cfg n f vs) (Machine.applyForced cfg n f' vs')
  applyRest : ∀ {π : Pairing β σ} {v v' vs vs'}, Value.Paired cfg.steps π v v' →
    Value.AllPaired cfg.steps π vs vs' →
    π.Beside cfg.steps (Value.Paired cfg.steps) (Machine.applyRest cfg n v vs) (Machine.applyRest cfg n v' vs')
  readback : ∀ {π : Pairing β σ} {v v'}, Value.Paired cfg.steps π v v' →
    π.Beside cfg.steps (fun _ => Eq) (Machine.readback cfg n v) (Machine.readback cfg n v')

namespace BesideAt

open Pairing

variable {cfg : Setting β σ} {n : Nat} {π : Pairing β σ} (ih : BesideAt cfg n)

include ih

theorem readbacks {vs vs' : List (Value β σ)} : ∀ {π : Pairing β σ}, Value.AllPaired cfg.steps π vs vs' →
    π.Beside cfg.steps (fun _ => Eq) (vs.mapM (Machine.readback cfg n)) (vs'.mapM (Machine.readback cfg n)) := by
  induction vs generalizing vs' with
  | nil =>
      intro π hvs
      cases hvs
      rw [List.mapM_nil]
      exact .pure rfl
  | cons v vs ihvs =>
      intro π hvs
      cases hvs with
      | cons hv hvs =>
          rw [List.mapM_cons, List.mapM_cons]
          refine (ih.readback hv).bind fun π₁ t t' hle ht => ?_
          refine (ihvs (hvs.mono hle)).bind fun π₂ ts ts' _ hts => .pure ?_
          rw [ht, hts]

theorem readback_succ {v v' : Value β σ} (hv : Value.Paired cfg.steps π v v') :
    π.Beside cfg.steps (fun _ => Eq) (Machine.readback cfg (n + 1) v) (Machine.readback cfg (n + 1) v') := by
  rw [Machine.readback_succ, Machine.readback_succ]
  refine (ih.force hv).bind fun π₁ u u' _ hu => ?_
  rw [← hu.isThunk_eq]
  cases hforced : u.isThunk with
  | true => exact .throw
  | false =>
      simp only [Bool.false_eq_true, if_false]
      rw [← hu.head?_eq hforced]
      refine (Beside.inWorld (Act.bounded u.head?)).bind fun π₂ t t' hle ht => ?_
      refine (ih.readbacks (hu.args.mono hle)).bind fun π₃ ts ts' _ hts => .pure ?_
      rw [ht, hts]

theorem fire (hcfg : cfg.Derived) (s : Step σ) {vs vs' : List (Value β σ)}
    (hvs : Value.AllPaired cfg.steps π vs vs') :
    π.Beside cfg.steps (fun π' => Option.Rel (Value.Paired cfg.steps π'))
      (Machine.fire cfg (Machine.readback cfg n) s vs) (Machine.fire cfg (Machine.readback cfg n) s vs') := by
  simp only [Machine.fire, hcfg s.body]
  refine (ih.readbacks hvs).bind fun π₁ ts ts' _ hts => ?_
  subst hts
  refine (Beside.inWorld (Act.note (.fired s ts))).bind fun π₂ _ _ _ _ => ?_
  refine (Beside.inWorld (cfg.interp s.body cfg.env ts)).bind fun π₃ t? t?' _ ht => ?_
  subst ht
  cases t? with
  | none => exact .pure .none
  | some t => exact (Beside.ofTerm t).bind fun π₄ v v' _ hv => .pure (.some hv)

theorem applyForced_succ (hcfg : cfg.Derived) {f f' : Value β σ} {vs vs' : List (Value β σ)}
    (hf : Value.Paired cfg.steps π f f') (hvs : Value.AllPaired cfg.steps π vs vs') :
    π.Beside cfg.steps (Value.Paired cfg.steps) (Machine.applyForced cfg (n + 1) f vs)
      (Machine.applyForced cfg (n + 1) f' vs') := by
  cases hf with
  | @lam b b' frame frame' held held' arity t hb hframe hheld =>
      have hall := hheld.append hvs
      rw [Machine.applyForced, Machine.applyForced]
      simp only [hall.length_eq]
      split
      · exact .pure (.lam arity t hb hframe hall)
      · refine (ih.run hb ((hall.take arity).reverse.append hframe)).bind fun π₁ v v' hle hv => ?_
        exact ih.applyRest hv ((hall.drop arity).mono hle)
  | @step held held' t s hheld =>
      have hall := hheld.append hvs
      rw [Machine.applyForced, Machine.applyForced]
      simp only [hall.length_eq]
      split
      · exact .pure (.step t s hall)
      · refine (ih.fire hcfg s (hall.take s.arity)).bind fun π₁ v? v?' hle hv => ?_
        cases hv with
        | some hv =>
            refine (ih.force hv).bind fun π₂ u u' hle' hu => ?_
            exact ih.applyRest hu ((hall.drop s.arity).mono (hle.trans hle'))
        | none =>
            refine (ih.readbacks ((hall.take s.arity).mono hle)).bind fun π₂ ts ts' hle' hts => .pure ?_
            rw [hts]
            exact .neutral _ ((hall.drop s.arity).mono (hle.trans hle'))
  | ctor c hheld =>
      rw [Machine.applyForced, Machine.applyForced]
      exact .pure (.ctor c (hheld.append hvs))
  | neutral t hheld =>
      rw [Machine.applyForced, Machine.applyForced]
      exact .pure (.neutral t (hheld.append hvs))
  | stuck brs hs hframe hheld =>
      rw [Machine.applyForced, Machine.applyForced]
      exact .pure (.stuck brs hs hframe (hheld.append hvs))
  | lit l =>
      rw [Machine.applyForced, Machine.applyForced]
      cases hvs with
      | nil => exact .pure (.lit l)
      | cons hv hvs => exact .pure (.neutral _ (.cons hv hvs))
  | blob b =>
      rw [Machine.applyForced, Machine.applyForced]
      cases hvs with
      | nil => exact .pure (.blob b)
      | cons hv hvs => exact .pure (.neutral _ (.cons hv hvs))
  | thunk t hs hframe hc =>
      rw [Machine.applyForced, Machine.applyForced]
      exact (ih.force (.thunk t hs hframe hc)).bind fun π₁ v v' hle hv => ih.applyRest hv (hvs.mono hle)
  | term t hs hframe =>
      rw [Machine.applyForced, Machine.applyForced]
      exact (ih.force (.term t hs hframe)).bind fun π₁ v v' hle hv => ih.applyRest hv (hvs.mono hle)
  | early hs he =>
      rw [Machine.applyForced, Machine.applyForced]
      exact (ih.force (.early hs he)).bind fun π₁ v v' hle hv => ih.applyRest hv (hvs.mono hle)

/-- A term with code that has been made early, and one that is compiled now. -/
theorem evaluate_early {s s' b : Nat} {t : Term β σ} (hs : π.pairs s s') (he : π.early s b t) {m m' : Memory β σ}
    (hm : π.Heaps cfg.steps m.heap m'.heap) (hw : m.world = m'.world) (hempty : m.heap.read s = none) :
    π.Ends cfg.steps (Value.Paired cfg.steps) m.heap m'.heap
      ((evaluate cfg n t [] (some (compile cfg.steps t b).1) >>= fun v => inHeap (·.fill s v)) m)
      ((evaluate cfg n t [] none >>= fun v => inHeap (·.fill s' v)) m') := by
  obtain ⟨heap, world⟩ := m
  obtain ⟨heap', _⟩ := m'
  obtain rfl := hw
  have hempty : heap.read s = none := hempty
  obtain ⟨w, hb, hb', hcode⟩ := compile_inStep cfg.steps t b heap'.slots.size
  have hsize : (heap'.reserve (compile cfg.steps t)).2.slots.size = heap'.slots.size + w := by
    rw [Heap.size_reserve, hb']
    omega
  have hread' := Heap.read_reserve (compile cfg.steps t) heap'
  have hwithin (i : Nat) (hi : i < w) : Within cfg.steps t b (b + i) := (within_iff hb).mpr ⟨i, hi, rfl⟩
  -- the code knows the slots that were set aside for it and no others, and so it is run with these alone
  have hown : (empty.extend b heap'.slots.size w).Heaps cfg.steps heap (heap'.reserve (compile cfg.steps t)).2 :=
    heaps_own (fun i hi => hm.reserve.lt ⟨s, b, t, he, hwithin i hi⟩) hsize
      (fun i hi => (hm.reserve.spare he (hwithin i hi) hempty).1) hread'
  have hrun := ih.run (hcode (empty.extend b heap'.slots.size w).pairs fun i hi => .inr ⟨i, hi, rfl, rfl⟩) .nil
    ⟨heap, world⟩ ⟨_, world⟩ hown rfl
  have hreserve : evaluate cfg n t [] none ⟨heap', world⟩ =
      Machine.run cfg n (compile cfg.steps t heap'.slots.size).1 [] ⟨(heap'.reserve (compile cfg.steps t)).2, world⟩ :=
    run_bind_ok (inHeap_run _ heap' world)
  generalize hx : Machine.run cfg n (compile cfg.steps t b).1 [] ⟨heap, world⟩ = r at hrun
  generalize hx' : Machine.run cfg n (compile cfg.steps t heap'.slots.size).1 [] ⟨_, world⟩ = r' at hrun
  have hx : evaluate cfg n t [] (some (compile cfg.steps t b).1) ⟨heap, world⟩ = r := hx
  rw [hx'] at hreserve
  cases hrun with
  | error =>
      rw [run_bind_error hx, run_bind_error hreserve]
      exact .error
  | ok g hm' hw hv =>
      obtain ⟨hfilled, hheaps, hgrows⟩ := hm.own hs he hb hsize hread' g hempty hm'.contents hv
      rw [run_bind_ok hx, run_bind_ok hreserve]
      exact .ok hgrows hheaps hw hfilled

theorem force_succ {v v' : Value β σ} (hv : Value.Paired cfg.steps π v v') :
    π.Beside cfg.steps (Value.Paired cfg.steps) (Machine.force cfg (n + 1) v) (Machine.force cfg (n + 1) v') := by
  cases hforced : v.isThunk with
  | false =>
      rw [force_of_forced hforced, force_of_forced (hv.isThunk_eq ▸ hforced)]
      exact .pure hv
  | true =>
      cases hv with
      | thunk t hs hframe hc =>
          rw [force_thunk, force_thunk]
          refine Beside.orElse hs fun m m' hm hw _ => ?_
          exact (ih.run hc hframe).bind (fun π₁ u u' hle hu => .fill (hle.pairs hs) hu) m m' hm hw
      | term t hs hframe =>
          rw [force_thunk, force_thunk]
          refine Beside.orElse hs fun m m' hm hw _ => ?_
          have hrun : π.Beside cfg.steps (Value.Paired cfg.steps) (evaluate cfg n t _ none)
              (evaluate cfg n t _ none) :=
            (Beside.reserve (compile_inStep cfg.steps t)).bind fun π₁ c c' hle hc => ih.run hc (hframe.mono hle)
          exact hrun.bind (fun π₁ u u' hle hu => .fill (hle.pairs hs) hu) m m' hm hw
      | early hs he =>
          -- only here do the two sides differ: the code on the left was made before, and the one on the right is not
          rw [force_thunk, force_thunk]
          exact Beside.orElse hs fun m m' hm hw hempty => ih.evaluate_early hs he hm hw hempty
      | _ => cases hforced

theorem run_succ {code code' : Code β σ} {frame frame' : List (Value β σ)} (hcode : Code.Paired π.pairs code code')
    (hframe : Value.AllPaired cfg.steps π frame frame') :
    π.Beside cfg.steps (Value.Paired cfg.steps) (Machine.run cfg (n + 1) code frame)
      (Machine.run cfg (n + 1) code' frame') := by
  cases hcode with
  | var i =>
      rw [Machine.run, Machine.run]
      exact (Beside.lookup hframe i).bind fun π₁ v v' _ hv => ih.force hv
  | const c hs =>
      rw [Machine.run, Machine.run]
      refine Beside.orElse hs fun m m' hm hw _ => ?_
      exact ih.unfold.bind (fun π₁ u u' hle hu => .fill (hle.pairs hs) hu) m m' hm hw
  | step t s =>
      rw [Machine.run]
      exact ih.apply (.step t s .nil) .nil
  | ctor c =>
      rw [Machine.run]
      exact .pure (.ctor c .nil)
  | neutral t =>
      rw [Machine.run]
      exact .pure (.neutral t .nil)
  | lit l =>
      rw [Machine.run]
      exact .pure (.lit l)
  | blob b =>
      rw [Machine.run]
      exact .pure (.blob b)
  | app hc hds =>
      rw [Machine.run, Machine.run]
      -- the head may have added pairs, so what was paired before is taken along
      refine (ih.run hc hframe).bind fun π₁ f f' hle hf => ?_
      refine (Beside.delayed (hframe.mono hle) (hds.mono fun _ _ => hle.pairs)).bind fun π₂ vs vs' hle' hvs => ?_
      exact ih.apply (hf.mono hle') hvs
  | lam arity t hb =>
      rw [Machine.run, Machine.run]
      exact .pure (.lam arity t hb hframe .nil)
  | case hs hbrs =>
      rw [Machine.run, Machine.run]
      refine (ih.run hs hframe).bind fun π₁ v v' hle hv => ?_
      have hsel := select_paired hv (hbrs.mono fun _ _ => hle.pairs)
      generalize select v _ = x at hsel
      generalize select v' _ = x' at hsel
      cases hsel with
      | none =>
          rw [hbrs.sources]
          exact .pure (.stuck _ hv (hframe.mono hle) .nil)
      | @some y y' hbranch =>
          obtain ⟨⟨_, body⟩, bound⟩ := y
          obtain ⟨⟨_, body'⟩, bound'⟩ := y'
          exact ih.run hbranch.1 (hbranch.2.reverse.append (hframe.mono hle))

theorem unfold_succ {c : String} : π.Beside cfg.steps (Value.Paired cfg.steps) (Machine.unfold cfg (n + 1) c)
    (Machine.unfold cfg (n + 1) c) := by
  rw [Machine.unfold]
  cases cfg.env.unfoldable c with
  | none => exact .pure (.neutral _ .nil)
  | some body =>
      exact (Beside.reserve (compile_inStep cfg.steps body)).bind fun π₁ code code' _ hcode => ih.run hcode .nil

theorem apply_succ {f f' : Value β σ} {vs vs' : List (Value β σ)} (hf : Value.Paired cfg.steps π f f')
    (hvs : Value.AllPaired cfg.steps π vs vs') : π.Beside cfg.steps (Value.Paired cfg.steps)
      (Machine.apply cfg (n + 1) f vs) (Machine.apply cfg (n + 1) f' vs') := by
  rw [Machine.apply, Machine.apply]
  exact (ih.force hf).bind fun π₁ g g' hle hg => ih.applyForced hg (hvs.mono hle)

theorem applyRest_succ {v v' : Value β σ} {vs vs' : List (Value β σ)} (hv : Value.Paired cfg.steps π v v')
    (hvs : Value.AllPaired cfg.steps π vs vs') : π.Beside cfg.steps (Value.Paired cfg.steps)
      (Machine.applyRest cfg (n + 1) v vs) (Machine.applyRest cfg (n + 1) v' vs') := by
  rw [Machine.applyRest, Machine.applyRest]
  cases hvs with
  | nil => exact .pure hv
  | cons hu hus => exact ih.applyForced hv (.cons hu hus)

end BesideAt

/-- The machine goes on beside itself, from paired code and values. -/
theorem besideAt {cfg : Setting β σ} (hcfg : cfg.Derived) (n : Nat) : BesideAt cfg n := by
  induction n with
  | zero =>
      constructor
      all_goals
        intros
        exact .throw
  | succ n ih =>
      exact {
        run := ih.run_succ
        unfold := ih.unfold_succ
        force := ih.force_succ
        apply := ih.apply_succ
        applyForced := ih.applyForced_succ hcfg
        applyRest := ih.applyRest_succ
        readback := ih.readback_succ }

end TacticEngine.Machine
