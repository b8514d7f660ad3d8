/-
# TacticEngine.Proofs.Machine.Inert -- data pass through the machine unchanged.

What the machine makes of an inert term is a value that stands for the term: a literal, a native value, a
constructor whose arguments stand for the arguments, or a suspended computation of an inert term.  Which
term a slot of the heap is meant for is recorded in a `Plan`; a heap keeps to the plan if what its slots
hold stands for what is planned.  Plans and heaps only grow.  So what is read back is the term itself.
-/
import TacticEngine.Proofs.Likeness.Value
import TacticEngine.Proofs.Machine.Heap
import TacticEngine.Proofs.Term.Inert

namespace TacticEngine.Machine

variable {β σ : Type}

/-! ## Compiled data -/

/-- The code of an inert term. -/
def inertCode (steps : StepTable σ) (t : Term β σ) : Code β σ := (compile steps t 0).1

/-- An inert argument, ready to be passed. -/
def inertDelayed (steps : StepTable σ) : Term β σ → Delayed β σ
  | .lit l => .lit l
  | .blob b => .blob b
  | t => .thunk t (inertCode steps t)

theorem slots_bind {α γ : Type} (m : Slots α) (f : α → Slots γ) (n : Nat) :
    (m >>= f) n = f (m n).1 (m n).2 := rfl

/-- Inert arguments take no slots if their terms do not. -/
theorem delayAll_inert {steps : StepTable σ} {as : List (Term β σ)} (has : ∀ a ∈ as, a.Inert)
    (h : ∀ a ∈ as, ∀ n, compile steps a n = (inertCode steps a, n)) (n : Nat) :
    delayAll steps as n = (as.map (inertDelayed steps), n) := by
  induction as with
  | nil => rfl
  | cons a as ih =>
      have hrest := ih (fun b hb => has b (List.mem_cons_of_mem a hb)) fun b hb =>
        h b (List.mem_cons_of_mem a hb)
      have hcode := h a List.mem_cons_self n
      have hthunk (hd : delayAll steps (a :: as) = (do
            let code ← compile steps a
            let ds ← delayAll steps as
            return .thunk a code :: ds)) (hi : inertDelayed steps a = .thunk a (inertCode steps a)) :
          delayAll steps (a :: as) n = ((a :: as).map (inertDelayed steps), n) := by
        rw [hd, slots_bind, hcode, slots_bind, hrest, List.map_cons, hi]
        rfl
      cases has a List.mem_cons_self with
      | lit l =>
          rw [delayAll, slots_bind, hrest]
          rfl
      | blob b =>
          rw [delayAll, slots_bind, hrest]
          rfl
      | ctor c => exact hthunk rfl rfl
      | app c _ _ => exact hthunk rfl rfl

theorem compile_inert {steps : StepTable σ} {t : Term β σ} (ht : t.Inert) (n : Nat) :
    compile steps t n = (inertCode steps t, n) := by
  induction ht generalizing n with
  | @app c as _ has ih =>
      have happ (m : Nat) : compile steps (.app (.ctor c) as) m =
          (.app (.ctor c) (as.map (inertDelayed steps)), m) := by
        rw [compile, slots_bind, slots_bind]
        erw [delayAll_inert has ih]
        rfl
      rw [happ, inertCode, happ]
  | _ => rfl

theorem inertCode_app {steps : StepTable σ} (c : String) {as : List (Term β σ)}
    (has : ∀ a ∈ as, a.Inert) :
    inertCode steps (.app (.ctor c) as) = .app (.ctor c) (as.map (inertDelayed steps)) := by
  have hargs (n : Nat) : delayAll steps as n = (as.map (inertDelayed steps), n) :=
    delayAll_inert has (fun a ha n => compile_inert (has a ha) n) n
  rw [inertCode, compile, slots_bind, slots_bind]
  erw [hargs]
  rfl

/-! ## Values that stand for data -/

/-- The terms that slots are meant for. -/
abbrev Plan (β σ : Type) := Nat → Option (Term β σ)

/-- What is planned in the one plan is planned in the other. -/
def Plan.Le (P Q : Plan β σ) : Prop := ∀ i t, P i = some t → Q i = some t

mutual
/-- The value stands for the inert term: it is what the machine makes of it, or is still to be
made. -/
inductive Value.StandsFor (steps : StepTable σ) (P : Plan β σ) : Term β σ → Value β σ → Prop where
  /-- A literal. -/
  | lit (l : Literal) : StandsFor steps P (.lit l) (.lit l)
  /-- A native value. -/
  | blob (b : Blob β) : StandsFor steps P (.blob b) (.blob b)
  /-- A constructor with values for its arguments. -/
  | ctor (c : String) {as : List (Term β σ)} {vs : List (Value β σ)} :
      StandForAll steps P as vs → StandsFor steps P ((Term.ctor c).apps as) (.ctor c vs)
  /-- A suspended computation, planned for the term. -/
  | thunk {i : Nat} {t : Term β σ} {frame : List (Value β σ)} {code? : Option (Code β σ)} :
      t.Inert → P i = some t → (∀ code ∈ code?, code = inertCode steps t) →
      StandsFor steps P t (.thunk i t frame code?)

/-- The values stand for the terms, one by one. -/
inductive Value.StandForAll (steps : StepTable σ) (P : Plan β σ) :
    List (Term β σ) → List (Value β σ) → Prop where
  /-- No values for no terms. -/
  | nil : StandForAll steps P [] []
  /-- One more value for one more term. -/
  | cons {t : Term β σ} {v : Value β σ} {ts : List (Term β σ)} {vs : List (Value β σ)} :
      StandsFor steps P t v → StandForAll steps P ts vs → StandForAll steps P (t :: ts) (v :: vs)
end

/-- The heap keeps to the plan: what is in a planned slot stands for the term and is not
suspended. -/
def Heap.KeepsTo (steps : StepTable σ) (P : Plan β σ) (h : Heap β σ) : Prop :=
  ∀ i t, P i = some t → i < h.slots.size ∧
    ∀ v, h.read i = some v → Value.StandsFor steps P t v ∧ v.isThunk = false

section

variable {steps : StepTable σ} {P Q : Plan β σ}

theorem Plan.Le.refl (P : Plan β σ) : P.Le P := fun _ _ => id

theorem Plan.Le.trans {R : Plan β σ} (hPQ : P.Le Q) (hQR : Q.Le R) : P.Le R :=
  fun i t h => hQR i t (hPQ i t h)

/-- The empty heap keeps to the empty plan. -/
theorem Heap.keepsTo_empty : Heap.KeepsTo steps (fun _ => none) ({} : Heap β σ) := fun _ _ => nofun

mutual
/-- Nothing that stands for a term ceases to do so as plans are made. -/
theorem Value.StandsFor.mono (hPQ : P.Le Q) :
    ∀ {t : Term β σ} {v : Value β σ}, Value.StandsFor steps P t v → Value.StandsFor steps Q t v
  | _, _, .lit l => .lit l
  | _, _, .blob b => .blob b
  | _, _, .ctor c h => .ctor c (h.mono hPQ)
  | _, _, .thunk ht hi hcode => .thunk ht (hPQ _ _ hi) hcode

theorem Value.StandForAll.mono (hPQ : P.Le Q) : ∀ {ts : List (Term β σ)} {vs : List (Value β σ)},
    Value.StandForAll steps P ts vs → Value.StandForAll steps Q ts vs
  | _, _, .nil => .nil
  | _, _, .cons h hs => .cons (h.mono hPQ) (hs.mono hPQ)
end

/-- Filling a planned slot with a value for its term is to plan. -/
theorem Heap.KeepsTo.fill {h : Heap β σ} (hh : h.KeepsTo steps P) {i : Nat} {t : Term β σ}
    (hi : P i = some t) (hempty : h.read i = none) {v : Value β σ} (hv : v.StandsFor steps P t)
    (hforced : v.isThunk = false) : (h.fill i v).2.KeepsTo steps P := by
  intro j u hj
  obtain ⟨hlt, hread⟩ := hh j u hj
  refine ⟨by rwa [Heap.size_fill], fun v' hv' => ?_⟩
  rw [Heap.read_fill_of_none hempty] at hv'
  split at hv'
  next hij =>
    obtain ⟨rfl, -⟩ := hij
    obtain rfl := Option.some.inj (hi.symm.trans hj)
    obtain rfl := Option.some.inj hv'
    exact ⟨hv, hforced⟩
  next => exact hread v' hv'

/-- Slots that nothing is planned for may be taken. -/
theorem Heap.KeepsTo.reserve {h : Heap β σ} (hh : h.KeepsTo steps P) {α : Type} (m : Slots α) :
    (h.reserve m).2.KeepsTo steps P := by
  intro i t hi
  obtain ⟨hlt, hread⟩ := hh i t hi
  refine ⟨?_, fun v hv => hread v (by rwa [Heap.read_reserve] at hv)⟩
  rw [Heap.size_reserve]
  exact Nat.lt_add_right _ hlt

/-- A new slot may be planned for any term. -/
theorem Heap.KeepsTo.newSlot {h : Heap β σ} (hh : h.KeepsTo steps P) (t : Term β σ) :
    ∃ Q : Plan β σ, P.Le Q ∧ Q h.slots.size = some t ∧
      (h.reserve Machine.newSlot).2.KeepsTo steps Q := by
  have hsize : (h.reserve Machine.newSlot).2.slots.size = h.slots.size + 1 := by
    simp [Heap.size_reserve, Machine.newSlot]
  have hfresh : h.read h.slots.size = none := by simp [Heap.read]
  let Q : Plan β σ := fun i => if i = h.slots.size then some t else P i
  have hle : P.Le Q := by
    intro i u hi
    have hne : i ≠ h.slots.size := Nat.ne_of_lt (hh i u hi).1
    simpa only [Q, if_neg hne] using hi
  refine ⟨Q, hle, if_pos rfl, fun i u hi => ?_⟩
  rw [hsize, Heap.read_reserve]
  by_cases hnew : i = h.slots.size
  · subst hnew
    exact ⟨Nat.lt_succ_self _, fun v hv => absurd (hfresh.symm.trans hv) (by simp)⟩
  · simp only [Q, if_neg hnew] at hi
    obtain ⟨hlt, hread⟩ := hh i u hi
    exact ⟨Nat.lt_succ_of_lt hlt, fun v hv => (hread v hv).imp_left (·.mono hle)⟩

end

/-! ## Evaluations that keep to plans -/

section

variable {α γ : Type}

/-- From a heap that keeps to the plan, the evaluation gives such a value, plans more at most, and
leaves the world alone. -/
def Gives (steps : StepTable σ) (P : Plan β σ) (m : Eval β σ α) (V : Plan β σ → α → Prop) : Prop :=
  ∀ h w, Heap.KeepsTo steps P h →
    ∃ Q h' a, P.Le Q ∧ Heap.KeepsTo steps Q h' ∧ m ⟨h, w⟩ = .ok a ⟨h', w⟩ ∧ V Q a

variable {cfg : Setting β σ} {P : Plan β σ} {V : Plan β σ → α → Prop} {U : Plan β σ → γ → Prop}

theorem Gives.pure {steps : StepTable σ} {a : α} (ha : V P a) : Gives steps P (Pure.pure a) V :=
  fun h _ hh => ⟨P, h, a, .refl P, hh, rfl, ha⟩

theorem Gives.bind {steps : StepTable σ} {m : Eval β σ α} {f : α → Eval β σ γ}
    (hm : Gives steps P m V) (hf : ∀ Q a, P.Le Q → V Q a → Gives steps Q (f a) U) :
    Gives steps P (m >>= f) U := by
  intro h w hh
  obtain ⟨Q, h', a, hPQ, hh', hrun, ha⟩ := hm h w hh
  obtain ⟨R, h'', c, hQR, hh'', hrun', hc⟩ := hf Q a hPQ ha h' w hh'
  exact ⟨R, h'', c, hPQ.trans hQR, hh'', (run_bind_ok hrun).trans hrun', hc⟩

/-- To suspend an inert term is to plan a slot for it. -/
theorem gives_thunk {steps : StepTable σ} {t : Term β σ} (ht : t.Inert) (frame : List (Value β σ))
    (code? : Option (Code β σ)) (hcode : ∀ code ∈ code?, code = inertCode steps t) :
    Gives steps P (do return Value.thunk (← inHeap (·.reserve newSlot)) t frame code?)
      fun Q v => v.StandsFor steps Q t := by
  intro h w hh
  obtain ⟨Q, hPQ, hnew, hkeeps⟩ := hh.newSlot t
  exact ⟨Q, _, _, hPQ, hkeeps, rfl, .thunk ht hnew hcode⟩

theorem gives_compile {steps : StepTable σ} {t : Term β σ} (ht : t.Inert) :
    Gives steps P (inHeap (·.reserve (compile steps t))) fun _ code => code = inertCode steps t :=
  fun h _ hh => ⟨P, _, _, .refl P, hh.reserve (compile steps t), inHeap_run _ _ _,
    congrArg Prod.fst (compile_inert ht h.slots.size)⟩

/-- A slot that is planned for a term keeps the first value for it. -/
theorem gives_fill {steps : StepTable σ} {i : Nat} {t : Term β σ} (hi : P i = some t)
    {v : Value β σ} (hv : v.StandsFor steps P t ∧ v.isThunk = false) :
    Gives steps P (inHeap (·.fill i v)) fun Q v => v.StandsFor steps Q t ∧ v.isThunk = false := by
  intro h w hh
  cases hread : h.read i with
  | none =>
      refine ⟨P, _, v, .refl P, hh.fill hi hread hv.1 hv.2, ?_, hv⟩
      rw [inHeap_run, Heap.fill_fst_of_none hread]
  | some old =>
      refine ⟨P, h, old, .refl P, hh, ?_, (hh i t hi).2 old hread⟩
      rw [inHeap_run, Heap.fill_of_read hread]

theorem gives_ofTerm (steps : StepTable σ) {t : Term β σ} (ht : t.Inert) :
    Gives steps P (ofTerm t) fun Q v => v.StandsFor steps Q t := by
  have hthunk : Gives steps P _ _ := gives_thunk ht [] none nofun
  cases ht with
  | lit l => exact .pure (.lit l)
  | blob b => exact .pure (.blob b)
  | ctor c => exact hthunk
  | app c _ _ => exact hthunk

theorem gives_delayed {steps : StepTable σ} {t : Term β σ} (ht : t.Inert)
    (frame : List (Value β σ)) :
    Gives steps P (delayed frame (inertDelayed steps t)) fun Q v => v.StandsFor steps Q t := by
  have hthunk : Gives steps P _ _ :=
    gives_thunk ht frame (some (inertCode steps t)) (by rintro _ ⟨⟩; rfl)
  cases ht with
  | lit l => exact .pure (.lit l)
  | blob b => exact .pure (.blob b)
  | ctor c => exact hthunk
  | app c _ _ => exact hthunk

theorem gives_mapM {steps : StepTable σ} {f : Term β σ → Eval β σ (Value β σ)} {ts : List (Term β σ)}
    (hf : ∀ t ∈ ts, ∀ P, Gives steps P (f t) fun Q v => v.StandsFor steps Q t) :
    Gives steps P (ts.mapM f) fun Q vs => Value.StandForAll steps Q ts vs := by
  induction ts generalizing P with
  | nil => exact .pure .nil
  | cons t ts ih =>
      rw [List.mapM_cons]
      refine .bind (hf t List.mem_cons_self P) fun Q v hPQ hv => ?_
      refine .bind (ih fun u hu => hf u (List.mem_cons_of_mem t hu)) fun R vs hQR hvs => ?_
      exact .pure (.cons (hv.mono hQR) hvs)

/-- The code of an inert term gives a value for it. -/
theorem gives_run {t : Term β σ} (ht : t.Inert) {n : Nat} (hn : 4 ≤ n) (frame : List (Value β σ)) :
    Gives cfg.steps P (run cfg n (inertCode cfg.steps t) frame)
      fun Q v => v.StandsFor cfg.steps Q t ∧ v.isThunk = false := by
  obtain ⟨n, rfl⟩ := Nat.exists_eq_add_of_le' hn
  cases ht with
  | lit l => exact .pure ⟨.lit l, rfl⟩
  | blob b => exact .pure ⟨.blob b, rfl⟩
  | ctor c => exact .pure ⟨.ctor c .nil, rfl⟩
  | @app c as hne has =>
      rw [inertCode_app c has, run]
      refine .bind (V := fun _ f => f = .ctor c []) (.pure rfl) ?_
      rintro Q _ hPQ rfl
      rw [List.mapM_map]
      refine .bind (gives_mapM fun t ht R => gives_delayed (has t ht) frame) fun R vs hQR hvs => ?_
      refine .pure ⟨?_, rfl⟩
      rw [← Term.apps_of_not_isApp (t := .ctor c) rfl hne]
      exact .ctor c hvs

theorem gives_force (cfg : Setting β σ) {t : Term β σ} {v : Value β σ} (hv : v.StandsFor cfg.steps P t) {n : Nat}
    (hn : 5 ≤ n) : Gives cfg.steps P (force cfg n v)
      fun Q v' => v'.StandsFor cfg.steps Q t ∧ v'.isThunk = false := by
  obtain ⟨n, rfl⟩ := Nat.exists_eq_add_of_le' hn
  cases hv with
  | lit l => exact .pure ⟨.lit l, rfl⟩
  | blob b => exact .pure ⟨.blob b, rfl⟩
  | ctor c h => exact .pure ⟨.ctor c h, rfl⟩
  | @thunk i t frame code? ht hi hcode =>
      have hrun (Q : Plan β σ) (hPQ : P.Le Q) : Gives cfg.steps Q
          (run cfg (n + 4) (inertCode cfg.steps t) frame >>= fun v => inHeap (·.fill i v))
          fun Q v' => v'.StandsFor cfg.steps Q t ∧ v'.isThunk = false :=
        .bind (gives_run ht (Nat.le_add_left 4 n) frame) fun R v hQR hv =>
          gives_fill (hQR i t (hPQ i t hi)) hv
      intro h w hh
      have hget : (get : Eval β σ (Memory β σ)) ⟨h, w⟩ = .ok ⟨h, w⟩ ⟨h, w⟩ := rfl
      cases hread : h.read i with
      | some v =>
          refine ⟨P, h, v, .refl P, hh, ?_, (hh i t hi).2 v hread⟩
          rw [force, run_bind_ok hget]
          simp only [hread]
          rfl
      | none =>
          cases code? with
          | some code =>
              obtain rfl := hcode code rfl
              have hforce : force cfg (n + 5) (.thunk i t frame (some (inertCode cfg.steps t))) ⟨h, w⟩
                  = (run cfg (n + 4) (inertCode cfg.steps t) frame >>= fun v =>
                    inHeap (·.fill i v)) ⟨h, w⟩ := by
                rw [force, run_bind_ok hget]
                simp only [hread]
                rfl
              rw [hforce]
              exact hrun P (.refl P) h w hh
          | none =>
              have hforce : force cfg (n + 5) (.thunk i t frame none) ⟨h, w⟩
                  = (inHeap (·.reserve (compile cfg.steps t)) >>= fun code =>
                    run cfg (n + 4) code frame >>= fun v => inHeap (·.fill i v)) ⟨h, w⟩ := by
                rw [force, run_bind_ok hget]
                simp only [hread]
              rw [hforce]
              refine Gives.bind (gives_compile ht) ?_ h w hh
              rintro Q _ hPQ rfl
              exact hrun Q hPQ

theorem gives_mapM_readback {n : Nat} {ts : List (Term β σ)} {vs : List (Value β σ)}
    (hvs : Value.StandForAll cfg.steps P ts vs)
    (h : ∀ t ∈ ts, ∀ P v, Value.StandsFor cfg.steps P t v →
      Gives cfg.steps P (readback cfg n v) fun _ u => u = t) :
    Gives cfg.steps P (vs.mapM (readback cfg n)) fun _ us => us = ts := by
  induction ts generalizing vs P with
  | nil =>
      cases hvs
      exact .pure rfl
  | cons t ts ih =>
      obtain _ | ⟨hv, hvs⟩ := hvs
      rw [List.mapM_cons]
      refine .bind (h t List.mem_cons_self P _ hv) fun Q u hPQ hu => ?_
      refine .bind (ih (hvs.mono hPQ) fun u hu => h u (List.mem_cons_of_mem t hu))
        fun R us _ hus => ?_
      exact .pure (by rw [hu, hus])

/-- What stands for a term and is not suspended has the form of the term. -/
theorem Value.StandsFor.forced {steps : StepTable σ} {t : Term β σ} {v : Value β σ}
    (h : v.StandsFor steps P t) (hv : v.isThunk = false) :
    (∃ l, t = .lit l ∧ v = .lit l) ∨ (∃ b, t = .blob b ∧ v = .blob b) ∨
      ∃ c as vs, t = (Term.ctor c).apps as ∧ v = .ctor c vs ∧ Value.StandForAll steps P as vs := by
  cases h with
  | lit l => exact .inl ⟨l, rfl, rfl⟩
  | blob b => exact .inr (.inl ⟨b, rfl, rfl⟩)
  | ctor c h => exact .inr (.inr ⟨c, _, _, rfl, rfl, h⟩)
  | thunk => cases hv

theorem ctor_apps_eq_app_iff {c d : String} {as bs : List (Term β σ)} (hne : as ≠ []) :
    Term.app (.ctor c) as = (Term.ctor d).apps bs ↔ c = d ∧ as = bs := by
  cases bs with
  | nil => simp [hne]
  | cons b bs => simp [Term.apps]

/-- A value for a term is read back as the term if the values for the arguments are. -/
theorem gives_readback_of_args {t : Term β σ}
    (hargs : ∃ N, ∀ n ≥ N, ∀ (cfg : Setting β σ) P c as vs, t = (Term.ctor c).apps as →
      Value.StandForAll cfg.steps P as vs →
      Gives cfg.steps P (vs.mapM (readback cfg n)) fun _ us => us = as) :
    ∃ N, ∀ n ≥ N, ∀ (cfg : Setting β σ) P v, Value.StandsFor cfg.steps P t v →
      Gives cfg.steps P (readback cfg n v) fun _ u => u = t := by
  obtain ⟨N, hN⟩ := hargs
  refine ⟨N + 6, fun n hn cfg P v hv => ?_⟩
  obtain ⟨n, rfl⟩ := Nat.exists_eq_add_of_le' (Nat.le_trans (Nat.le_add_left 1 (N + 5)) hn)
  rw [readback]
  refine .bind (gives_force cfg hv (by omega)) ?_
  rintro Q v' hPQ ⟨hv', hforced⟩
  obtain ⟨l, rfl, rfl⟩ | ⟨b, rfl, rfl⟩ | ⟨c, as, vs, rfl, rfl, hvs⟩ := hv'.forced hforced
  · exact .pure rfl
  · exact .pure rfl
  · refine .bind (hN n (by omega) cfg Q c as vs rfl hvs) ?_
    rintro R _ hQR rfl
    exact .pure rfl

/-- A value for an inert term is read back as the term. -/
theorem gives_readback {t : Term β σ} (ht : t.Inert) : ∃ N, ∀ n ≥ N, ∀ (cfg : Setting β σ) P v,
    Value.StandsFor cfg.steps P t v → Gives cfg.steps P (readback cfg n v) fun _ u => u = t := by
  induction ht with
  | @app c as hne has ih =>
      obtain ⟨N, hN⟩ := exists_bound ih
      refine gives_readback_of_args ⟨N, fun n hn cfg P d bs vs heq hvs => ?_⟩
      obtain ⟨-, rfl⟩ := (ctor_apps_eq_app_iff hne).mp heq
      exact gives_mapM_readback hvs fun t ht P v hv => hN n hn t ht cfg P v hv
  | _ =>
      refine gives_readback_of_args ⟨0, fun n _ cfg P d bs vs heq hvs => ?_⟩
      obtain rfl : bs = [] := by cases bs <;> simp_all [Term.apps]
      exact gives_mapM_readback hvs fun _ hu => absurd hu List.not_mem_nil

/-- The code of an inert term, compiled on the spot, gives a value for it. -/
theorem gives_eval (cfg : Setting β σ) {t : Term β σ} (ht : t.Inert) {n : Nat} (hn : 4 ≤ n) :
    Gives cfg.steps P (eval cfg n t) fun Q v => v.StandsFor cfg.steps Q t ∧ v.isThunk = false := by
  refine .bind (gives_compile ht) ?_
  rintro Q _ hPQ rfl
  exact gives_run ht hn []

/-- A value applied to nothing stands for what it stood for. -/
theorem gives_apply_nil (cfg : Setting β σ) {t : Term β σ} {v : Value β σ} (hv : v.StandsFor cfg.steps P t) {n : Nat}
    (hn : 6 ≤ n) : Gives cfg.steps P (apply cfg n v []) fun Q v' => v'.StandsFor cfg.steps Q t := by
  obtain ⟨n, rfl⟩ := Nat.exists_eq_add_of_le' hn
  rw [apply]
  refine .bind (gives_force cfg hv (Nat.le_add_left 5 n)) ?_
  rintro Q v' hPQ ⟨hv', hforced⟩
  obtain ⟨l, rfl, rfl⟩ | ⟨b, rfl, rfl⟩ | ⟨c, as, vs, rfl, rfl, hvs⟩ := hv'.forced hforced
  · exact .pure (.lit l)
  · exact .pure (.blob b)
  · refine .pure (.ctor c ?_)
    rwa [List.append_nil]

end

end TacticEngine.Machine
