/-
# TacticEngine.Proofs.Machine.Poised -- functions wait for arguments.

A closure that is applied gets its body run as soon as it has all its arguments, and a step is fired.  So a closure
or a step that is left over still waits for some, wherever it is: among the values that a host gets, inside of other
values or in the heap.  `Value.Poised` says so, and that the sources of the value are canonical, without which
there might be closures that wait for nothing from the beginning.

Everything that the machine makes of canonical terms is poised (`poisedAt`), and so is all that its calls are made
with (`Calls.poised`); but for a step that takes no arguments, which is applied to none in order to fire it.  What is
poised and has been forced is a result: to apply it to nothing gives it back (`applyForced_nil`).
-/
import TacticEngine.Proofs.Agreement.Sources
import TacticEngine.Proofs.Machine.Canonical
import TacticEngine.Proofs.Machine.Renaming

namespace TacticEngine.Machine

variable {β σ α γ : Type}

/-! ## Poised code and values -/

mutual
/-- Every lambda in the code binds something, and the sources in it are canonical. -/
def Code.Poised : Code β σ → Prop
  | .step t _ | .neutral t => t.Canonical
  | .app h args => h.Poised ∧ Delayed.AllPoised args
  | .lam n src body => 0 < n ∧ src.Canonical ∧ body.Poised
  | .case s brs => s.Poised ∧ Code.BranchesPoised brs
  | .var _ | .const _ _ | .ctor _ | .lit _ | .blob _ => True

/-- The same of arguments. -/
def Delayed.AllPoised : List (Delayed β σ) → Prop
  | [] => True
  | .thunk src code :: ds => src.Canonical ∧ code.Poised ∧ Delayed.AllPoised ds
  | .var _ :: ds | .lit _ :: ds | .blob _ :: ds => Delayed.AllPoised ds

/-- The same of branches. -/
def Code.BranchesPoised : List (Branch (Term β σ × Code β σ)) → Prop
  | [] => True
  | ⟨_, (src, code)⟩ :: brs => src.Canonical ∧ code.Poised ∧ Code.BranchesPoised brs
end

mutual
/-- Every closure and every step in the value waits for an argument, and the sources in it are canonical. -/
def Value.Poised : Value β σ → Prop
  | .ctor _ args => Value.AllPoised args
  | .lam n src body frame held => held.length < n ∧ src.Canonical ∧ body.Poised ∧ Value.AllPoised frame ∧
      Value.AllPoised held
  | .step t s held => held.length < s.arity ∧ t.Canonical ∧ Value.AllPoised held
  | .neutral t args => t.Canonical ∧ Value.AllPoised args
  | .stuck s brs frame args => s.Poised ∧ Term.CanonicalBranches brs ∧ Value.AllPoised frame ∧
      Value.AllPoised args
  | .thunk _ src frame code? => src.Canonical ∧ Value.AllPoised frame ∧
      ∀ code, code? = some code → code.Poised
  | .lit _ | .blob _ => True

/-- The same of a list of values. -/
def Value.AllPoised : List (Value β σ) → Prop
  | [] => True
  | v :: vs => v.Poised ∧ Value.AllPoised vs
end

/-- A poised value that is not suspended. -/
def Value.Result (v : Value β σ) : Prop := v.Poised ∧ v.isThunk = false

/-- The heap keeps results. -/
def Heap.Poised (h : Heap β σ) : Prop := ∀ slot v, h.read slot = some v → v.Result

/-- A poised value, or a step that is about to be fired because it takes no arguments. -/
def Value.Applicable (v : Value β σ) : Prop :=
  v.Poised ∨ ∃ t s, t.Canonical ∧ s.arity = 0 ∧ v = .step t s []

theorem Value.allPoised_iff {vs : List (Value β σ)} : Value.AllPoised vs ↔ ∀ v ∈ vs, v.Poised := by
  induction vs with
  | nil => simp [Value.AllPoised]
  | cons v vs ih => simp [Value.AllPoised, ih]

theorem Heap.poised_empty : Heap.Poised ({} : Heap β σ) := by
  intro slot v hv
  rw [Heap.read_empty] at hv
  cases hv

mutual
theorem Code.Poised.canonical : ∀ {c : Code β σ}, c.Poised → c.Canonical
  | .step _ _, h | .neutral _, h => h
  | .app _ _, h => ⟨h.1.canonical, Delayed.AllPoised.canonical h.2⟩
  | .lam _ _ _, h => ⟨h.2.1, h.2.2.canonical⟩
  | .case _ _, h => ⟨h.1.canonical, Code.BranchesPoised.canonical h.2⟩
  | .var _, _ | .const _ _, _ | .ctor _, _ | .lit _, _ | .blob _, _ => trivial

theorem Delayed.AllPoised.canonical : ∀ {ds : List (Delayed β σ)}, Delayed.AllPoised ds → Delayed.AllCanonical ds
  | [], _ => trivial
  | .thunk _ _ :: _, h => ⟨h.1, h.2.1.canonical, Delayed.AllPoised.canonical h.2.2⟩
  | .var _ :: ds, h | .lit _ :: ds, h | .blob _ :: ds, h =>
      have hds : Delayed.AllPoised ds := h
      hds.canonical

theorem Code.BranchesPoised.canonical : ∀ {brs : List (Branch (Term β σ × Code β σ))},
    Code.BranchesPoised brs → Code.BranchesCanonical brs
  | [], _ => trivial
  | ⟨_, (_, _)⟩ :: _, h => ⟨h.1, h.2.1.canonical, Code.BranchesPoised.canonical h.2.2⟩
end

mutual
theorem Value.Poised.canonical : ∀ {v : Value β σ}, v.Poised → v.Canonical
  | .ctor _ args, h =>
      have hargs : Value.AllPoised args := h
      hargs.canonical
  | .lam _ _ _ _ _, h =>
      ⟨h.2.1, h.2.2.1.canonical, Value.AllPoised.canonical h.2.2.2.1, Value.AllPoised.canonical h.2.2.2.2⟩
  | .step _ _ _, h => ⟨h.2.1, Value.AllPoised.canonical h.2.2⟩
  | .neutral _ _, h => ⟨h.1, Value.AllPoised.canonical h.2⟩
  | .stuck _ _ _ _, h =>
      ⟨h.1.canonical, h.2.1, Value.AllPoised.canonical h.2.2.1, Value.AllPoised.canonical h.2.2.2⟩
  | .thunk _ _ _ _, h =>
      ⟨h.1, Value.AllPoised.canonical h.2.1, fun code hcode => (h.2.2 code hcode).canonical⟩
  | .lit _, _ | .blob _, _ => trivial

theorem Value.AllPoised.canonical : ∀ {vs : List (Value β σ)}, Value.AllPoised vs → Value.AllCanonical vs
  | [], _ => trivial
  | _ :: _, h => ⟨h.1.canonical, Value.AllPoised.canonical h.2⟩
end

/-- What a poised value is made of is poised. -/
theorem Value.Poised.parts {v : Value β σ} (hv : v.Poised) : ∀ u ∈ v.parts, u.Poised := by
  cases v with
  | ctor => exact Value.allPoised_iff.mp hv
  | lit | blob => exact nofun
  | lam =>
      exact List.forall_mem_append.mpr
        ⟨Value.allPoised_iff.mp hv.2.2.2.1, Value.allPoised_iff.mp hv.2.2.2.2⟩
  | step => exact Value.allPoised_iff.mp hv.2.2
  | neutral => exact Value.allPoised_iff.mp hv.2
  | stuck =>
      exact List.forall_mem_cons.mpr ⟨hv.1, List.forall_mem_append.mpr
        ⟨Value.allPoised_iff.mp hv.2.2.1, Value.allPoised_iff.mp hv.2.2.2⟩⟩
  | thunk => exact Value.allPoised_iff.mp hv.2.1

theorem Value.Poised.has {v u : Value β σ} (hv : v.Poised) (h : v.Has u) : u.Poised := by
  induction h with
  | refl => exact hv
  | tail _ hu ih => exact ih.parts _ hu

theorem Value.Poised.args {v : Value β σ} (hv : v.Poised) : ∀ a ∈ v.args, a.Poised := by
  intro a ha
  refine hv.parts a ?_
  cases v with
  | lam | stuck => simp_all [Value.args, Value.parts]
  | lit | blob | thunk => cases ha
  | _ => exact ha

/-- The head of a poised value is written as a canonical term. -/
theorem Value.Poised.head {v : Value β σ} (hv : v.Poised) (hforced : v.isThunk = false) {t : Term β σ}
    (ht : v.head? = some t) : t.Canonical := by
  cases v with
  | ctor | lit | blob =>
      cases ht
      trivial
  | step =>
      cases ht
      exact hv.2.1
  | neutral =>
      cases ht
      exact hv.1
  | lam n src body frame held =>
      -- without the arguments that it holds, the closure stands for its head
      have hempty : (Value.lam n src body frame []).Canonical :=
        ⟨hv.2.1, hv.2.2.1.canonical, hv.2.2.2.1.canonical, trivial⟩
      refine hempty.source ?_
      simp only [Value.head?, Option.bind_eq_bind, Option.bind_eq_some_iff] at ht
      obtain ⟨ts, hts, ht⟩ := ht
      simp only [Value.source?, hts, ht, sources?, Option.bind_eq_bind, Option.bind_some, Option.pure_def,
        Term.apps_nil]
  | stuck s brs frame args =>
      have hempty : (Value.stuck s brs frame []).Canonical :=
        ⟨hv.1.canonical, hv.2.1, hv.2.2.1.canonical, trivial⟩
      exact hempty.source ht
  | thunk => cases hforced

/-- A poised value that has been forced is applied to nothing already. -/
theorem applyForced_nil {cfg : Setting β σ} {n : Nat} {v : Value β σ} (hv : v.Result) :
    applyForced cfg (n + 1) v [] = pure v := by
  obtain ⟨hv, hforced⟩ := hv
  cases v with
  | lam m src body frame held =>
      rw [applyForced]
      simp only [List.append_nil]
      rw [if_pos hv.1]
  | step t s held =>
      rw [applyForced]
      simp only [List.append_nil]
      rw [if_pos hv.1]
  | thunk => cases hforced
  | lit | blob => rw [applyForced, List.isEmpty_nil, if_pos rfl]
  | _ => rw [applyForced, List.append_nil]

/-! ## Compiling and choosing -/

section

variable {P : α → Prop} {Q : γ → Prop}

/-- Wherever the slots are taken, the result has the property. -/
def Makes (P : α → Prop) (m : Slots α) : Prop := ∀ n, P (m n).1

theorem Makes.pure {a : α} (h : P a) : Makes P (Pure.pure a) := fun _ => h

theorem Makes.bind {m : Slots α} {f : α → Slots γ} (hm : Makes P m) (hf : ∀ a, P a → Makes Q (f a)) :
    Makes Q (m >>= f) :=
  fun n => hf _ (hm n) (m n).2

end

mutual
/-- The code of a canonical term is poised. -/
theorem compile_poised (steps : StepTable σ) : ∀ {t : Term β σ}, t.Canonical →
    Makes Code.Poised (compile steps t)
  | .const c, _ => by
      rw [compile]
      cases steps.lookup c with
      | some s => exact .pure trivial
      | none => exact fun _ => trivial
  | .app h as, ht => by
      rw [compile]
      refine (compile_poised steps ht.2.2.1).bind fun code hcode => ?_
      exact (delayAll_poised steps ht.2.2.2).bind fun ds hds => .pure ⟨hcode, hds⟩
  | .lam n b, ht => by
      rw [compile]
      exact (compile_poised steps ht.2).bind fun code hcode => .pure ⟨ht.1, ht, hcode⟩
  | .case s brs, ht => by
      rw [compile]
      refine (compile_poised steps ht.1).bind fun code hcode => ?_
      exact (compileBranches_poised steps ht.2).bind fun cs hcs => .pure ⟨hcode, hcs⟩
  | .ascribed e _, ht => by
      rw [compile]
      exact compile_poised steps ht.1
  | .annotated e _, ht => by
      rw [compile]
      exact compile_poised steps (t := e) ht
  | .reify e, ht => by
      rw [compile]
      exact compile_poised steps (t := e) ht
  | .bvar _, _ | .ctor _, _ | .free _, _ | .uvar _, _ | .lit _, _ | .blob _, _ | .native _, _ => by
      rw [compile]
      exact .pure trivial

theorem delayAll_poised (steps : StepTable σ) : ∀ {as : List (Term β σ)}, Term.CanonicalArgs as →
    Makes Delayed.AllPoised (delayAll steps as)
  | [], _ => by
      rw [delayAll]
      exact .pure trivial
  | a :: as, has => by
      have hrest := delayAll_poised steps has.2
      have hthunk : Makes Delayed.AllPoised (do
          let code ← compile steps a
          let as ← delayAll steps as
          return .thunk a code :: as) :=
        (compile_poised steps has.1).bind fun code hcode => hrest.bind fun ds hds =>
          .pure ⟨has.1, hcode, hds⟩
      cases a with
      | bvar | lit | blob =>
          rw [delayAll]
          exact hrest.bind fun ds hds => .pure hds
      | _ =>
          rw [delayAll]
          · exact hthunk
          all_goals simp

theorem compileBranches_poised (steps : StepTable σ) : ∀ {brs : List (Branch (Term β σ))},
    Term.CanonicalBranches brs → Makes Code.BranchesPoised (compileBranches steps brs)
  | [], _ => by
      rw [compileBranches]
      exact .pure trivial
  | ⟨_, b⟩ :: brs, hbrs => by
      rw [compileBranches]
      refine (compile_poised steps hbrs.1).bind fun code hcode => ?_
      exact (compileBranches_poised steps hbrs.2).bind fun cs hcs => .pure ⟨hbrs.1, hcode, hcs⟩
end

theorem Code.BranchesPoised.sources : ∀ {brs : List (Branch (Term β σ × Code β σ))},
    Code.BranchesPoised brs → Term.CanonicalBranches (branchSources brs)
  | [], _ => trivial
  | ⟨_, (_, _)⟩ :: _, h => ⟨h.1, Code.BranchesPoised.sources h.2.2⟩

/-- The branch that is chosen for a poised value is poised, and so are the values that it binds. -/
theorem select_poised {v : Value β σ} (hv : v.Poised) :
    ∀ {brs : List (Branch (Term β σ × Code β σ))} {src : Term β σ} {code : Code β σ}
      {bound : List (Value β σ)}, Code.BranchesPoised brs →
      select v brs = some ((src, code), bound) → code.Poised ∧ ∀ u ∈ bound, u.Poised
  | ⟨.wild, (_, _)⟩ :: _, _, _, _, hbrs, h => by
      cases h
      exact ⟨hbrs.2.1, nofun⟩
  | ⟨.var, (_, _)⟩ :: _, _, _, _, hbrs, h => by
      cases h
      exact ⟨hbrs.2.1, List.forall_mem_singleton.mpr hv⟩
  | ⟨.lit l, (_, _)⟩ :: brs, _, _, _, hbrs, h => by
      cases v with
      | lit l' =>
          rw [select] at h
          split at h
          · cases h
            exact ⟨hbrs.2.1, nofun⟩
          · exact select_poised hv hbrs.2.2 h
      | _ => cases h
  | ⟨.ctor c n, (_, _)⟩ :: brs, _, _, _, hbrs, h => by
      cases v with
      | ctor c' args =>
          rw [select] at h
          split at h
          · cases h
            exact ⟨hbrs.2.1, Value.allPoised_iff.mp hv⟩
          · exact select_poised hv hbrs.2.2 h
      | _ => cases h

/-! ## Evaluations that keep the heap poised -/

/-- From a poised heap the evaluation goes to a poised one, also where it breaks off, and what it gives has the
property. -/
def Upholds (U : α → Prop) (act : Eval β σ α) : Prop :=
  ∀ m, m.heap.Poised → (final (act m)).heap.Poised ∧ ∀ a, ending (act m) = .ok a → U a

namespace Upholds

variable {U : α → Prop} {W : γ → Prop} {act : Eval β σ α}

theorem pure {a : α} (h : U a) : Upholds U (Pure.pure a : Eval β σ α) := by
  refine fun m hm => ⟨hm, fun b hb => ?_⟩
  cases hb
  exact h

theorem throw {e : Halt β} : Upholds U (MonadExcept.throw e : Eval β σ α) := fun _ hm => ⟨hm, nofun⟩

theorem bind {f : α → Eval β σ γ} (hact : Upholds U act) (hf : ∀ a, U a → Upholds W (f a)) :
    Upholds W (act >>= f) := by
  intro m hm
  obtain ⟨hm', ha⟩ := hact m hm
  cases hr : act m with
  | ok a m' =>
      rw [run_bind_ok hr]
      rw [hr] at hm' ha
      exact hf a (ha a rfl) m' hm'
  | error e m' =>
      rw [run_bind_error hr]
      rw [hr] at hm'
      exact ⟨hm', nofun⟩

/-- Two things to be done next may be told apart only where there is a value with the property. -/
theorem bind_congr {f f' : α → Eval β σ γ} (hact : Upholds U act) {m : Memory β σ} (hm : m.heap.Poised)
    (hf : ∀ a m', U a → m'.heap.Poised → f a m' = f' a m') : (act >>= f) m = (act >>= f') m := by
  obtain ⟨hm', ha⟩ := hact m hm
  cases hr : act m with
  | ok a m' =>
      rw [hr] at hm' ha
      rw [run_bind_ok hr, run_bind_ok hr]
      exact hf a m' (ha a rfl) hm'
  | error e m' => rw [run_bind_error hr, run_bind_error hr]

theorem imp {V : α → Prop} (hact : Upholds U act) (h : ∀ a, U a → V a) : Upholds V act :=
  fun m hm => ⟨(hact m hm).1, fun a ha => h a ((hact m hm).2 a ha)⟩

theorem ok (hact : Upholds U act) {m m' : Memory β σ} {a : α} (hm : m.heap.Poised)
    (hr : act m = .ok a m') : U a ∧ m'.heap.Poised := by
  obtain ⟨hm', ha⟩ := hact m hm
  rw [hr] at hm' ha
  exact ⟨ha a rfl, hm'⟩

theorem error (hact : Upholds U act) {m m' : Memory β σ} {e : Halt β} (hm : m.heap.Poised)
    (hr : act m = .error e m') : m'.heap.Poised := by
  have hm' := (hact m hm).1
  rwa [hr] at hm'

theorem inWorld {act : Act β σ α} (h : ∀ w a w', act w = .ok a w' → U a) :
    Upholds U (Machine.inWorld act : Eval β σ α) := by
  rintro ⟨heap, w⟩ hm
  rw [inWorld_run]
  cases hr : act w with
  | ok a w' =>
      refine ⟨hm, fun b hb => ?_⟩
      cases hb
      exact h w a w' hr
  | error e w' => exact ⟨hm, nofun⟩

theorem reserve {m : Slots α} (h : Makes U m) : Upholds U (inHeap (·.reserve m) : Eval β σ α) := by
  rintro ⟨heap, w⟩ hm
  rw [inHeap_run]
  refine ⟨fun slot v hv => ?_, fun a ha => ?_⟩
  · have hread : (heap.reserve m).2.read slot = some v := hv
    rw [Heap.read_reserve] at hread
    exact hm slot v hread
  · cases ha
    exact h _

theorem fill {slot : Nat} {v : Value β σ} (hv : v.Result) :
    Upholds Value.Result (inHeap (·.fill slot v) : Eval β σ (Value β σ)) := by
  rintro ⟨heap, w⟩ hm
  rw [inHeap_run]
  cases hr : heap.read slot with
  | some old =>
      rw [Heap.fill_of_read hr]
      refine ⟨hm, fun u hu => ?_⟩
      cases hu
      exact hm slot old hr
  | none =>
      rw [Heap.fill_fst_of_none hr]
      refine ⟨fun i u hu => ?_, fun u hu => ?_⟩
      · have hread : (heap.fill slot v).2.read i = some u := hu
        rw [Heap.read_fill_of_none hr] at hread
        split at hread
        · cases hread
          exact hv
        · exact hm i u hread
      · cases hu
        exact hv

/-- Looking for a value before computing it. -/
theorem orElse {slot : Nat} {act : Eval β σ (Value β σ)} (hact : Upholds Value.Result act) :
    Upholds Value.Result (do
      match (← get).heap.read slot with
      | some v => Pure.pure v
      | none => act) := by
  intro m hm
  have hget : (get : Eval β σ (Memory β σ)) m = .ok m m := rfl
  rw [run_bind_ok hget]
  cases hv : m.heap.read slot with
  | some v => exact pure (hm slot v hv) m hm
  | none => exact hact m hm

theorem mapM {δ : Type} {f : δ → Eval β σ α} : ∀ {ds : List δ}, (∀ d ∈ ds, Upholds U (f d)) →
    Upholds (fun as => ∀ a ∈ as, U a) (ds.mapM f)
  | [], _ => by
      rw [List.mapM_nil]
      exact pure nofun
  | d :: ds, hds => by
      obtain ⟨hd, hds⟩ := List.forall_mem_cons.mp hds
      rw [List.mapM_cons]
      refine hd.bind fun a ha => ?_
      exact (mapM hds).bind fun as has => pure (List.forall_mem_cons.mpr ⟨ha, has⟩)

end Upholds

/-! ## The machine -/

/-- With a given amount of fuel, the machine makes poised values of poised ones, and canonical terms. -/
structure PoisedAt (cfg : Setting β σ) (n : Nat) : Prop where
  run : ∀ {code frame}, code.Poised → (∀ f ∈ frame, f.Poised) →
    Upholds Value.Result (Machine.run cfg n code frame)
  unfold : ∀ {c}, Upholds Value.Result (Machine.unfold cfg n c)
  force : ∀ {v}, v.Poised → Upholds Value.Result (Machine.force cfg n v)
  apply : ∀ {f args}, f.Applicable → (∀ a ∈ args, a.Poised) →
    Upholds Value.Result (Machine.apply cfg n f args)
  applyForced : ∀ {f args}, f.Applicable → (∀ a ∈ args, a.Poised) →
    Upholds Value.Result (Machine.applyForced cfg n f args)
  applyRest : ∀ {v rest}, v.Result → (∀ a ∈ rest, a.Poised) →
    Upholds Value.Result (Machine.applyRest cfg n v rest)
  readback : ∀ {v}, v.Poised → Upholds Term.Canonical (Machine.readback cfg n v)

section

variable {cfg : Setting β σ} {n : Nat}

theorem upholds_lookup {frame : List (Value β σ)} (hframe : ∀ f ∈ frame, f.Poised) (i : Nat) :
    Upholds Value.Poised (lookup frame i) := by
  unfold lookup
  cases hi : frame[i]? with
  | none => exact .throw
  | some v => exact .pure (hframe v (List.mem_of_getElem? hi))

theorem upholds_ofTerm {t : Term β σ} (ht : t.Canonical) : Upholds Value.Poised (ofTerm t) := by
  have hthunk : Upholds Value.Poised ((inHeap (·.reserve newSlot) : Eval β σ Nat) >>= fun slot =>
      Pure.pure (Value.thunk slot t [] none)) :=
    (Upholds.reserve (U := fun _ => True) fun _ => trivial).bind fun slot _ =>
        .pure ⟨ht, trivial, by rintro _ ⟨⟩⟩
  cases t with
  | lit | blob => exact .pure trivial
  | _ => exact hthunk

theorem upholds_delayed {frame : List (Value β σ)} (hframe : ∀ f ∈ frame, f.Poised) :
    ∀ {ds : List (Delayed β σ)}, Delayed.AllPoised ds →
      Upholds (fun vs => ∀ v ∈ vs, v.Poised) (ds.mapM (delayed frame))
  | [], _ => .mapM (List.forall_mem_nil _)
  | d :: ds, hds => by
      have hcons (hd : Upholds Value.Poised (delayed frame d)) (hds : Delayed.AllPoised ds) :
          Upholds (fun vs => ∀ v ∈ vs, v.Poised) ((d :: ds).mapM (delayed frame)) := by
        rw [List.mapM_cons]
        refine hd.bind fun v hv => ?_
        exact (upholds_delayed hframe hds).bind fun vs hvs => .pure (List.forall_mem_cons.mpr ⟨hv, hvs⟩)
      cases d with
      | var i => exact hcons (upholds_lookup hframe i) hds
      | lit | blob => exact hcons (.pure trivial) hds
      | thunk src code =>
          refine hcons ?_ hds.2.2
          refine (Upholds.reserve (U := fun _ => True) fun _ => trivial).bind fun slot _ => .pure ?_
          refine ⟨hds.1, Value.allPoised_iff.mpr hframe, ?_⟩
          rintro _ ⟨⟩
          exact hds.2.1

/-- What an applicable step is, apart from how many arguments it has. -/
theorem Value.Applicable.step {t : Term β σ} {s : Step σ} {held : List (Value β σ)}
    (h : (Value.step t s held).Applicable) : t.Canonical ∧ ∀ v ∈ held, v.Poised := by
  rcases h with h | ⟨t', s', ht, -, heq⟩
  · exact ⟨h.2.1, Value.allPoised_iff.mp h.2.2⟩
  · cases heq
    exact ⟨ht, List.forall_mem_nil _⟩

/-- What the body of a closure is run in, and what is left for its value. -/
theorem Value.Poised.body {arity : Nat} {src : Term β σ} {body : Code β σ}
    {frame held args : List (Value β σ)} (h : (Value.lam arity src body frame held).Poised)
    (hargs : ∀ a ∈ args, a.Poised) :
    (∀ v ∈ ((held ++ args).take arity).reverse ++ frame, v.Poised) ∧
      ∀ v ∈ (held ++ args).drop arity, v.Poised := by
  have hall : ∀ v ∈ held ++ args, v.Poised :=
    List.forall_mem_append.mpr ⟨Value.allPoised_iff.mp h.2.2.2.2, hargs⟩
  refine ⟨List.forall_mem_append.mpr ⟨fun v hv => ?_, Value.allPoised_iff.mp h.2.2.2.1⟩, fun v hv => ?_⟩
  · exact hall v (List.mem_of_mem_take (List.mem_reverse.mp hv))
  · exact hall v (List.mem_of_mem_drop hv)

/-- What a step is fired on, and what is left for its value. -/
theorem Value.Applicable.fired {t : Term β σ} {s : Step σ} {held args : List (Value β σ)}
    (h : (Value.step t s held).Applicable) (hargs : ∀ a ∈ args, a.Poised) :
    (∀ v ∈ (held ++ args).take s.arity, v.Poised) ∧ ∀ v ∈ (held ++ args).drop s.arity, v.Poised := by
  have hall : ∀ v ∈ held ++ args, v.Poised := List.forall_mem_append.mpr ⟨h.step.2, hargs⟩
  exact ⟨fun v hv => hall v (List.mem_of_mem_take hv), fun v hv => hall v (List.mem_of_mem_drop hv)⟩

theorem Value.Applicable.poised {v : Value β σ} (h : v.Applicable) (hfired : ¬ v.Unfired) : v.Poised := by
  rcases h with h | ⟨t, s, -, harity, rfl⟩
  · exact h
  · exact absurd ⟨t, s, harity, rfl⟩ hfired

variable (hcfg : cfg.Canonical) (ih : PoisedAt cfg n)

include ih

theorem PoisedAt.readbacks {vs : List (Value β σ)} (hvs : ∀ v ∈ vs, v.Poised) :
    Upholds (fun ts => ∀ t ∈ ts, t.Canonical) (vs.mapM (Machine.readback cfg n)) :=
  .mapM fun v hv => ih.readback (hvs v hv)

theorem PoisedAt.readback_succ {v : Value β σ} (hv : v.Poised) :
    Upholds Term.Canonical (Machine.readback cfg (n + 1) v) := by
  rw [Machine.readback_succ]
  refine (ih.force hv).bind fun u hu => ?_
  rw [hu.2, if_neg Bool.false_ne_true]
  have hhead : Upholds Term.Canonical (bounded u.head? : Eval β σ (Term β σ)) := by
    refine .inWorld fun w t w' hr => ?_
    cases ht : u.head? with
    | none =>
        rw [ht] at hr
        cases hr
    | some t' =>
        rw [ht] at hr
        cases hr
        exact hu.1.head hu.2 ht
  refine hhead.bind fun h hh => ?_
  exact (ih.readbacks hu.1.args).bind fun ts hts => .pure (hh.apps hts)

include hcfg

theorem PoisedAt.fire (hderived : cfg.Derived) (s : Step σ) {args : List (Value β σ)}
    (hargs : ∀ a ∈ args, a.Poised) :
    Upholds (fun v? => ∀ v, v? = some v → v.Poised) (Machine.fire cfg (Machine.readback cfg n) s args) := by
  -- a derived step gets terms, and what it gives is suspended: the interpretation only has to keep to canonical terms
  rw [Machine.fire, hderived s.body]
  refine (ih.readbacks hargs).bind fun ts hts => ?_
  refine (Upholds.inWorld (U := fun _ => True) fun _ _ _ _ => trivial).bind fun _ _ => ?_
  refine (Upholds.inWorld (U := fun t? => ∀ t, t? = some t → t.Canonical) ?_).bind fun t? ht? => ?_
  · rintro w _ w' hr t rfl
    exact hcfg.interp s.body ts w t w' hts hr
  cases t? with
  | none => exact .pure (by rintro _ ⟨⟩)
  | some t =>
      refine (upholds_ofTerm (ht? t rfl)).bind fun v hv => .pure ?_
      rintro _ ⟨⟩
      exact hv

theorem PoisedAt.applyForced_succ (hderived : cfg.Derived) {f : Value β σ} {args : List (Value β σ)}
    (hf : f.Applicable) (hargs : ∀ a ∈ args, a.Poised) :
    Upholds Value.Result (Machine.applyForced cfg (n + 1) f args) := by
  have happend {vs : List (Value β σ)} (hvs : ∀ v ∈ vs, v.Poised) : ∀ v ∈ vs ++ args, v.Poised :=
    List.forall_mem_append.mpr ⟨hvs, hargs⟩
  cases f with
  | lam arity src body frame held =>
      obtain hf | ⟨_, _, _, _, ⟨⟩⟩ := hf
      have hall := happend (Value.allPoised_iff.mp hf.2.2.2.2)
      rw [Machine.applyForced]
      by_cases hfew : (held ++ args).length < arity
      · rw [if_pos hfew]
        exact .pure ⟨⟨hfew, hf.2.1, hf.2.2.1, hf.2.2.2.1, Value.allPoised_iff.mpr hall⟩, rfl⟩
      · rw [if_neg hfew]
        obtain ⟨hframe, hlater⟩ := hf.body hargs
        exact (ih.run hf.2.2.1 hframe).bind fun v hv => ih.applyRest hv hlater
  | step t s held =>
      obtain ⟨ht, hheld⟩ := hf.step
      rw [Machine.applyForced]
      by_cases hfew : (held ++ args).length < s.arity
      · rw [if_pos hfew]
        exact .pure ⟨⟨hfew, ht, Value.allPoised_iff.mpr (happend hheld)⟩, rfl⟩
      rw [if_neg hfew]
      obtain ⟨hnow, hlater⟩ := hf.fired hargs
      refine (ih.fire hcfg hderived s hnow).bind fun v? hv? => ?_
      cases v? with
      | some v => exact (ih.force (hv? v rfl)).bind fun u hu => ih.applyRest hu hlater
      | none =>
          refine (ih.readbacks hnow).bind fun ts hts => .pure ⟨⟨ht.apps hts, ?_⟩, rfl⟩
          exact Value.allPoised_iff.mpr hlater
  | ctor c held =>
      obtain hf | ⟨_, _, _, _, ⟨⟩⟩ := hf
      rw [Machine.applyForced]
      exact .pure ⟨Value.allPoised_iff.mpr (happend (Value.allPoised_iff.mp hf)), rfl⟩
  | neutral t held =>
      obtain hf | ⟨_, _, _, _, ⟨⟩⟩ := hf
      rw [Machine.applyForced]
      exact .pure ⟨⟨hf.1, Value.allPoised_iff.mpr (happend (Value.allPoised_iff.mp hf.2))⟩, rfl⟩
  | stuck s brs frame held =>
      obtain hf | ⟨_, _, _, _, ⟨⟩⟩ := hf
      rw [Machine.applyForced]
      refine .pure ⟨⟨hf.1, hf.2.1, hf.2.2.1, ?_⟩, rfl⟩
      exact Value.allPoised_iff.mpr (happend (Value.allPoised_iff.mp hf.2.2.2))
  | lit | blob =>
      rw [Machine.applyForced]
      cases args with
      | nil => exact .pure ⟨trivial, rfl⟩
      | cons a as => exact .pure ⟨⟨trivial, Value.allPoised_iff.mpr hargs⟩, rfl⟩
  | thunk slot src frame code? =>
      obtain hf | ⟨_, _, _, _, ⟨⟩⟩ := hf
      rw [Machine.applyForced]
      exact (ih.force hf).bind fun v hv => ih.applyRest hv hargs

omit hcfg in
/-- What a suspended computation puts off makes a result. -/
theorem PoisedAt.evaluate {src : Term β σ} {frame : List (Value β σ)} {code? : Option (Code β σ)}
    {slot : Nat} (hv : (Value.thunk slot src frame code?).Poised) :
    Upholds Value.Result (Machine.evaluate cfg n src frame code?) := by
  have hframe := Value.allPoised_iff.mp hv.2.1
  cases code? with
  | some code => exact ih.run (hv.2.2 code rfl) hframe
  | none => exact (Upholds.reserve (compile_poised cfg.steps hv.1)).bind fun code hcode => ih.run hcode hframe

omit hcfg in
theorem PoisedAt.force_succ {v : Value β σ} (hv : v.Poised) :
    Upholds Value.Result (Machine.force cfg (n + 1) v) := by
  cases hv' : v.isThunk with
  | false =>
      rw [Machine.force_of_forced hv']
      exact .pure ⟨hv, hv'⟩
  | true =>
      cases v with
      | thunk slot src frame code? =>
          rw [force_thunk]
          exact .orElse ((ih.evaluate hv).bind fun u hu => .fill hu)
      | _ => cases hv'

omit hcfg in
theorem PoisedAt.run_succ {code : Code β σ} {frame : List (Value β σ)} (hcode : code.Poised)
    (hframe : ∀ f ∈ frame, f.Poised) : Upholds Value.Result (Machine.run cfg (n + 1) code frame) := by
  cases code with
  | var i =>
      rw [Machine.run]
      exact (upholds_lookup hframe i).bind fun v hv => ih.force hv
  | const name slot =>
      rw [Machine.run]
      exact .orElse (ih.unfold.bind fun v hv => .fill hv)
  | step t s =>
      -- a step without arguments is fired at once; until then, it is the one value that is not poised
      rw [Machine.run]
      refine ih.apply ?_ (List.forall_mem_nil _)
      rcases Nat.eq_zero_or_pos s.arity with harity | harity
      · exact .inr ⟨t, s, hcode, harity, rfl⟩
      · exact .inl ⟨harity, hcode, trivial⟩
  | ctor | lit | blob =>
      rw [Machine.run]
      exact .pure ⟨trivial, rfl⟩
  | neutral t =>
      rw [Machine.run]
      exact .pure ⟨⟨hcode, trivial⟩, rfl⟩
  | app h args =>
      rw [Machine.run]
      refine (ih.run hcode.1 hframe).bind fun f hf => ?_
      exact (upholds_delayed hframe hcode.2).bind fun vs hvs => ih.apply (.inl hf.1) hvs
  | lam arity src body =>
      rw [Machine.run]
      exact .pure ⟨⟨hcode.1, hcode.2.1, hcode.2.2, Value.allPoised_iff.mpr hframe, trivial⟩, rfl⟩
  | case s brs =>
      rw [Machine.run]
      refine (ih.run hcode.1 hframe).bind fun v hv => ?_
      cases hsel : select v brs with
      | some p =>
          obtain ⟨⟨src, body⟩, bound⟩ := p
          obtain ⟨hbody, hbound⟩ := select_poised hv.1 hcode.2 hsel
          refine ih.run hbody (List.forall_mem_append.mpr ⟨fun u hu => ?_, hframe⟩)
          exact hbound u (List.mem_reverse.mp hu)
      | none =>
          exact .pure ⟨⟨hv.1, hcode.2.sources, Value.allPoised_iff.mpr hframe, trivial⟩, rfl⟩

theorem PoisedAt.unfold_succ {c : String} : Upholds Value.Result (Machine.unfold cfg (n + 1) c) := by
  rw [Machine.unfold]
  cases hbody : cfg.env.unfoldable c with
  | none => exact .pure ⟨⟨trivial, trivial⟩, rfl⟩
  | some body =>
      refine (Upholds.reserve (compile_poised cfg.steps (hcfg.unfoldable c body hbody))).bind
        fun code hcode => ?_
      exact ih.run hcode (List.forall_mem_nil _)

omit hcfg in
/-- Forcing what is about to be applied gives something that can be applied. -/
theorem PoisedAt.force_applicable {f : Value β σ} (hf : f.Applicable) :
    Upholds Value.Applicable (Machine.force cfg n f) := by
  rcases hf with hf | ⟨t, s, ht, harity, rfl⟩
  · exact (ih.force hf).imp fun u hu => .inl hu.1
  · cases n with
    | zero => exact .throw
    | succ n =>
        rw [Machine.force_of_forced rfl]
        exact .pure (.inr ⟨t, s, ht, harity, rfl⟩)

omit hcfg in
theorem PoisedAt.apply_succ {f : Value β σ} {args : List (Value β σ)} (hf : f.Applicable)
    (hargs : ∀ a ∈ args, a.Poised) : Upholds Value.Result (Machine.apply cfg (n + 1) f args) := by
  rw [Machine.apply]
  exact (ih.force_applicable hf).bind fun u hu => ih.applyForced hu hargs

omit hcfg in
theorem PoisedAt.applyRest_succ {v : Value β σ} {rest : List (Value β σ)} (hv : v.Result)
    (hrest : ∀ a ∈ rest, a.Poised) : Upholds Value.Result (Machine.applyRest cfg (n + 1) v rest) := by
  rw [Machine.applyRest]
  split
  · exact .pure hv
  · exact ih.applyForced (.inl hv.1) hrest

omit ih in
/-- The machine makes poised values of poised ones. -/
theorem poisedAt (hderived : cfg.Derived) (n : Nat) : PoisedAt cfg n := by
  induction n with
  | zero =>
      constructor
      all_goals
        intros
        exact .throw
  | succ n ih =>
      exact {
        run := ih.run_succ
        unfold := ih.unfold_succ hcfg
        force := ih.force_succ
        apply := ih.apply_succ
        applyForced := ih.applyForced_succ hcfg hderived
        applyRest := ih.applyRest_succ
        readback := ih.readback_succ }

end

end TacticEngine.Machine
