/-
# TacticEngine.Proofs.Machine.Renaming -- the numbers of slots do not matter.

A heap may have a spare slot somewhere, which nothing mentions.  All slots from there on then have the
next number.  The machine goes on from such a heap as it does without the spare slot: it gives the same
values, up to the numbers of slots, fires the same steps and reads the same terms back (`spacedAt`).
-/
import TacticEngine.Proofs.Machine.Slots
import TacticEngine.Proofs.Run.Acts

namespace TacticEngine.Machine

variable {β σ α γ : Type}

/-! ## Other numbers -/

section

variable (f : Nat → Nat)

mutual
/-- The code with other numbers for its slots. -/
def Code.rename : Code β σ → Code β σ
  | .const c slot => .const c (f slot)
  | .app h args => .app h.rename (Delayed.renameAll args)
  | .lam n src body => .lam n src body.rename
  | .case s brs => .case s.rename (Code.renameBranches brs)
  | .var i => .var i
  | .step t s => .step t s
  | .ctor c => .ctor c
  | .neutral t => .neutral t
  | .lit l => .lit l
  | .blob b => .blob b

/-- The arguments with other numbers for their slots. -/
def Delayed.renameAll : List (Delayed β σ) → List (Delayed β σ)
  | [] => []
  | .thunk src code :: ds => .thunk src code.rename :: Delayed.renameAll ds
  | .var i :: ds => .var i :: Delayed.renameAll ds
  | .lit l :: ds => .lit l :: Delayed.renameAll ds
  | .blob b :: ds => .blob b :: Delayed.renameAll ds

/-- The branches with other numbers for their slots. -/
def Code.renameBranches :
    List (Branch (Term β σ × Code β σ)) → List (Branch (Term β σ × Code β σ))
  | [] => []
  | ⟨p, (src, code)⟩ :: brs => ⟨p, (src, code.rename)⟩ :: Code.renameBranches brs
end

mutual
/-- The value with other numbers for its slots. -/
def Value.rename : Value β σ → Value β σ
  | .ctor c args => .ctor c (Value.renameAll args)
  | .lit l => .lit l
  | .blob b => .blob b
  | .lam n src body frame held =>
    .lam n src (body.rename f) (Value.renameAll frame) (Value.renameAll held)
  | .step t s held => .step t s (Value.renameAll held)
  | .neutral t args => .neutral t (Value.renameAll args)
  | .stuck s brs frame args => .stuck s.rename brs (Value.renameAll frame) (Value.renameAll args)
  | .thunk slot src frame code? =>
    .thunk (f slot) src (Value.renameAll frame) (code?.map (·.rename f))

/-- The values with other numbers for their slots. -/
def Value.renameAll : List (Value β σ) → List (Value β σ)
  | [] => []
  | v :: vs => v.rename :: Value.renameAll vs
end

end

section

variable {f : Nat → Nat}

theorem Value.renameAll_eq_map (vs : List (Value β σ)) :
    Value.renameAll f vs = vs.map (Value.rename f) := by
  induction vs with
  | nil => rfl
  | cons v vs ih => rw [Value.renameAll, ih, List.map_cons]

theorem Value.isThunk_rename (v : Value β σ) : (v.rename f).isThunk = v.isThunk := by
  cases v <;> rfl

theorem Value.args_rename (v : Value β σ) : (v.rename f).args = v.args.map (Value.rename f) := by
  cases v with
  | lit | blob | thunk => rfl
  | _ => exact Value.renameAll_eq_map _

mutual
/-- What a value stands for has nothing to do with slots. -/
theorem source?_rename : ∀ v : Value β σ, (v.rename f).source? = v.source?
  | .ctor _ args => by rw [Value.rename, Value.source?, Value.source?, sources?_renameAll args]
  | .lit _ => rfl
  | .blob _ => rfl
  | .lam _ _ _ frame held => by
      rw [Value.rename, Value.source?, Value.source?, sources?_renameAll frame,
        sources?_renameAll held]
  | .step _ _ held => by rw [Value.rename, Value.source?, Value.source?, sources?_renameAll held]
  | .neutral _ args => by rw [Value.rename, Value.source?, Value.source?, sources?_renameAll args]
  | .stuck s _ frame args => by
      rw [Value.rename, Value.source?, Value.source?, source?_rename s, sources?_renameAll frame,
        sources?_renameAll args]
  | .thunk _ _ frame _ => by
      rw [Value.rename, Value.source?, Value.source?, sources?_renameAll frame]

theorem sources?_renameAll : ∀ vs : List (Value β σ), sources? (Value.renameAll f vs) = sources? vs
  | [] => rfl
  | v :: vs => by rw [Value.renameAll, sources?, sources?, source?_rename v, sources?_renameAll vs]
end

theorem Value.head?_rename {v : Value β σ} (hv : v.isThunk = false) :
    (v.rename f).head? = v.head? := by
  cases v with
  | lam _ _ _ frame _ => rw [Value.rename, Value.head?, Value.head?, sources?_renameAll]
  | stuck s brs frame _ =>
      have h := source?_rename (f := f) (Value.stuck s brs frame [])
      rw [Value.rename, Value.renameAll] at h
      exact h
  | thunk => cases hv
  | _ => rfl

theorem branchSources_rename (brs : List (Branch (Term β σ × Code β σ))) :
    branchSources (Code.renameBranches f brs) = branchSources brs := by
  induction brs with
  | nil => rfl
  | cons br brs ih =>
      obtain ⟨p, src, code⟩ := br
      exact congrArg (List.cons _) ih

theorem select_rename (v : Value β σ) : ∀ brs : List (Branch (Term β σ × Code β σ)),
    select (v.rename f) (Code.renameBranches f brs) =
      (select v brs).map fun x => ((x.1.1, x.1.2.rename f), x.2.map (Value.rename f))
  | [] => rfl
  | ⟨.wild, (_, _)⟩ :: _ => rfl
  | ⟨.var, (_, _)⟩ :: _ => rfl
  | ⟨.lit l, (_, _)⟩ :: brs => by
      cases v with
      | lit l' =>
          have ih := select_rename (.lit l') brs
          rw [Code.renameBranches, Value.rename, select, select]
          split
          · rfl
          · exact ih
      | _ => rfl
  | ⟨.ctor c n, (_, _)⟩ :: brs => by
      cases v with
      | ctor c' args =>
          have ih := select_rename (.ctor c' args) brs
          rw [Code.renameBranches, Value.rename, select, select, Value.renameAll_eq_map,
            List.length_map]
          split
          · rfl
          · rw [Value.rename, Value.renameAll_eq_map] at ih
            exact ih
      | _ => rfl

end

/-! ## A spare slot -/

/-- The number of a slot if slot `k` is spare. -/
def spare (k i : Nat) : Nat := if i < k then i else i + 1

theorem spare_inj {k i j : Nat} (h : spare k i = spare k j) : i = j := by
  unfold spare at h
  split at h <;> split at h <;> omega

theorem spare_lt_iff {k i m : Nat} (hk : k ≤ m) : spare k i < m + 1 ↔ i < m := by
  unfold spare
  split <;> omega

theorem spare_of_ge {k n : Nat} (h : k ≤ n) : spare k n = n + 1 := if_neg (Nat.not_lt.mpr h)

theorem spare_of_lt {k i : Nat} (h : i < k) : spare k i = i := if_pos h

theorem Ranks.Below.lt {R : Ranks} {c : ℚ} {slot : Nat} (h : R.Below c slot) : slot < R.length := by
  obtain ⟨q, hq, -⟩ := h
  exact (List.getElem?_eq_some_iff.mp hq).1

section

variable {R : Ranks} {c : ℚ}

mutual
/-- Code keeps the slots that come before the spare one. -/
theorem rename_spare_length : ∀ {code : Code β σ}, code.Below R c →
    code.rename (spare R.length) = code
  | .const name slot, h => congrArg (Code.const name) (spare_of_lt h.lt)
  | .app _ _, h => by
      simp only [Code.Below] at h
      rw [Code.rename, rename_spare_length h.1, renameAll_spare_length h.2]
  | .lam _ _ _, h => by
      simp only [Code.Below] at h
      rw [Code.rename, rename_spare_length h]
  | .case _ _, h => by
      simp only [Code.Below] at h
      rw [Code.rename, rename_spare_length h.1, renameBranches_spare_length h.2]
  | .var _, _ | .step _ _, _ | .ctor _, _ | .neutral _, _ | .lit _, _ | .blob _, _ => rfl

theorem renameAll_spare_length : ∀ {ds : List (Delayed β σ)}, Delayed.AllBelow R c ds →
    Delayed.renameAll (spare R.length) ds = ds
  | [], _ => rfl
  | .thunk _ _ :: _, h => by
      rw [Delayed.renameAll, rename_spare_length h.1, renameAll_spare_length h.2]
  | .var _ :: _, h | .lit _ :: _, h | .blob _ :: _, h => by
      simp only [Delayed.AllBelow] at h
      rw [Delayed.renameAll, renameAll_spare_length h]

theorem renameBranches_spare_length : ∀ {brs : List (Branch (Term β σ × Code β σ))},
    Code.BranchesBelow R c brs → Code.renameBranches (spare R.length) brs = brs
  | [], _ => rfl
  | ⟨_, (_, _)⟩ :: _, h => by
      rw [Code.renameBranches, rename_spare_length h.1, renameBranches_spare_length h.2]
end

end

/-- The second heap has a spare slot. -/
structure Heap.Spaced (k : Nat) (h h' : Heap β σ) : Prop where
  le : k ≤ h.slots.size
  size : h'.slots.size = h.slots.size + 1
  read : ∀ i, h'.read (spare k i) = (h.read i).map (Value.rename (spare k))

/-- Two things take slots alike, the second one where there is a spare slot before. -/
def Spaced (k : Nat) (g : α → α) (m m' : Slots α) : Prop :=
  ∀ n, k ≤ n → n ≤ (m n).2 ∧ m' (n + 1) = (g (m n).1, (m n).2 + 1)

section

variable {k : Nat}

theorem Spaced.pure {g : α → α} {a a' : α} (h : a' = g a) :
    Spaced k g (Pure.pure a) (Pure.pure a') := by
  subst h
  exact fun n _ => ⟨Nat.le_refl n, rfl⟩

theorem Spaced.bind {g : α → α} {g' : γ → γ} {m m' : Slots α} {f f' : α → Slots γ}
    (hm : Spaced k g m m') (hf : ∀ a, Spaced k g' (f a) (f' (g a))) :
    Spaced k g' (m >>= f) (m' >>= f') := by
  intro n hn
  obtain ⟨hle, hm'⟩ := hm n hn
  obtain ⟨hle', hf'⟩ := hf (m n).1 (m n).2 (Nat.le_trans hn hle)
  refine ⟨Nat.le_trans hle hle', ?_⟩
  show f' (m' (n + 1)).1 (m' (n + 1)).2 = _
  rw [hm']
  exact hf'

theorem newSlot_spaced : Spaced k (spare k) newSlot newSlot := by
  intro n hn
  refine ⟨Nat.le_succ n, ?_⟩
  show (n + 1, n + 2) = (spare k n, n + 2)
  rw [spare_of_ge hn]

mutual
/-- Compiling does not look at the numbers of slots. -/
theorem compile_spaced (steps : StepTable σ) : ∀ t : Term β σ,
    Spaced k (Code.rename (spare k)) (compile steps t) (compile steps t)
  | .const c => by
      rw [compile]
      cases steps.lookup c with
      | some s => exact .pure rfl
      | none => exact newSlot_spaced.bind fun slot => .pure rfl
  | .app h as => by
      rw [compile]
      refine (compile_spaced steps h).bind fun code => ?_
      exact (delayAll_spaced steps as).bind fun ds => .pure rfl
  | .lam n b => by
      rw [compile]
      exact (compile_spaced steps b).bind fun code => .pure rfl
  | .case s brs => by
      rw [compile]
      refine (compile_spaced steps s).bind fun code => ?_
      exact (compileBranches_spaced steps brs).bind fun cs => .pure rfl
  | .ascribed e _ => by
      rw [compile]
      exact compile_spaced steps e
  | .annotated e _ => by
      rw [compile]
      exact compile_spaced steps e
  | .reify e => by
      rw [compile]
      exact compile_spaced steps e
  | .bvar _ | .ctor _ | .free _ | .uvar _ | .lit _ | .blob _ | .native _ => by
      rw [compile]
      exact .pure rfl

theorem delayAll_spaced (steps : StepTable σ) : ∀ as : List (Term β σ),
    Spaced k (Delayed.renameAll (spare k)) (delayAll steps as) (delayAll steps as)
  | [] => by
      rw [delayAll]
      exact .pure rfl
  | a :: as => by
      have hrest := delayAll_spaced steps as
      have hthunk : Spaced k (Delayed.renameAll (spare k))
          (do
            let code ← compile steps a
            let as ← delayAll steps as
            return .thunk a code :: as)
          (do
            let code ← compile steps a
            let as ← delayAll steps as
            return .thunk a code :: as) :=
        (compile_spaced steps a).bind fun code => hrest.bind fun ds => .pure rfl
      cases a with
      | bvar | lit | blob =>
          rw [delayAll]
          exact hrest.bind fun ds => .pure rfl
      | _ =>
          rw [delayAll]
          · exact hthunk
          all_goals simp

theorem compileBranches_spaced (steps : StepTable σ) : ∀ brs : List (Branch (Term β σ)),
    Spaced k (Code.renameBranches (spare k)) (compileBranches steps brs) (compileBranches steps brs)
  | [] => by
      rw [compileBranches]
      exact .pure rfl
  | ⟨_, b⟩ :: brs => by
      rw [compileBranches]
      refine (compile_spaced steps b).bind fun code => ?_
      exact (compileBranches_spaced steps brs).bind fun cs => .pure rfl
end

/-! ## Evaluations beside each other -/

/-- Evaluations in equal worlds, the second one with a spare slot. -/
def spacing (β σ : Type) (k : Nat) : Tie (Halt β) (Memory β σ) (Halt β) (Memory β σ) where
  state s s' := s.heap.Spaced k s'.heap ∧ s.world = s'.world
  halt := Eq
  mute e _ := e = .exhausted
  escape _ _ := False

/-- Values that are the same but for the numbers of slots. -/
abbrev Renamed (k : Nat) (v v' : Value β σ) : Prop := v' = v.rename (spare k)

theorem forall₂_eq_map {g : α → γ} {as : List α} {bs : List γ} :
    List.Forall₂ (fun a b => b = g a) as bs ↔ bs = as.map g := by
  constructor
  · intro h
    induction h with
    | nil => rfl
    | cons h _ ih => rw [h, ih, List.map_cons]
  · rintro rfl
    exact List.forall₂_map_right_iff.mpr (List.forall₂_same.mpr fun _ _ => rfl)

theorem mapM_spaced {f : Value β σ → Eval β σ α} {F : Value β σ → Family (Halt β) (Memory β σ) α}
    (hf : ∀ v, (spacing β σ k).Follows Eq (f v) (F (v.rename (spare k)))) (vs : List (Value β σ)) :
    (spacing β σ k).Follows Eq (vs.mapM f)
      fun l n => (vs.map (Value.rename (spare k))).mapM fun v => F v l n := by
  have hall : ∀ v v', Renamed k v v' → (spacing β σ k).Follows Eq (f v) (F v') := by
    rintro v _ rfl
    exact hf v
  exact (Tie.Follows.mapM hall (forall₂_eq_map.mpr rfl)).imp
    fun as as' h => List.forall₂_eq_eq_eq ▸ h

theorem inWorld_spaced (act : Act β σ α) :
    (spacing β σ k).Follows Eq (inWorld act) fun _ _ => inWorld act := by
  refine .const ?_
  rintro ⟨heap, w⟩ ⟨heap', _⟩ ⟨hheap, rfl⟩
  rw [inWorld_run, inWorld_run]
  cases act w with
  | ok a w' => exact .ok rfl ⟨hheap, rfl⟩
  | error e w' => exact .error rfl ⟨hheap, rfl⟩

theorem reserve_spaced {g : α → α} {m m' : Slots α} (h : Spaced k g m m') :
    (spacing β σ k).Follows (fun a a' => a' = g a) (inHeap (·.reserve m))
      fun _ _ => inHeap (·.reserve m') := by
  refine .const ?_
  rintro ⟨heap, w⟩ ⟨heap', _⟩ ⟨hheap, rfl⟩
  obtain ⟨hle, hm'⟩ := h heap.slots.size hheap.le
  rw [inHeap_run, inHeap_run]
  have hsize : heap'.slots.size = heap.slots.size + 1 := hheap.size
  refine .ok ?_ ⟨⟨?_, ?_, fun i => ?_⟩, rfl⟩
  · rw [Heap.reserve_eq, Heap.reserve_eq, hsize, hm']
  · show k ≤ (heap.reserve m).2.slots.size
    rw [Heap.size_reserve]
    exact Nat.le_trans hheap.le (Nat.le_add_right _ _)
  · show (heap'.reserve m').2.slots.size = (heap.reserve m).2.slots.size + 1
    rw [Heap.size_reserve, Heap.size_reserve, hsize, hm']
    dsimp only
    omega
  · show (heap'.reserve m').2.read (spare k i) = ((heap.reserve m).2.read i).map _
    rw [Heap.read_reserve, Heap.read_reserve]
    exact hheap.read i

theorem get_spaced (slot : Nat) :
    (spacing β σ k).Follows
      (fun s s' => s'.heap.read (spare k slot) = (s.heap.read slot).map (Value.rename (spare k)))
      get fun _ _ => get :=
  .const fun _ _ h => .ok (h.1.read slot) h

theorem fill_spaced (slot : Nat) (v : Value β σ) :
    (spacing β σ k).Follows (Renamed k) (inHeap (·.fill slot v))
      fun _ _ => inHeap (·.fill (spare k slot) (v.rename (spare k))) := by
  refine .const ?_
  rintro ⟨heap, w⟩ ⟨heap', _⟩ ⟨hheap, rfl⟩
  have hread := hheap.read slot
  rw [inHeap_run, inHeap_run]
  cases hr : heap.read slot with
  | some old =>
      rw [show ((⟨heap, w⟩ : Memory β σ).heap).read slot = some old from hr, Option.map_some] at hread
      rw [Heap.fill_of_read hr, Heap.fill_of_read hread]
      exact .ok rfl ⟨hheap, rfl⟩
  | none =>
      rw [show ((⟨heap, w⟩ : Memory β σ).heap).read slot = none from hr, Option.map_none] at hread
      rw [Heap.fill_fst_of_none hr, Heap.fill_fst_of_none hread]
      refine .ok rfl ⟨⟨?_, ?_, fun i => ?_⟩, rfl⟩
      · show k ≤ (heap.fill slot v).2.slots.size
        rw [Heap.size_fill]
        exact hheap.le
      · show (heap'.fill _ _).2.slots.size = (heap.fill slot v).2.slots.size + 1
        rw [Heap.size_fill, Heap.size_fill]
        exact hheap.size
      · show (heap'.fill _ _).2.read _ = ((heap.fill slot v).2.read i).map _
        have hsize : heap'.slots.size = heap.slots.size + 1 := hheap.size
        have hcond : (spare k i = spare k slot ∧ spare k slot < heap'.slots.size) ↔
            (i = slot ∧ slot < heap.slots.size) := by
          rw [hsize, spare_lt_iff hheap.le]
          exact and_congr_left fun _ => ⟨spare_inj, congrArg _⟩
        rw [Heap.read_fill_of_none hr, Heap.read_fill_of_none hread, if_congr hcond rfl rfl]
        split
        · rfl
        · exact hheap.read i

theorem lookup_spaced (frame : List (Value β σ)) (i : Nat) :
    (spacing β σ k).Follows (Renamed k) (lookup frame i)
      fun _ _ => lookup (frame.map (Value.rename (spare k))) i := by
  unfold lookup
  rw [List.getElem?_map]
  cases frame[i]? with
  | some v => exact .pure rfl
  | none => exact .throw rfl

theorem delayed_spaced (frame : List (Value β σ)) : ∀ ds : List (Delayed β σ),
    (spacing β σ k).Follows (fun vs vs' => vs' = vs.map (Value.rename (spare k)))
      (ds.mapM (delayed frame)) fun _ _ =>
        (Delayed.renameAll (spare k) ds).mapM (delayed (frame.map (Value.rename (spare k))))
  | [] => by
      simp only [Delayed.renameAll, List.mapM_nil]
      exact .pure rfl
  | d :: ds => by
      have hcons {d' : Delayed β σ} (hd : (spacing β σ k).Follows (Renamed k) (delayed frame d)
          fun _ _ => delayed (frame.map (Value.rename (spare k))) d') :
          (spacing β σ k).Follows (fun vs vs' => vs' = vs.map (Value.rename (spare k)))
            ((d :: ds).mapM (delayed frame)) fun _ _ =>
              (d' :: Delayed.renameAll (spare k) ds).mapM
                (delayed (frame.map (Value.rename (spare k)))) := by
        simp only [List.mapM_cons]
        refine hd.bind fun v v' hv => ?_
        refine (delayed_spaced frame ds).bind fun vs vs' hvs => .pure ?_
        rw [hv, hvs, List.map_cons]
      cases d with
      | var i => exact hcons (lookup_spaced frame i)
      | lit | blob => exact hcons (.pure rfl)
      | thunk src code =>
          refine hcons ((reserve_spaced newSlot_spaced).bind fun slot slot' hslot => .pure ?_)
          rw [hslot, Renamed, Value.rename, Value.renameAll_eq_map]
          rfl

theorem ofTerm_spaced (t : Term β σ) :
    (spacing β σ k).Follows (Renamed k) (ofTerm t) fun _ _ => ofTerm t := by
  have hthunk : (spacing β σ k).Follows (Renamed k)
      (do return .thunk (← inHeap (·.reserve newSlot)) t [] none)
      fun _ _ => do return .thunk (← inHeap (·.reserve newSlot)) t [] none := by
    refine (reserve_spaced newSlot_spaced).bind fun slot slot' hslot => .pure ?_
    rw [hslot]
    rfl
  cases t with
  | lit | blob => exact .pure rfl
  | _ => exact hthunk

/-! ## The machine -/

/-- The machine reads the arguments of every step back. -/
def Setting.Derived (cfg : Setting β σ) : Prop := ∀ body, cfg.direct body = none

theorem Setting.Derived.slotless {cfg : Setting β σ} (hcfg : cfg.Derived) : cfg.Slotless := by
  intro body f vs w v w' hf
  rw [hcfg body] at hf
  cases hf

/-- With a given amount of fuel, what the machine does is also done where there is a spare slot. -/
structure SpacedAt (cfg : Setting β σ) (k n : Nat) : Prop where
  run : ∀ code frame, (spacing β σ k).Follows (Renamed k) (run cfg n code frame)
    fun _ m => run cfg m (code.rename (spare k)) (frame.map (Value.rename (spare k)))
  unfold : ∀ c, (spacing β σ k).Follows (Renamed k) (unfold cfg n c) fun _ m => unfold cfg m c
  force : ∀ v, (spacing β σ k).Follows (Renamed k) (force cfg n v)
    fun _ m => force cfg m (v.rename (spare k))
  apply : ∀ f args, (spacing β σ k).Follows (Renamed k) (apply cfg n f args)
    fun _ m => apply cfg m (f.rename (spare k)) (args.map (Value.rename (spare k)))
  applyForced : ∀ f args, (spacing β σ k).Follows (Renamed k) (applyForced cfg n f args)
    fun _ m => applyForced cfg m (f.rename (spare k)) (args.map (Value.rename (spare k)))
  applyRest : ∀ v rest, (spacing β σ k).Follows (Renamed k) (applyRest cfg n v rest)
    fun _ m => applyRest cfg m (v.rename (spare k)) (rest.map (Value.rename (spare k)))
  readback : ∀ v, (spacing β σ k).Follows Eq (readback cfg n v)
    fun _ m => readback cfg m (v.rename (spare k))

/-- Looking for a value before computing it. -/
theorem orElse_spaced {slot : Nat} {m : Eval β σ (Value β σ)}
    {F : Family (Halt β) (Memory β σ) (Value β σ)} (hm : (spacing β σ k).Follows (Renamed k) m F) :
    (spacing β σ k).Follows (Renamed k)
      (do
        match (← get).heap.read slot with
        | some v => pure v
        | none => do
          let v ← m
          inHeap (·.fill slot v))
      (fun l j => do
        match (← get).heap.read (spare k slot) with
        | some v => pure v
        | none => do
          let v ← F l j
          inHeap (·.fill (spare k slot) v)) := by
  refine (get_spaced slot).bind fun s s' hread => ?_
  generalize s.heap.read slot = x at hread ⊢
  generalize s'.heap.read (spare k slot) = x' at hread ⊢
  subst hread
  cases x with
  | some old => exact .pure rfl
  | none =>
      refine hm.bind fun v v' hv => ?_
      rw [hv]
      exact fill_spaced slot v

variable {cfg : Setting β σ} {n : Nat} (ih : SpacedAt cfg k n)

include ih

theorem SpacedAt.evaluate (src : Term β σ) (frame : List (Value β σ)) (code? : Option (Code β σ)) :
    (spacing β σ k).Follows (Renamed k) (Machine.evaluate cfg n src frame code?)
      fun _ m => Machine.evaluate cfg m src (frame.map (Value.rename (spare k)))
        (code?.map (·.rename (spare k))) := by
  cases code? with
  | some code => exact ih.run code frame
  | none =>
      refine (reserve_spaced (compile_spaced cfg.steps src)).bind fun code code' hcode => ?_
      rw [hcode]
      exact ih.run code frame

theorem SpacedAt.force_succ (v : Value β σ) :
    (spacing β σ k).Follows (Renamed k) (Machine.force cfg (n + 1) v)
      fun _ m => Machine.force cfg m (v.rename (spare k)) := by
  refine .succ ?_
  cases hv : v.isThunk with
  | false =>
      have hv' : (v.rename (spare k)).isThunk = false := (Value.isThunk_rename v).trans hv
      simp only [force_of_forced hv, force_of_forced hv']
      exact .pure rfl
  | true =>
      cases v with
      | thunk slot src frame code? =>
          simp only [Value.rename, Value.renameAll_eq_map, force_thunk]
          exact orElse_spaced (ih.evaluate src frame code?)
      | _ => cases hv

theorem SpacedAt.readback_succ (v : Value β σ) :
    (spacing β σ k).Follows Eq (Machine.readback cfg (n + 1) v)
      fun _ m => Machine.readback cfg m (v.rename (spare k)) := by
  refine .succ ?_
  simp only [Machine.readback_succ]
  refine (ih.force v).bind ?_
  rintro u _ rfl
  rw [Value.isThunk_rename]
  cases hu : u.isThunk with
  | true => exact .throw rfl
  | false =>
      simp only [Bool.false_eq_true, if_false]
      rw [Value.head?_rename hu, Value.args_rename]
      refine (inWorld_spaced (Act.bounded u.head?)).bind ?_
      rintro h _ rfl
      refine (mapM_spaced ih.readback u.args).bind ?_
      rintro ts _ rfl
      exact .pure rfl

theorem SpacedAt.fire (hcfg : cfg.Derived) (s : Step σ) (args : List (Value β σ)) :
    (spacing β σ k).Follows (fun r r' => r' = r.map (Value.rename (spare k)))
      (Machine.fire cfg (Machine.readback cfg n) s args)
      fun _ m => Machine.fire cfg (Machine.readback cfg m) s (args.map (Value.rename (spare k))) := by
  simp only [Machine.fire, hcfg s.body]
  refine (mapM_spaced ih.readback args).bind ?_
  rintro ts _ rfl
  refine (inWorld_spaced (Act.note (.fired s ts))).bind fun _ _ _ => ?_
  refine (inWorld_spaced (cfg.interp s.body cfg.env ts)).bind ?_
  rintro r _ rfl
  cases r with
  | none => exact .pure rfl
  | some t =>
      refine (ofTerm_spaced t).bind ?_
      rintro v _ rfl
      exact .pure rfl

theorem SpacedAt.applyForced_succ (hcfg : cfg.Derived) (f : Value β σ) (args : List (Value β σ)) :
    (spacing β σ k).Follows (Renamed k) (Machine.applyForced cfg (n + 1) f args)
      fun _ m => Machine.applyForced cfg m (f.rename (spare k))
        (args.map (Value.rename (spare k))) := by
  refine .succ ?_
  cases f with
  | lam arity src body frame held =>
      simp only [Value.rename, Value.renameAll_eq_map, Machine.applyForced, ← List.map_append,
        List.length_map, ← List.map_take, ← List.map_drop, ← List.map_reverse]
      split
      · refine .pure ?_
        simp only [Renamed, Value.rename, Value.renameAll_eq_map]
      · refine (ih.run body _).bind ?_
        rintro v _ rfl
        exact ih.applyRest v _
  | step t s held =>
      simp only [Value.rename, Value.renameAll_eq_map, Machine.applyForced, ← List.map_append,
        List.length_map, ← List.map_take, ← List.map_drop]
      split
      · refine .pure ?_
        simp only [Renamed, Value.rename, Value.renameAll_eq_map]
      · refine (ih.fire hcfg s _).bind ?_
        rintro r _ rfl
        cases r with
        | some v =>
            refine (ih.force v).bind ?_
            rintro u _ rfl
            exact ih.applyRest u _
        | none =>
            refine (mapM_spaced ih.readback _).bind ?_
            rintro ts _ rfl
            refine .pure ?_
            simp only [Renamed, Value.rename, Value.renameAll_eq_map]
  | ctor | neutral | stuck =>
      simp only [Value.rename, Value.renameAll_eq_map, Machine.applyForced, ← List.map_append]
      refine .pure ?_
      simp only [Renamed, Value.rename, Value.renameAll_eq_map]
  | lit | blob =>
      simp only [Value.rename, Machine.applyForced, List.isEmpty_map]
      refine .pure ?_
      cases args with
      | nil => rfl
      | cons a as => simp [Renamed, Value.rename, Value.renameAll_eq_map]
  | thunk slot src frame code? =>
      refine Tie.Follows.bind (F := fun _ m => Machine.force cfg m _) (ih.force _) ?_
      rintro v _ rfl
      exact ih.applyRest v args

theorem SpacedAt.run_succ (code : Code β σ) (frame : List (Value β σ)) :
    (spacing β σ k).Follows (Renamed k) (Machine.run cfg (n + 1) code frame)
      fun _ m => Machine.run cfg m (code.rename (spare k)) (frame.map (Value.rename (spare k))) := by
  refine .succ ?_
  cases code with
  | var i =>
      simp only [Code.rename, Machine.run]
      refine (lookup_spaced frame i).bind ?_
      rintro v _ rfl
      exact ih.force v
  | const c slot =>
      simp only [Code.rename, Machine.run]
      exact orElse_spaced (ih.unfold c)
  | step t s =>
      simp only [Code.rename, Machine.run]
      exact ih.apply (.step t s []) []
  | ctor | neutral | lit | blob =>
      simp only [Code.rename, Machine.run]
      exact .pure rfl
  | app h args =>
      simp only [Code.rename, Machine.run]
      refine (ih.run h frame).bind ?_
      rintro f _ rfl
      refine (delayed_spaced frame args).bind ?_
      rintro vs _ rfl
      exact ih.apply f vs
  | lam arity src body =>
      simp only [Code.rename, Machine.run]
      refine .pure ?_
      simp only [Renamed, Value.rename, Value.renameAll_eq_map, List.map_nil]
  | case s brs =>
      simp only [Code.rename, Machine.run, branchSources_rename]
      refine (ih.run s frame).bind ?_
      rintro v _ rfl
      rw [select_rename]
      cases select v brs with
      | some p =>
          obtain ⟨⟨src, body⟩, bound⟩ := p
          simp only [Option.map_some, ← List.map_reverse, ← List.map_append]
          exact ih.run body _
      | none =>
          refine .pure ?_
          simp only [Renamed, Value.rename, Value.renameAll_eq_map, List.map_nil]

omit ih in
/-- A spare slot makes no difference to what the machine does. -/
theorem spacedAt (hcfg : cfg.Derived) (k n : Nat) : SpacedAt cfg k n := by
  induction n with
  | zero =>
      constructor
      all_goals
        intros
        exact .mute fun _ => rfl
  | succ n ih =>
      exact {
        run := ih.run_succ
        unfold := by
          intro c
          refine .succ ?_
          simp only [Machine.unfold]
          cases cfg.env.unfoldable c with
          | none => exact .pure rfl
          | some body =>
              refine (reserve_spaced (compile_spaced cfg.steps body)).bind fun code code' hcode => ?_
              rw [hcode]
              exact ih.run code []
        force := ih.force_succ
        apply := by
          intro f args
          refine .succ ?_
          simp only [Machine.apply]
          refine (ih.force f).bind ?_
          rintro u _ rfl
          exact ih.applyForced u args
        applyForced := ih.applyForced_succ hcfg
        applyRest := by
          intro v rest
          refine .succ ?_
          simp only [Machine.applyRest, List.isEmpty_map]
          split
          · exact .pure rfl
          · exact ih.applyForced v rest
        readback := ih.readback_succ }

end

end TacticEngine.Machine
