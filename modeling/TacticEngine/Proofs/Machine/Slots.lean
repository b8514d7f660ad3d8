/-
# TacticEngine.Proofs.Machine.Slots -- the slots of a heap, and who mentions them.

Code mentions the slots of its constants, and a suspended computation the slot for its value.  Slots can
be ranked so that whoever waits for a slot ranks above all that the computation for it may look at: a
suspended computation mentions only slots of lower rank than its own, and so does what is put into a slot.
So no computation waits for itself.

A heap is tidy for a ranking if it holds no suspended computations and if what it holds respects the ranks.
A run that starts from slots below some rank keeps the heap tidy and all that is in it, and it leaves the
slots from this rank on alone (`growsAt`).  So a slot that is to be filled is filled once.
-/
import Mathlib.Algebra.Order.Field.Basic
import Mathlib.Algebra.Order.Field.Rat
import TacticEngine.Proofs.Machine.Source
import TacticEngine.Proofs.Run.Outcome

namespace TacticEngine.Machine

variable {β σ α γ : Type}

/-! ## Ranks -/

/-- The ranks of the slots of a heap.  Between any two ranks there is room for another one. -/
abbrev Ranks := List ℚ

/-- The slot has a rank below the bound. -/
def Ranks.Below (R : Ranks) (c : ℚ) (slot : Nat) : Prop := ∃ q, R[slot]? = some q ∧ q < c

theorem getElem?_extend {xs ys : List α} (h : xs <+: ys) {i : Nat} {a : α}
    (ha : xs[i]? = some a) : ys[i]? = some a := by
  obtain ⟨zs, rfl⟩ := h
  rw [List.getElem?_append_left (List.getElem?_eq_some_iff.mp ha).1, ha]

theorem Ranks.Below.mono {R R' : Ranks} (hR : R <+: R') {c c' : ℚ} (hc : c ≤ c') {slot : Nat}
    (h : R.Below c slot) : R'.Below c' slot := by
  obtain ⟨q, hq, hlt⟩ := h
  exact ⟨q, getElem?_extend hR hq, lt_of_lt_of_le hlt hc⟩

mutual
/-- All slots in the code rank below the bound. -/
def Code.Below (R : Ranks) (c : ℚ) : Code β σ → Prop
  | .const _ slot => R.Below c slot
  | .app h args => h.Below R c ∧ Delayed.AllBelow R c args
  | .lam _ _ body => body.Below R c
  | .case s brs => s.Below R c ∧ Code.BranchesBelow R c brs
  | _ => True

/-- All slots in the arguments rank below the bound. -/
def Delayed.AllBelow (R : Ranks) (c : ℚ) : List (Delayed β σ) → Prop
  | [] => True
  | .thunk _ code :: ds => code.Below R c ∧ Delayed.AllBelow R c ds
  | _ :: ds => Delayed.AllBelow R c ds

/-- All slots in the branches rank below the bound. -/
def Code.BranchesBelow (R : Ranks) (c : ℚ) : List (Branch (Term β σ × Code β σ)) → Prop
  | [] => True
  | ⟨_, (_, code)⟩ :: brs => code.Below R c ∧ Code.BranchesBelow R c brs
end

mutual
/-- All slots in the value rank below the bound, and those in its suspended computations below the slots
of these. -/
def Value.Below (R : Ranks) (c : ℚ) : Value β σ → Prop
  | .ctor _ args => Value.AllBelow R c args
  | .lam _ _ body frame held => body.Below R c ∧ Value.AllBelow R c frame ∧ Value.AllBelow R c held
  | .step _ _ held => Value.AllBelow R c held
  | .neutral _ args => Value.AllBelow R c args
  | .stuck s _ frame args => s.Below R c ∧ Value.AllBelow R c frame ∧ Value.AllBelow R c args
  | .thunk slot _ frame code? => ∃ q, R[slot]? = some q ∧ q < c ∧ Value.AllBelow R q frame ∧
      ∀ code, code? = some code → code.Below R q
  | .lit _ | .blob _ => True

/-- All slots in the values rank below the bound. -/
def Value.AllBelow (R : Ranks) (c : ℚ) : List (Value β σ) → Prop
  | [] => True
  | v :: vs => v.Below R c ∧ Value.AllBelow R c vs
end

theorem Value.allBelow_iff {R : Ranks} {c : ℚ} {vs : List (Value β σ)} :
    Value.AllBelow R c vs ↔ ∀ v ∈ vs, v.Below R c := by
  induction vs with
  | nil => simp [Value.AllBelow]
  | cons v vs ih => simp [Value.AllBelow, ih]

/-! ### More slots, higher bounds -/

section

variable {R R' : Ranks}

mutual
theorem Code.Below.mono (hR : R <+: R') {c c' : ℚ} (hc : c ≤ c') :
    ∀ {code : Code β σ}, code.Below R c → code.Below R' c'
  | .const _ _, h => Ranks.Below.mono hR hc h
  | .app _ _, h => by
      simp only [Code.Below] at h ⊢
      exact ⟨h.1.mono hR hc, Delayed.AllBelow.mono hR hc h.2⟩
  | .lam _ _ _, h => by
      simp only [Code.Below] at h ⊢
      exact h.mono hR hc
  | .case _ _, h => by
      simp only [Code.Below] at h ⊢
      exact ⟨h.1.mono hR hc, Code.BranchesBelow.mono hR hc h.2⟩
  | .var _, _ | .step _ _, _ | .ctor _, _ | .neutral _, _ | .lit _, _ | .blob _, _ => trivial

theorem Delayed.AllBelow.mono (hR : R <+: R') {c c' : ℚ} (hc : c ≤ c') :
    ∀ {ds : List (Delayed β σ)}, Delayed.AllBelow R c ds → Delayed.AllBelow R' c' ds
  | [], _ => trivial
  | .thunk _ _ :: _, h => ⟨h.1.mono hR hc, Delayed.AllBelow.mono hR hc h.2⟩
  | .var _ :: ds, h | .lit _ :: ds, h | .blob _ :: ds, h => by
      simp only [Delayed.AllBelow] at h ⊢
      exact Delayed.AllBelow.mono hR hc h

theorem Code.BranchesBelow.mono (hR : R <+: R') {c c' : ℚ} (hc : c ≤ c') :
    ∀ {brs : List (Branch (Term β σ × Code β σ))},
      Code.BranchesBelow R c brs → Code.BranchesBelow R' c' brs
  | [], _ => trivial
  | ⟨_, (_, _)⟩ :: _, h => ⟨h.1.mono hR hc, Code.BranchesBelow.mono hR hc h.2⟩
end

mutual
theorem Value.Below.mono (hR : R <+: R') {c c' : ℚ} (hc : c ≤ c') :
    ∀ {v : Value β σ}, v.Below R c → v.Below R' c'
  | .ctor _ _, h | .step _ _ _, h | .neutral _ _, h => by
      simp only [Value.Below] at h ⊢
      exact Value.AllBelow.mono hR hc h
  | .lam _ _ _ _ _, h => by
      simp only [Value.Below] at h ⊢
      exact ⟨h.1.mono hR hc, Value.AllBelow.mono hR hc h.2.1, Value.AllBelow.mono hR hc h.2.2⟩
  | .stuck _ _ _ _, h => by
      simp only [Value.Below] at h ⊢
      exact ⟨h.1.mono hR hc, Value.AllBelow.mono hR hc h.2.1, Value.AllBelow.mono hR hc h.2.2⟩
  | .thunk _ _ _ _, h => by
      simp only [Value.Below] at h ⊢
      obtain ⟨q, hq, hlt, hframe, hcode⟩ := h
      exact ⟨q, getElem?_extend hR hq, lt_of_lt_of_le hlt hc, hframe.mono hR le_rfl,
        fun code h => (hcode code h).mono hR le_rfl⟩
  | .lit _, _ | .blob _, _ => trivial

theorem Value.AllBelow.mono (hR : R <+: R') {c c' : ℚ} (hc : c ≤ c') :
    ∀ {vs : List (Value β σ)}, Value.AllBelow R c vs → Value.AllBelow R' c' vs
  | [], _ => trivial
  | _ :: _, h => ⟨h.1.mono hR hc, Value.AllBelow.mono hR hc h.2⟩
end

end

/-! ### Room below a bound -/

section

variable {R : Ranks} {c : ℚ}

/-- Of two bounds for two things, one is a bound for both. -/
theorem exists_lt_and {p q : ℚ → Prop} (hp : ∀ a b, a ≤ b → p a → p b)
    (hq : ∀ a b, a ≤ b → q a → q b) (h : ∃ d < c, p d) (h' : ∃ d < c, q d) :
    ∃ d < c, p d ∧ q d := by
  obtain ⟨d, hd, hpd⟩ := h
  obtain ⟨d', hd', hqd⟩ := h'
  exact ⟨max d d', max_lt hd hd', hp _ _ (le_max_left d d') hpd, hq _ _ (le_max_right d d') hqd⟩

theorem Ranks.Below.exists_lt {slot : Nat} (h : R.Below c slot) : ∃ d < c, R.Below d slot := by
  obtain ⟨q, hq, hlt⟩ := h
  obtain ⟨d, hqd, hdc⟩ := exists_between hlt
  exact ⟨d, hdc, q, hq, hqd⟩

mutual
theorem Code.Below.exists_lt : ∀ {code : Code β σ}, code.Below R c → ∃ d < c, code.Below R d
  | .const _ _, h => Ranks.Below.exists_lt h
  | .app _ _, h => by
      simp only [Code.Below] at h ⊢
      exact exists_lt_and (fun _ _ hab h => h.mono List.prefix_rfl hab)
        (fun _ _ hab h => h.mono List.prefix_rfl hab)
        h.1.exists_lt (Delayed.AllBelow.exists_lt h.2)
  | .lam _ _ _, h => by
      simp only [Code.Below] at h ⊢
      exact h.exists_lt
  | .case _ _, h => by
      simp only [Code.Below] at h ⊢
      exact exists_lt_and (fun _ _ hab h => h.mono List.prefix_rfl hab)
        (fun _ _ hab h => h.mono List.prefix_rfl hab)
        h.1.exists_lt (Code.BranchesBelow.exists_lt h.2)
  | .var _, _ | .step _ _, _ | .ctor _, _ | .neutral _, _ | .lit _, _ | .blob _, _ =>
      (exists_lt c).imp fun _ hd => ⟨hd, trivial⟩

theorem Delayed.AllBelow.exists_lt : ∀ {ds : List (Delayed β σ)},
    Delayed.AllBelow R c ds → ∃ d < c, Delayed.AllBelow R d ds
  | [], _ => (exists_lt c).imp fun _ hd => ⟨hd, trivial⟩
  | .thunk _ _ :: _, h =>
      exists_lt_and (fun _ _ hab h => h.mono List.prefix_rfl hab)
        (fun _ _ hab h => h.mono List.prefix_rfl hab)
        h.1.exists_lt (Delayed.AllBelow.exists_lt h.2)
  | .var _ :: ds, h | .lit _ :: ds, h | .blob _ :: ds, h => by
      simp only [Delayed.AllBelow] at h ⊢
      exact Delayed.AllBelow.exists_lt h

theorem Code.BranchesBelow.exists_lt : ∀ {brs : List (Branch (Term β σ × Code β σ))},
    Code.BranchesBelow R c brs → ∃ d < c, Code.BranchesBelow R d brs
  | [], _ => (exists_lt c).imp fun _ hd => ⟨hd, trivial⟩
  | ⟨_, (_, _)⟩ :: _, h =>
      exists_lt_and (fun _ _ hab h => h.mono List.prefix_rfl hab)
        (fun _ _ hab h => h.mono List.prefix_rfl hab)
        h.1.exists_lt (Code.BranchesBelow.exists_lt h.2)
end

mutual
theorem Value.Below.exists_lt : ∀ {v : Value β σ}, v.Below R c → ∃ d < c, v.Below R d
  | .ctor _ _, h | .step _ _ _, h | .neutral _ _, h => by
      simp only [Value.Below] at h ⊢
      exact Value.AllBelow.exists_lt h
  | .lam _ _ _ _ _, h | .stuck _ _ _ _, h => by
      simp only [Value.Below] at h ⊢
      have hlists := exists_lt_and (fun _ _ hab h => h.mono List.prefix_rfl hab)
        (fun _ _ hab h => h.mono List.prefix_rfl hab) h.2.1.exists_lt h.2.2.exists_lt
      exact exists_lt_and (fun _ _ hab h => h.mono List.prefix_rfl hab)
        (fun _ _ hab h => ⟨h.1.mono List.prefix_rfl hab, h.2.mono List.prefix_rfl hab⟩)
        h.1.exists_lt hlists
  | .thunk _ _ _ _, h => by
      simp only [Value.Below] at h ⊢
      obtain ⟨q, hq, hlt, hrest⟩ := h
      obtain ⟨d, hqd, hdc⟩ := exists_between hlt
      exact ⟨d, hdc, q, hq, hqd, hrest⟩
  | .lit _, _ | .blob _, _ => (exists_lt c).imp fun _ hd => ⟨hd, trivial⟩

theorem Value.AllBelow.exists_lt : ∀ {vs : List (Value β σ)},
    Value.AllBelow R c vs → ∃ d < c, Value.AllBelow R d vs
  | [], _ => (exists_lt c).imp fun _ hd => ⟨hd, trivial⟩
  | _ :: _, h =>
      exists_lt_and (fun _ _ hab h => h.mono List.prefix_rfl hab)
        (fun _ _ hab h => h.mono List.prefix_rfl hab) h.1.exists_lt h.2.exists_lt
end

end

/-! ### Parts of values -/

section

variable {R : Ranks} {c : ℚ}

/-- The arguments of a value mention no other slots than the value. -/
theorem Value.Below.args {v : Value β σ} (h : v.Below R c) : ∀ a ∈ v.args, a.Below R c := by
  cases v with
  | ctor _ _ => exact Value.allBelow_iff.mp h
  | lam _ _ _ _ _ => exact Value.allBelow_iff.mp h.2.2
  | step _ _ _ => exact Value.allBelow_iff.mp h
  | neutral _ _ => exact Value.allBelow_iff.mp h
  | stuck _ _ _ _ => exact Value.allBelow_iff.mp h.2.2
  | lit | blob | thunk => simp [Value.args]

/-- A branch that is chosen and what it binds mention no other slots than all branches and the value. -/
theorem select_below {v : Value β σ} (hv : v.Below R c) :
    ∀ {brs : List (Branch (Term β σ × Code β σ))} {src : Term β σ} {code : Code β σ}
      {bound : List (Value β σ)}, Code.BranchesBelow R c brs →
      select v brs = some ((src, code), bound) → code.Below R c ∧ ∀ a ∈ bound, a.Below R c
  | ⟨.wild, (_, _)⟩ :: _, _, _, _, hbrs, h => by
      cases h
      exact ⟨hbrs.1, by simp⟩
  | ⟨.var, (_, _)⟩ :: _, _, _, _, hbrs, h => by
      cases h
      exact ⟨hbrs.1, by simpa using hv⟩
  | ⟨.lit l, (_, _)⟩ :: brs, _, _, _, hbrs, h => by
      cases v with
      | lit l' =>
          rw [select] at h
          split at h
          · cases h
            exact ⟨hbrs.1, by simp⟩
          · exact select_below hv hbrs.2 h
      | _ => cases h
  | ⟨.ctor c n, (_, _)⟩ :: brs, _, _, _, hbrs, h => by
      cases v with
      | ctor c' args =>
          rw [select] at h
          split at h
          · cases h
            exact ⟨hbrs.1, Value.allBelow_iff.mp hv⟩
          · exact select_below hv hbrs.2 h
      | _ => cases h

end

/-! ## Slots that compiling takes -/

/-- Something takes slots, which may be given any rank. -/
def Takes (P : Ranks → ℚ → α → Prop) (m : Slots α) : Prop := ∀ (R : Ranks) (d c : ℚ), d < c →
  ∃ k, (m R.length).2 = R.length + k ∧ P (R ++ List.replicate k d) c (m R.length).1

theorem Takes.pure {P : Ranks → ℚ → α → Prop} {a : α} (h : ∀ R c, P R c a) : Takes P (Pure.pure a) :=
  fun R _ c _ => ⟨0, rfl, (List.append_nil R).symm ▸ h R c⟩

theorem Takes.bind {P : Ranks → ℚ → α → Prop} {Q : Ranks → ℚ → γ → Prop} {m : Slots α}
    {f : α → Slots γ} (hm : Takes P m)
    (hf : ∀ a, Takes (fun R c b => (∃ R', R' <+: R ∧ P R' c a) → Q R c b) (f a)) :
    Takes Q (m >>= f) := by
  intro R d c hd
  obtain ⟨k, hk, ha⟩ := hm R d c hd
  obtain ⟨j, hj, hb⟩ := hf (m R.length).1 (R ++ List.replicate k d) d c hd
  have hlen : (R ++ List.replicate k d).length = (m R.length).2 := by
    rw [hk, List.length_append, List.length_replicate]
  have hrun : (m >>= f) R.length = f (m R.length).1 (R ++ List.replicate k d).length := by
    rw [hlen]
    rfl
  rw [hrun]
  refine ⟨k + j, by rw [hj, hlen, hk, Nat.add_assoc], ?_⟩
  rw [← List.replicate_append_replicate, ← List.append_assoc]
  exact hb ⟨_, List.prefix_append _ _, ha⟩

mutual
theorem compile_takes (steps : StepTable σ) : ∀ t : Term β σ,
    Takes (fun R c code => code.Below R c) (compile steps t)
  | .const c => by
      rw [compile]
      cases steps.lookup c with
      | some s => exact .pure fun _ _ => trivial
      | none => exact fun R d c hd => ⟨1, rfl, d, List.getElem?_concat_length, hd⟩
  | .app h as => by
      rw [compile]
      refine (compile_takes steps h).bind fun code => ?_
      refine (delayAll_takes steps as).bind fun ds => .pure ?_
      rintro R c ⟨R', hR, hds⟩ ⟨R'', hR', hcode⟩
      exact ⟨hcode.mono hR' le_rfl, Delayed.AllBelow.mono hR le_rfl hds⟩
  | .lam n b => by
      rw [compile]
      refine (compile_takes steps b).bind fun code => .pure ?_
      rintro R c ⟨R', hR, hcode⟩
      exact hcode.mono hR le_rfl
  | .case s brs => by
      rw [compile]
      refine (compile_takes steps s).bind fun code => ?_
      refine (compileBranches_takes steps brs).bind fun cs => .pure ?_
      rintro R c ⟨R', hR, hcs⟩ ⟨R'', hR', hcode⟩
      exact ⟨hcode.mono hR' le_rfl, Code.BranchesBelow.mono hR le_rfl hcs⟩
  | .ascribed e _ => by
      rw [compile]
      exact compile_takes steps e
  | .annotated e _ => by
      rw [compile]
      exact compile_takes steps e
  | .reify e => by
      rw [compile]
      exact compile_takes steps e
  | .bvar _ | .ctor _ | .free _ | .uvar _ | .lit _ | .blob _ | .native _ => by
      rw [compile]
      exact .pure fun _ _ => trivial

theorem delayAll_takes (steps : StepTable σ) : ∀ as : List (Term β σ),
    Takes (fun R c ds => Delayed.AllBelow R c ds) (delayAll steps as)
  | [] => by
      rw [delayAll]
      exact .pure fun _ _ => trivial
  | a :: as => by
      have hrest := delayAll_takes steps as
      have hthunk : Takes (fun R c (ds : List (Delayed β σ)) => Delayed.AllBelow R c ds) (do
          let code ← compile steps a
          let as ← delayAll steps as
          return .thunk a code :: as) := by
        refine (compile_takes steps a).bind fun code => hrest.bind fun ds => .pure ?_
        rintro R c ⟨R', hR, hds⟩ ⟨R'', hR', hcode⟩
        exact ⟨hcode.mono hR' le_rfl, Delayed.AllBelow.mono hR le_rfl hds⟩
      cases a with
      | bvar | lit | blob =>
          rw [delayAll]
          refine hrest.bind fun ds => .pure ?_
          rintro R c ⟨R', hR, hds⟩
          exact Delayed.AllBelow.mono hR le_rfl hds
      | _ =>
          rw [delayAll]
          · exact hthunk
          all_goals simp

theorem compileBranches_takes (steps : StepTable σ) : ∀ brs : List (Branch (Term β σ)),
    Takes (fun R c cs => Code.BranchesBelow R c cs) (compileBranches steps brs)
  | [] => by
      rw [compileBranches]
      exact .pure fun _ _ => trivial
  | ⟨_, b⟩ :: brs => by
      rw [compileBranches]
      refine (compile_takes steps b).bind fun code => ?_
      refine (compileBranches_takes steps brs).bind fun cs => .pure ?_
      rintro R c ⟨R', hR, hcs⟩ ⟨R'', hR', hcode⟩
      exact ⟨hcode.mono hR' le_rfl, Code.BranchesBelow.mono hR le_rfl hcs⟩
end

/-! ## Heaps that grow -/

/-- What the one heap has, the other one has as well. -/
structure Heap.Le (h h' : Heap β σ) : Prop where
  size : h.slots.size ≤ h'.slots.size
  read : ∀ {i v}, h.read i = some v → h'.read i = some v

theorem Heap.Le.refl (h : Heap β σ) : h.Le h := ⟨Nat.le_refl _, id⟩

theorem Heap.Le.trans {h h' h'' : Heap β σ} (hle : h.Le h') (hle' : h'.Le h'') : h.Le h'' :=
  ⟨Nat.le_trans hle.size hle'.size, fun hr => hle'.read (hle.read hr)⟩

/-- The slots of the heap have ranks, and what is in a slot is not suspended and mentions slots of lower
rank only. -/
structure Heap.Tidy (R : Ranks) (h : Heap β σ) : Prop where
  size : h.slots.size = R.length
  read : ∀ {i v}, h.read i = some v →
    v.isThunk = false ∧ ∃ q, R[i]? = some q ∧ v.Below R q

theorem Heap.tidy_empty : ({} : Heap β σ).Tidy [] where
  size := rfl
  read h := by
    rw [Heap.read_empty] at h
    cases h

/-- A tidy heap with more slots, all of them empty. -/
theorem Heap.Tidy.reserve {R : Ranks} {h : Heap β σ} (hs : h.Tidy R) {m : Slots α} {k : Nat}
    (hk : (m R.length).2 = R.length + k) (d : ℚ) :
    (h.reserve m).2.Tidy (R ++ List.replicate k d) ∧ h.Le (h.reserve m).2 := by
  have hsize : (h.reserve m).2.slots.size = R.length + k := by
    rw [Heap.size_reserve, hs.size, hk]
    omega
  refine ⟨⟨?_, fun {i v} hr => ?_⟩, ?_, fun hr => (Heap.read_reserve m h _).trans hr⟩
  · rw [hsize, List.length_append, List.length_replicate]
  · rw [Heap.read_reserve] at hr
    obtain ⟨hforced, q, hq, hv⟩ := hs.read hr
    have hR := List.prefix_append R (List.replicate k d)
    exact ⟨hforced, q, getElem?_extend hR hq, hv.mono hR le_rfl⟩
  · rw [hsize, hs.size]
    exact Nat.le_add_right _ _

/-- From a tidy heap the evaluation goes to a tidy one that has all that it had.  Slots from the bound on
are left alone.  A value that the evaluation gives has the property, together with the ranks that there
are then. -/
def Grows (R : Ranks) (c : ℚ) (m : Eval β σ α) (P : Ranks → α → Prop) : Prop :=
  ∀ s, s.heap.Tidy R → ∃ R', R <+: R' ∧ (final (m s)).heap.Tidy R' ∧ s.heap.Le (final (m s)).heap ∧
    (∀ {i q}, R[i]? = some q → c ≤ q → (final (m s)).heap.read i = s.heap.read i) ∧
    ∀ a s', m s = .ok a s' → P R' a

namespace Grows

variable {R : Ranks} {c : ℚ} {P : Ranks → α → Prop} {Q : Ranks → γ → Prop} {m : Eval β σ α}

theorem pure {a : α} (h : P R a) : Grows R c (Pure.pure a : Eval β σ α) P := by
  refine fun s hs => ⟨R, List.prefix_rfl, hs, .refl _, fun _ _ => rfl, fun b s' hr => ?_⟩
  cases hr
  exact h

theorem throw {e : Halt β} : Grows R c (MonadExcept.throw e : Eval β σ α) P :=
  fun _ hs => ⟨R, List.prefix_rfl, hs, .refl _, fun _ _ => rfl, nofun⟩

theorem bind {f : α → Eval β σ γ} (hm : Grows R c m P)
    (hf : ∀ R' a, R <+: R' → P R' a → Grows R' c (f a) Q) : Grows R c (m >>= f) Q := by
  intro s hs
  obtain ⟨R', hR, htidy, hle, halone, ha⟩ := hm s hs
  cases hr : m s with
  | ok a s' =>
      rw [run_bind_ok hr]
      rw [hr] at htidy hle halone
      obtain ⟨R'', hR', htidy', hle', halone', hb⟩ := hf R' a hR (ha a s' hr) s' htidy
      refine ⟨R'', hR.trans hR', htidy', hle.trans hle', fun hi hc => ?_, hb⟩
      exact (halone' (getElem?_extend hR hi) hc).trans (halone hi hc)
  | error e s' =>
      rw [run_bind_error hr]
      rw [hr] at htidy hle halone
      exact ⟨R', hR, htidy, hle, halone, nofun⟩

theorem imp {P' : Ranks → α → Prop} (hm : Grows R c m P)
    (h : ∀ R' a, R <+: R' → P R' a → P' R' a) : Grows R c m P' := by
  intro s hs
  obtain ⟨R', hR, htidy, hle, halone, ha⟩ := hm s hs
  exact ⟨R', hR, htidy, hle, halone, fun a s' hr => h _ a hR (ha a s' hr)⟩

/-- A run that stays below a bound stays below a higher one. -/
theorem raise {d : ℚ} (hm : Grows R d m P) (hd : d ≤ c) : Grows R c m P := by
  intro s hs
  obtain ⟨R', hR, htidy, hle, halone, ha⟩ := hm s hs
  exact ⟨R', hR, htidy, hle, fun hi hc => halone hi (hd.trans hc), ha⟩

theorem inWorld {act : Act β σ α} {V : α → Prop} (h : ∀ w a w', act w = .ok a w' → V a) :
    Grows R c (Machine.inWorld act : Eval β σ α) fun _ a => V a := by
  rintro ⟨heap, w⟩ hs
  rw [inWorld_run]
  cases hr : act w with
  | ok a w' =>
      refine ⟨R, List.prefix_rfl, hs, .refl _, fun _ _ => rfl, fun b s' heq => ?_⟩
      cases heq
      exact h w a w' hr
  | error e w' => exact ⟨R, List.prefix_rfl, hs, .refl _, fun _ _ => rfl, nofun⟩

theorem reserve {m : Slots α} {V : Ranks → ℚ → α → Prop} (h : Takes V m) :
    Grows R c (inHeap (·.reserve m) : Eval β σ α) fun R' a => V R' c a := by
  rintro ⟨heap, w⟩ hs
  obtain ⟨d, hd⟩ := exists_lt c
  obtain ⟨k, hk, ha⟩ := h R d c hd
  obtain ⟨htidy, hle⟩ := hs.reserve hk d
  rw [inHeap_run]
  refine ⟨_, List.prefix_append R _, htidy, hle, fun _ _ => Heap.read_reserve m heap _, ?_⟩
  rintro a s' ⟨⟩
  rwa [Heap.reserve_eq, hs.size]

/-- A slot of a given rank. -/
theorem newSlot (d : ℚ) :
    Grows R c (inHeap (·.reserve Machine.newSlot) : Eval β σ Nat) fun R' slot => R'[slot]? = some d := by
  rintro ⟨heap, w⟩ hs
  obtain ⟨htidy, hle⟩ := hs.reserve (m := Machine.newSlot) (k := 1) rfl d
  rw [inHeap_run]
  refine ⟨_, List.prefix_append R _, htidy, hle, fun _ _ => Heap.read_reserve Machine.newSlot heap _, ?_⟩
  rintro a s' ⟨⟩
  rw [Heap.reserve_eq, hs.size]
  exact List.getElem?_concat_length

/-- Looking for a value before computing it. -/
theorem orElse {slot : Nat} {m : Eval β σ (Value β σ)} {P : Ranks → Value β σ → Prop}
    (hread : ∀ v q, R[slot]? = some q → v.Below R q → v.isThunk = false → P R v)
    (hm : Grows R c m P) :
    Grows R c (do
      match (← get).heap.read slot with
      | some v => Pure.pure v
      | none => m) P := by
  intro s hs
  have hget : (get : Eval β σ (Memory β σ)) s = .ok s s := rfl
  rw [run_bind_ok hget]
  cases hv : s.heap.read slot with
  | some v =>
      obtain ⟨hforced, q, hq, hbelow⟩ := hs.read hv
      exact pure (hread v q hq hbelow hforced) s hs
  | none => exact hm s hs

theorem fill {slot : Nat} {q : ℚ} {v : Value β σ} (hslot : R[slot]? = some q) (hq : q < c)
    (hv : v.Below R q) (hforced : v.isThunk = false) :
    Grows R c (inHeap (·.fill slot v) : Eval β σ (Value β σ))
      fun R' u => u.Below R' q ∧ u.isThunk = false := by
  rintro ⟨heap, w⟩ hs
  rw [inHeap_run]
  cases hr : heap.read slot with
  | some old =>
      rw [Heap.fill_of_read hr]
      refine ⟨R, List.prefix_rfl, hs, .refl _, fun _ _ => rfl, ?_⟩
      rintro a s' ⟨⟩
      obtain ⟨hold, q', hq', hbelow⟩ := hs.read hr
      obtain rfl : q = q' := Option.some.inj (hslot.symm.trans hq')
      exact ⟨hbelow, hold⟩
  | none =>
      have hread (i : Nat) : (heap.fill slot v).2.read i = if i = slot ∧ slot < heap.slots.size
          then some v else heap.read i := Heap.read_fill_of_none hr v i
      have hsize : (heap.fill slot v).2.slots.size = heap.slots.size := Heap.size_fill slot v heap
      rw [Heap.fill_fst_of_none hr]
      refine ⟨R, List.prefix_rfl, ⟨hsize.trans hs.size, fun {i u} hu => ?_⟩,
        ⟨hsize.ge, fun {i u} hu => ?_⟩, fun {i q'} hi hc => ?_, ?_⟩
      · rw [final, hread] at hu
        split at hu
        next heq =>
          cases hu
          exact ⟨hforced, q, heq.1 ▸ hslot, hv⟩
        next => exact hs.read hu
      · show (heap.fill slot v).2.read i = some u
        rw [hread, if_neg, hu]
        rintro ⟨rfl, -⟩
        rw [hr] at hu
        cases hu
      · show (heap.fill slot v).2.read i = heap.read i
        rw [hread, if_neg]
        rintro ⟨rfl, -⟩
        obtain rfl : q = q' := Option.some.inj (hslot.symm.trans hi)
        exact absurd hq (not_lt_of_ge hc)
      · rintro a s' ⟨⟩
        exact ⟨hv, hforced⟩

theorem mapM {δ : Type} {f : δ → Eval β σ α} {V : Ranks → δ → Prop}
    (hmono : ∀ R R' d, R <+: R' → V R d → V R' d) (hmono' : ∀ R R' a, R <+: R' → P R a → P R' a)
    (hf : ∀ R d, V R d → Grows R c (f d) P) : ∀ {R : Ranks} {ds : List δ}, (∀ d ∈ ds, V R d) →
      Grows R c (ds.mapM f) fun R' as => ∀ a ∈ as, P R' a
  | R, [], _ => by
      rw [List.mapM_nil]
      exact pure (by simp)
  | R, d :: ds, hds => by
      obtain ⟨hd, hds⟩ := List.forall_mem_cons.mp hds
      rw [List.mapM_cons]
      refine (hf R d hd).bind fun R₁ a hR ha => ?_
      have hds₁ : ∀ d ∈ ds, V R₁ d := fun d' hd' => hmono R R₁ d' hR (hds d' hd')
      refine (mapM hmono hmono' hf hds₁).bind fun R₂ as hR' has => ?_
      exact pure (List.forall_mem_cons.mpr ⟨hmono' _ _ a hR' ha, has⟩)

end Grows

/-! ## The machine -/

/-- Do what a suspended computation puts off. -/
def evaluate (cfg : Setting β σ) (n : Nat) (src : Term β σ) (frame : List (Value β σ)) :
    Option (Code β σ) → Eval β σ (Value β σ)
  | some code => run cfg n code frame
  | none => do
    let code ← inHeap (·.reserve (compile cfg.steps src))
    run cfg n code frame

theorem force_thunk (cfg : Setting β σ) (n slot : Nat) (src : Term β σ) (frame : List (Value β σ))
    (code? : Option (Code β σ)) : force cfg (n + 1) (.thunk slot src frame code?) = (do
      match (← get).heap.read slot with
      | some v => pure v
      | none => do
        let v ← evaluate cfg n src frame code?
        inHeap (·.fill slot v)) := by
  rw [force]
  cases code? <;> rfl

/-- What steps do to values brings in no slots that the values do not mention. -/
def Setting.Slotless (cfg : Setting β σ) : Prop :=
  ∀ {body f vs w v w'}, cfg.direct body = some f → f vs w = .ok (some v) w' →
    ∀ R c, (∀ a ∈ vs, a.Below R c) → v.Below R c

/-- A value that is not suspended, with all slots below the bound. -/
def Settled (c : ℚ) (R : Ranks) (v : Value β σ) : Prop := v.Below R c ∧ v.isThunk = false

/-- With a given amount of fuel, the machine keeps a heap tidy, and what is in it, and it leaves alone
what ranks above all that it works on. -/
structure GrowsAt (cfg : Setting β σ) (n : Nat) : Prop where
  run : ∀ {R c code frame}, code.Below R c → (∀ f ∈ frame, f.Below R c) →
    Grows R c (Machine.run cfg n code frame) (Settled c)
  unfold : ∀ {R c name}, Grows R c (Machine.unfold cfg n name) (Settled c)
  force : ∀ {R c v}, v.Below R c → Grows R c (Machine.force cfg n v) (Settled c)
  apply : ∀ {R c f args}, f.Below R c → (∀ a ∈ args, a.Below R c) →
    Grows R c (Machine.apply cfg n f args) (Settled c)
  applyForced : ∀ {R c f args}, f.Below R c → (∀ a ∈ args, a.Below R c) →
    Grows R c (Machine.applyForced cfg n f args) (Settled c)
  applyRest : ∀ {R c v rest}, Settled c R v → (∀ a ∈ rest, a.Below R c) →
    Grows R c (Machine.applyRest cfg n v rest) (Settled c)
  readback : ∀ {R c v}, v.Below R c → Grows R c (Machine.readback cfg n v) fun _ _ => True

section

variable {cfg : Setting β σ} {R R' : Ranks} {c : ℚ} {n : Nat}

theorem Settled.raise {d : ℚ} {v : Value β σ} (hv : Settled d R v) (hd : d ≤ c) : Settled c R v :=
  ⟨hv.1.mono List.prefix_rfl hd, hv.2⟩

theorem mono_all (hR : R <+: R') {vs : List (Value β σ)} (h : ∀ v ∈ vs, v.Below R c) :
    ∀ v ∈ vs, v.Below R' c := fun v hv => (h v hv).mono hR le_rfl

theorem grows_lookup {frame : List (Value β σ)} (hframe : ∀ f ∈ frame, f.Below R c) (i : Nat) :
    Grows R c (lookup frame i) fun R' v => v.Below R' c := by
  unfold lookup
  cases hi : frame[i]? with
  | none => exact .throw
  | some v => exact .pure (hframe v (List.mem_of_getElem? hi))

theorem grows_delayed {frame : List (Value β σ)} (hframe : ∀ f ∈ frame, f.Below R c) :
    ∀ {ds : List (Delayed β σ)}, Delayed.AllBelow R c ds →
      Grows R c (ds.mapM (delayed frame)) fun R' vs => ∀ v ∈ vs, v.Below R' c := by
  intro ds hds
  have hone (R : Ranks) (d : Delayed β σ)
      (hd : (∀ f ∈ frame, f.Below R c) ∧ Delayed.AllBelow R c [d]) :
      Grows R c (delayed frame d) fun R' v => v.Below R' c := by
    obtain ⟨hframe, hd⟩ := hd
    cases d with
    | var i => exact grows_lookup hframe i
    | lit | blob => exact .pure trivial
    | thunk src code =>
        -- the new slot ranks above all that the suspended computation mentions
        obtain ⟨q, hq, hcode, hframe⟩ := exists_lt_and
          (fun _ _ hab (h : code.Below R _) => h.mono List.prefix_rfl hab)
          (fun _ _ hab h => h.mono List.prefix_rfl hab)
          hd.1.exists_lt (Value.allBelow_iff.mpr hframe).exists_lt
        refine (Grows.newSlot q).bind fun R₁ slot hR hslot => .pure ?_
        refine ⟨q, hslot, hq, hframe.mono hR le_rfl, ?_⟩
        rintro _ ⟨⟩
        exact hcode.mono hR le_rfl
  have hall : ∀ {ds : List (Delayed β σ)}, Delayed.AllBelow R c ds →
      ∀ d ∈ ds, Delayed.AllBelow R c [d] := by
    intro ds hds
    induction ds with
    | nil => simp
    | cons d ds ih =>
        have hds' : Delayed.AllBelow R c [d] ∧ Delayed.AllBelow R c ds := by
          cases d with
          | thunk => exact ⟨⟨hds.1, trivial⟩, hds.2⟩
          | _ => exact ⟨trivial, hds⟩
        exact List.forall_mem_cons.mpr ⟨hds'.1, ih hds'.2⟩
  exact Grows.mapM (fun _ _ _ hR hd => ⟨mono_all hR hd.1, Delayed.AllBelow.mono hR le_rfl hd.2⟩)
    (fun _ _ _ hR hv => hv.mono hR le_rfl) hone fun d hd => ⟨hframe, hall hds d hd⟩

theorem grows_ofTerm (t : Term β σ) : Grows R c (ofTerm t) fun R' v => v.Below R' c := by
  have hthunk : Grows R c ((inHeap (·.reserve newSlot) : Eval β σ Nat) >>= fun slot =>
      Pure.pure (Value.thunk slot t [] none)) fun R' v => v.Below R' c := by
    obtain ⟨d, hd⟩ := exists_lt c
    exact (Grows.newSlot d).bind fun R₁ slot _ hslot => .pure ⟨d, hslot, hd, trivial, nofun⟩
  cases t with
  | lit | blob => exact .pure trivial
  | _ => exact hthunk

variable (ih : GrowsAt cfg n)

include ih

theorem GrowsAt.readbacks {vs : List (Value β σ)} (hvs : ∀ v ∈ vs, v.Below R c) :
    Grows R c (vs.mapM (Machine.readback cfg n)) fun _ _ => True :=
  (Grows.mapM (V := fun R v => v.Below R c) (P := fun _ _ => True)
    (fun _ _ _ hR hv => hv.mono hR le_rfl) (fun _ _ _ _ _ => trivial)
    (fun _ _ hv => ih.readback hv) hvs).imp fun _ _ _ _ => trivial

theorem GrowsAt.readback_succ {v : Value β σ} (hv : v.Below R c) :
    Grows R c (Machine.readback cfg (n + 1) v) fun _ _ => True := by
  rw [Machine.readback_succ]
  refine (ih.force hv).bind fun R₁ u _ hu => ?_
  rw [hu.2]
  refine (Grows.inWorld (V := fun _ => True) fun _ _ _ _ => trivial).bind fun R₂ h hR _ => ?_
  exact (ih.readbacks (mono_all hR hu.1.args)).bind fun R₃ ts _ _ => .pure trivial

theorem GrowsAt.fire (hcfg : cfg.Slotless) (s : Step σ) {args : List (Value β σ)}
    (hargs : ∀ a ∈ args, a.Below R c) :
    Grows R c (Machine.fire cfg (Machine.readback cfg n) s args)
      fun R' r => ∀ v, r = some v → v.Below R' c := by
  rw [Machine.fire]
  cases hd : cfg.direct s.body with
  | some f =>
      refine (Grows.inWorld (V := fun r => ∀ v, r = some v → v.Below R c) ?_).imp ?_
      · rintro w _ w' hr v rfl
        exact hcfg hd hr R c hargs
      · exact fun R' r hR hr v hv => (hr v hv).mono hR le_rfl
  | none =>
      refine (ih.readbacks hargs).bind fun R₁ ts _ _ => ?_
      refine (Grows.inWorld (V := fun _ => True) fun _ _ _ _ => trivial).bind fun R₂ _ _ _ => ?_
      refine (Grows.inWorld (V := fun _ => True) fun _ _ _ _ => trivial).bind fun R₃ r _ _ => ?_
      cases r with
      | none => exact .pure (by simp)
      | some t => exact (grows_ofTerm t).bind fun R₄ v _ hv => .pure (by rintro _ ⟨⟩; exact hv)

theorem GrowsAt.applyForced_succ (hcfg : cfg.Slotless) {f : Value β σ} {args : List (Value β σ)}
    (hf : f.Below R c) (hargs : ∀ a ∈ args, a.Below R c) :
    Grows R c (Machine.applyForced cfg (n + 1) f args) (Settled c) := by
  have happend {vs : List (Value β σ)} (hvs : Value.AllBelow R c vs) :
      ∀ v ∈ vs ++ args, v.Below R c :=
    List.forall_mem_append.mpr ⟨Value.allBelow_iff.mp hvs, hargs⟩
  cases f with
  | lam arity src body frame held =>
      rw [Machine.applyForced]
      simp only [Value.Below] at hf
      have hall := happend hf.2.2
      by_cases hfew : (held ++ args).length < arity
      · rw [if_pos hfew]
        exact .pure ⟨⟨hf.1, hf.2.1, Value.allBelow_iff.mpr hall⟩, rfl⟩
      rw [if_neg hfew]
      have hframe : ∀ v ∈ ((held ++ args).take arity).reverse ++ frame, v.Below R c :=
        List.forall_mem_append.mpr ⟨fun v hv => hall v (List.mem_of_mem_take (List.mem_reverse.mp hv)),
          Value.allBelow_iff.mp hf.2.1⟩
      refine (ih.run hf.1 hframe).bind fun R₁ v hR hv => ?_
      exact ih.applyRest hv (mono_all hR fun v hv => hall v (List.mem_of_mem_drop hv))
  | step t s held =>
      rw [Machine.applyForced]
      have hall := happend hf
      by_cases hfew : (held ++ args).length < s.arity
      · rw [if_pos hfew]
        exact .pure ⟨Value.allBelow_iff.mpr hall, rfl⟩
      rw [if_neg hfew]
      have hnow : ∀ v ∈ (held ++ args).take s.arity, v.Below R c :=
        fun v hv => hall v (List.mem_of_mem_take hv)
      have hlater : ∀ v ∈ (held ++ args).drop s.arity, v.Below R c :=
        fun v hv => hall v (List.mem_of_mem_drop hv)
      refine (ih.fire hcfg s hnow).bind fun R₁ r hR hr => ?_
      cases r with
      | some v =>
          refine (ih.force (hr v rfl)).bind fun R₂ u hR' hu => ?_
          exact ih.applyRest hu (mono_all (hR.trans hR') hlater)
      | none =>
          refine (ih.readbacks (mono_all hR hnow)).bind fun R₂ ts hR' _ => .pure ⟨?_, rfl⟩
          exact Value.allBelow_iff.mpr (mono_all (hR.trans hR') hlater)
  | ctor | neutral =>
      rw [Machine.applyForced]
      exact .pure ⟨Value.allBelow_iff.mpr (happend hf), rfl⟩
  | stuck s brs frame held =>
      rw [Machine.applyForced]
      simp only [Value.Below] at hf
      exact .pure ⟨⟨hf.1, hf.2.1, Value.allBelow_iff.mpr (happend hf.2.2)⟩, rfl⟩
  | lit | blob =>
      rw [Machine.applyForced]
      cases args with
      | nil => exact .pure ⟨trivial, rfl⟩
      | cons a as => exact .pure ⟨Value.allBelow_iff.mpr hargs, rfl⟩
  | thunk slot src frame code? =>
      rw [Machine.applyForced]
      refine (ih.force hf).bind fun R₁ v hR hv => ?_
      exact ih.applyRest hv (mono_all hR hargs)

/-- Evaluating a suspended computation stays below the rank of its slot. -/
theorem GrowsAt.evaluate (src : Term β σ) {frame : List (Value β σ)} {code? : Option (Code β σ)}
    {q : ℚ} (hframe : Value.AllBelow R q frame) (hcode : ∀ code, code? = some code → code.Below R q) :
    Grows R q (Machine.evaluate cfg n src frame code?) (Settled q) := by
  have hframe := Value.allBelow_iff.mp hframe
  cases code? with
  | some code => exact ih.run (hcode code rfl) hframe
  | none => exact (Grows.reserve (compile_takes cfg.steps src)).bind fun R₁ code hR hcode =>
      ih.run hcode (mono_all hR hframe)

theorem GrowsAt.force_succ {v : Value β σ} (hv : v.Below R c) :
    Grows R c (Machine.force cfg (n + 1) v) (Settled c) := by
  cases hv' : v.isThunk with
  | false =>
      rw [Machine.force_of_forced hv']
      exact .pure ⟨hv, hv'⟩
  | true =>
      cases v with
      | thunk slot src frame code? =>
          simp only [Value.Below] at hv
          obtain ⟨q, hslot, hq, hframe, hcode⟩ := hv
          rw [force_thunk]
          refine .orElse (fun v q' hq' hv hforced => ?_) ?_
          · obtain rfl : q = q' := Option.some.inj (hslot.symm.trans hq')
            exact Settled.raise ⟨hv, hforced⟩ hq.le
          refine ((ih.evaluate src hframe hcode).raise hq.le).bind fun R₁ u hR hu => ?_
          exact (Grows.fill (getElem?_extend hR hslot) hq hu.1 hu.2).imp fun _ _ _ h =>
            Settled.raise h hq.le
      | _ => cases hv'

theorem GrowsAt.run_succ {code : Code β σ} {frame : List (Value β σ)} (hcode : code.Below R c)
    (hframe : ∀ f ∈ frame, f.Below R c) :
    Grows R c (Machine.run cfg (n + 1) code frame) (Settled c) := by
  cases code with
  | var i =>
      rw [Machine.run]
      exact (grows_lookup hframe i).bind fun R₁ v _ hv => ih.force hv
  | const name slot =>
      rw [Machine.run]
      obtain ⟨q, hslot, hq⟩ := hcode
      refine .orElse (fun v q' hq' hv hforced => ?_) ?_
      · obtain rfl : q = q' := Option.some.inj (hslot.symm.trans hq')
        exact Settled.raise ⟨hv, hforced⟩ hq.le
      refine (ih.unfold (c := q)).raise hq.le |>.bind fun R₁ v hR hv => ?_
      exact (Grows.fill (getElem?_extend hR hslot) hq hv.1 hv.2).imp fun _ _ _ h =>
        Settled.raise h hq.le
  | step t s =>
      rw [Machine.run]
      exact ih.apply trivial (by simp)
  | ctor | neutral | lit | blob =>
      rw [Machine.run]
      exact .pure ⟨trivial, rfl⟩
  | app h args =>
      rw [Machine.run]
      simp only [Code.Below] at hcode
      refine (ih.run hcode.1 hframe).bind fun R₁ f hR hf => ?_
      refine (grows_delayed (mono_all hR hframe) (Delayed.AllBelow.mono hR le_rfl hcode.2)).bind
        fun R₂ vs hR' hvs => ?_
      exact ih.apply (hf.1.mono hR' le_rfl) hvs
  | lam arity src body =>
      rw [Machine.run]
      exact .pure ⟨⟨hcode, Value.allBelow_iff.mpr hframe, trivial⟩, rfl⟩
  | case s brs =>
      rw [Machine.run]
      simp only [Code.Below] at hcode
      refine (ih.run hcode.1 hframe).bind fun R₁ v hR hv => ?_
      cases hsel : select v brs with
      | some p =>
          obtain ⟨⟨src, body⟩, bound⟩ := p
          obtain ⟨hbody, hbound⟩ :=
            select_below hv.1 (Code.BranchesBelow.mono hR le_rfl hcode.2) hsel
          refine ih.run hbody (List.forall_mem_append.mpr ⟨fun v hv => ?_, mono_all hR hframe⟩)
          exact hbound v (List.mem_reverse.mp hv)
      | none => exact .pure ⟨⟨hv.1, Value.allBelow_iff.mpr (mono_all hR hframe), trivial⟩, rfl⟩

end

/-- The machine keeps a heap tidy, and what is in it. -/
theorem growsAt {cfg : Setting β σ} (hcfg : cfg.Slotless) (n : Nat) : GrowsAt cfg n := by
  induction n with
  | zero =>
      constructor
      all_goals
        intros
        exact .throw
  | succ n ih =>
      exact {
        run := ih.run_succ
        unfold := by
          intro R c name
          rw [Machine.unfold]
          cases cfg.env.unfoldable name with
          | none => exact .pure ⟨trivial, rfl⟩
          | some body =>
              exact (Grows.reserve (compile_takes cfg.steps body)).bind fun R₁ code _ hcode =>
                ih.run hcode (by simp)
        force := ih.force_succ
        apply := by
          intro R c f args hf hargs
          rw [Machine.apply]
          exact (ih.force hf).bind fun R₁ u hR hu => ih.applyForced hu.1 (mono_all hR hargs)
        applyForced := ih.applyForced_succ hcfg
        applyRest := by
          intro R c v rest hv hrest
          rw [Machine.applyRest]
          cases rest with
          | nil => exact .pure hv
          | cons a as => exact ih.applyForced hv.1 hrest
        readback := ih.readback_succ }

end TacticEngine.Machine
