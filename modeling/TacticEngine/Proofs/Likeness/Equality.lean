/-
# TacticEngine.Proofs.Likeness.Equality -- equality as a likeness.

If native values have to be equal and nothing else is asked for, then terms, code and values are alike
exactly if they are equal.
-/
import TacticEngine.Proofs.Likeness.Reduction
import TacticEngine.Proofs.Likeness.Self
import TacticEngine.Proofs.Likeness.Value
import TacticEngine.Proofs.Run.Acts

namespace TacticEngine

variable {β σ : Type}

/-- Terms are alike if they are equal. -/
def Likeness.equal (β σ : Type) : Likeness β σ where
  closed := False
  canonical := False
  const _ := True
  blob := Eq
  step := Eq

theorem Likeness.equal_strict : (Likeness.equal β σ).Strict := ⟨id, id⟩

theorem Term.alike_equal (k : Nat) (t : Term β σ) : (Likeness.equal β σ).Alike k t t := by
  refine alike_self False.elim False.elim fun u _ => ?_
  cases u <;> trivial

theorem Term.alikeArgs_equal (k : Nat) (as : List (Term β σ)) :
    (Likeness.equal β σ).AlikeArgs k as as :=
  alikeArgs_iff_forall₂.mpr (List.forall₂_same.mpr fun a _ => alike_equal k a)

theorem Term.alikeBranches_equal (k : Nat) (brs : List (Branch (Term β σ))) :
    (Likeness.equal β σ).AlikeBranches k brs brs := by
  induction brs with
  | nil => exact .nil
  | cons br brs ih =>
      obtain ⟨p, b⟩ := br
      exact .cons (alike_equal _ b) ih

/-! ## Runs that last -/

theorem fair_of_strict {L : Likeness β σ} (hL : L.Strict) : (Tie.same β σ).Fair L where
  exhausted _ := rfl
  overflow := .inr rfl
  fired := by
    rintro w _ s s' ts ts' rfl hs hts
    rw [hL.step_eq hs, hts.eq hL]
    rfl
  debug level text := (Lasts.const _).imp fun _ _ _ => trivial

theorem keepsArity_of_strict {L : Likeness β σ} (hL : L.Strict) : L.KeepsArity := by
  intro s s' hs
  rw [hL.step_eq hs]
  exact ⟨rfl, rfl⟩

theorem fair_same : (Tie.same β σ).Fair (Likeness.equal β σ) := fair_of_strict Likeness.equal_strict

theorem keepsArity_equal : (Likeness.equal β σ).KeepsArity := keepsArity_of_strict Likeness.equal_strict

theorem rel_self {γ : Type} {R : γ → γ → Prop} (hR : ∀ a, R a a) (a? : Option γ) :
    Option.Rel R a? a? := by
  cases a? with
  | none => exact .none
  | some a => exact .some (hR a)

namespace Machine

/-! ## Code and values -/

section

variable {L : Likeness β σ} {plain : String → Prop}

mutual
theorem Code.Alike.eq (hL : L.Strict) : ∀ {k : Nat} {c c' : Code β σ},
    Code.Alike L plain k c c' → c = c'
  | _, _, _, .var _ | _, _, _, .const _ | _, _, _, .ctor | _, _, _, .lit => rfl
  | _, _, _, .step ht hs => by rw [ht.eq hL, hL.step_eq hs]
  | _, _, _, .neutral ht => by rw [ht.eq hL]
  | _, _, _, .blob hb => by rw [hL.blob_eq hb]
  | _, _, _, .app h has => by rw [h.eq hL, has.eq hL]
  | _, _, _, .lam ht h => by rw [ht.eq hL, h.eq hL]
  | _, _, _, .case h hbrs => by rw [h.eq hL, hbrs.eq hL]

theorem Delayed.Alike.eq (hL : L.Strict) : ∀ {k : Nat} {d d' : Delayed β σ},
    Delayed.Alike L plain k d d' → d = d'
  | _, _, _, .var _ | _, _, _, .lit => rfl
  | _, _, _, .blob hb => by rw [hL.blob_eq hb]
  | _, _, _, .thunk ht h => by rw [ht.eq hL, h.eq hL]

theorem Delayed.AlikeArgs.eq (hL : L.Strict) : ∀ {k : Nat} {ds ds' : List (Delayed β σ)},
    Delayed.AlikeArgs L plain k ds ds' → ds = ds'
  | _, _, _, .nil => rfl
  | _, _, _, .cons h hds => by rw [h.eq hL, hds.eq hL]

theorem Code.AlikeBranches.eq (hL : L.Strict) : ∀ {k : Nat}
    {brs brs' : List (Branch (Term β σ × Code β σ))},
    Code.AlikeBranches L plain k brs brs' → brs = brs'
  | _, _, _, .nil => rfl
  | _, _, _, .cons ht h hbrs => by rw [ht.eq hL, h.eq hL, hbrs.eq hL]
end

mutual
theorem Value.Alike.eq (hL : L.Strict) : ∀ {v v' : Value β σ},
    Value.Alike L plain v v' → v = v'
  | _, _, .ctor h => by rw [h.eq hL]
  | _, _, .lit => rfl
  | _, _, .blob h => by rw [hL.blob_eq h]
  | _, _, .lam ht hc hfs hvs => by rw [ht.eq hL, hc.eq hL, hfs.eq hL, hvs.eq hL]
  | _, _, .step ht hs hvs => by rw [ht.eq hL, hL.step_eq hs, hvs.eq hL]
  | _, _, .neutral ht hvs => by rw [ht.eq hL, hvs.eq hL]
  | _, _, .stuck hs hbrs hfs hvs => by rw [hs.eq hL, hbrs.eq hL, hfs.eq hL, hvs.eq hL]
  | _, _, .unknown ht hfs => by rw [ht.eq hL, hfs.eq hL]
  | _, _, .thunk ht hfs hc => by rw [ht.eq hL, hfs.eq hL, hc.eq hL]

theorem Value.AlikeArgs.eq (hL : L.Strict) : ∀ {vs vs' : List (Value β σ)},
    Value.AlikeArgs L plain vs vs' → vs = vs'
  | _, _, .nil => rfl
  | _, _, .cons h hvs => by rw [h.eq hL, hvs.eq hL]
end

end

mutual
theorem Code.alike_equal : ∀ (k : Nat) (c : Code β σ),
    Code.Alike (Likeness.equal β σ) (fun _ => True) k c c
  | _, .var _ => .var False.elim
  | _, .const _ _ => .const trivial
  | _, .step t _ => .step (Term.alike_equal 0 t) rfl
  | _, .ctor _ => .ctor
  | _, .neutral t => .neutral (Term.alike_equal 0 t)
  | _, .lit _ => .lit
  | _, .blob _ => .blob rfl
  | k, .app h as => .app (Code.alike_equal k h) (Delayed.alikeArgs_equal k as)
  | k, .lam n t b => .lam (Term.alike_equal k t) (Code.alike_equal (k + n) b)
  | k, .case s brs => .case (Code.alike_equal k s) (Code.alikeBranches_equal k brs)

theorem Delayed.alike_equal : ∀ (k : Nat) (d : Delayed β σ),
    Delayed.Alike (Likeness.equal β σ) (fun _ => True) k d d
  | _, .var _ => .var False.elim
  | _, .lit _ => .lit
  | _, .blob _ => .blob rfl
  | k, .thunk t c => .thunk (Term.alike_equal k t) (Code.alike_equal k c)

theorem Delayed.alikeArgs_equal : ∀ (k : Nat) (ds : List (Delayed β σ)),
    Delayed.AlikeArgs (Likeness.equal β σ) (fun _ => True) k ds ds
  | _, [] => .nil
  | k, d :: ds => .cons (Delayed.alike_equal k d) (Delayed.alikeArgs_equal k ds)

theorem Code.alikeBranches_equal : ∀ (k : Nat) (brs : List (Branch (Term β σ × Code β σ))),
    Code.AlikeBranches (Likeness.equal β σ) (fun _ => True) k brs brs
  | _, [] => .nil
  | k, ⟨p, (t, c)⟩ :: brs =>
      .cons (Term.alike_equal _ t) (Code.alike_equal (k + p.binders) c)
        (Code.alikeBranches_equal k brs)
end

mutual
theorem Value.alike_equal : ∀ v : Value β σ, Value.Alike (Likeness.equal β σ) (fun _ => True) v v
  | .ctor _ vs => .ctor (Value.alikeArgs_equal vs)
  | .lit _ => .lit
  | .blob _ => .blob rfl
  | .lam _ t c fs vs =>
      .lam (Term.alike_equal _ t) (Code.alike_equal _ c) (Value.alikeArgs_equal fs)
        (Value.alikeArgs_equal vs)
  | .step t _ vs => .step (Term.alike_equal 0 t) rfl (Value.alikeArgs_equal vs)
  | .neutral t vs => .neutral (Term.alike_equal 0 t) (Value.alikeArgs_equal vs)
  | .stuck s brs fs vs =>
      .stuck (Value.alike_equal s) (Term.alikeBranches_equal _ brs) (Value.alikeArgs_equal fs)
        (Value.alikeArgs_equal vs)
  | .thunk _ t fs none => .unknown (Term.alike_equal _ t) (Value.alikeArgs_equal fs)
  | .thunk _ t fs (some c) =>
      .thunk (Term.alike_equal _ t) (Value.alikeArgs_equal fs) (Code.alike_equal _ c)

theorem Value.alikeArgs_equal : ∀ vs : List (Value β σ),
    Value.AlikeArgs (Likeness.equal β σ) (fun _ => True) vs vs
  | [] => .nil
  | v :: vs => .cons (Value.alike_equal v) (Value.alikeArgs_equal vs)
end

end Machine

end TacticEngine
