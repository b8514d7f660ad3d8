/-
# TacticEngine.Proofs.Native.Encoding -- what values are written as stays as it is.

Values without terms of the object language in them are written as inert terms, and so are the outcomes
of native tactics that do not raise a term as an exception.  Neither evaluation changes such a term or
does anything else, so what was written before a reduction can be read after it.
-/
import TacticEngine.Native.Engine
import TacticEngine.Proofs.Machine.Inert
import TacticEngine.Proofs.Native.Failures
import TacticEngine.Proofs.Native.Persistence

namespace TacticEngine.Native

variable {κ : Type}

/-! ## Both evaluations -/

/-- Either evaluation leaves an inert term as it is, and the world too. -/
theorem evaluate_inert (host : Host κ) {t : Term κ} (ht : Term.Inert t) :
    ∃ N, ∀ n ≥ N, ∀ backend steps (env : Env κ) w,
      evaluate host n ⟨backend, steps, env, t, []⟩ w = .ok t w := by
  obtain ⟨N, hN⟩ := Reduce.norm_inert ht
  obtain ⟨M, hM⟩ := Machine.gives_readback ht
  refine ⟨max N M + 7, fun n hn backend steps env w => ?_⟩
  obtain ⟨n, rfl⟩ := Nat.exists_eq_add_of_le' (Nat.le_trans (Nat.le_add_left 1 (max N M + 6)) hn)
  cases backend with
  | reduce =>
      rw [evaluate, Term.apps_nil]
      exact hN n (by omega) _ w
  | compiled =>
      let cfg := machineSetting host (interp host n) steps env
      have hgives : Machine.Gives steps (fun _ => none) (applyCompiled cfg n t [])
          fun _ u => u = t := by
        refine .bind (Machine.gives_eval cfg ht (by omega)) fun P f _ hf => ?_
        refine .bind (V := fun _ vs => vs = []) (.pure rfl) ?_
        rintro Q _ hPQ rfl
        refine .bind (Machine.gives_apply_nil cfg (hf.1.mono hPQ) (by omega))
          fun R v _ hv => ?_
        exact hM n (by omega) cfg R v hv
      obtain ⟨_, h', _, -, -, hrun, rfl⟩ := hgives {} w Machine.Heap.keepsTo_empty
      show withHeap (applyCompiled cfg n _ []) w = _
      rw [withHeap_run, hrun, offHeap]

namespace Codec

/-! ## Encodings -/

/-- Codecs for native values and literals. -/
def Basic : Codec κ → Prop
  | unit | bool | int | size | string | state | goal | env => True
  | _ => False

theorem inert_encodeList {α : Type} {element : α → StateM Nat (Term κ)}
    (h : ∀ v n, Term.Inert (element v n).1) (vs : List α) (n : Nat) :
    Term.Inert (encodeList element vs n).1 := by
  induction vs generalizing n with
  | nil => exact .ctor Names.nil
  | cons v vs ih =>
      rw [encodeList_cons]
      refine .app _ (List.cons_ne_nil _ _) ?_
      simp only [List.forall_mem_cons, List.not_mem_nil, false_implies, implies_true, and_true]
      exact ⟨h v n, ih _⟩

/-- Values are written as inert terms. -/
theorem inert_encode {c : Codec κ} (hc : c.BuiltFrom Basic) (v : c.Val) (n : Nat) :
    Term.Inert (c.encode v n).1 := by
  induction hc generalizing n with
  | @basic c hc =>
      cases c with
      | unit | bool | int | size | string => exact .lit _
      | state | goal | env => exact .blob _
      | _ => exact hc.elim
  | list _ ih => exact inert_encodeList ih v n
  | option _ ih =>
      cases v with
      | none => exact .ctor _
      | some v =>
          refine .app _ (List.cons_ne_nil _ _) ?_
          rintro _ (_ | ⟨_, ⟨⟩⟩)
          exact ih v n
  | pair _ _ iha ihb =>
      refine .app _ (List.cons_ne_nil _ _) ?_
      simp only [List.forall_mem_cons, List.not_mem_nil, false_implies, implies_true, and_true]
      exact ⟨iha v.1 n, ihb v.2 _⟩

/-! ## Reading back -/

theorem decodeList_encodeList {α : Type} {read : Term κ → Option α}
    {write : α → StateM Nat (Term κ)} {vs : List α}
    (h : ∀ v ∈ vs, ∀ n, read (write v n).1 = some v) (n : Nat) :
    decodeList read (encodeList write vs n).1 = some vs := by
  induction vs generalizing n with
  | nil => rfl
  | cons v vs ih =>
      refine decodeList_eq_some_cons_iff.mpr ⟨_, _, rfl, h v List.mem_cons_self n, ?_⟩
      exact ih (fun u hu => h u (List.mem_cons_of_mem v hu)) _

/-- Values are read as they were written. -/
theorem decode_encode {c : Codec κ} (hc : c.BuiltFrom Basic) {v : c.Val} (hv : c.Fits v) (n : Nat) :
    c.decode (c.encode v n).1 = some v := by
  induction hc generalizing n with
  | @basic c hc =>
      cases c with
      | unit | bool | int | string | state | goal | env => rfl
      | size => exact ((decode_literal_eq_some_iff (c := size) trivial v n).mpr ⟨hv, .refl _⟩)
      | _ => exact hc.elim
  | list _ ih => exact decodeList_encodeList (fun v' hv' n => ih (hv v' hv') n) n
  | option _ ih =>
      cases v with
      | none => rfl
      | some v => exact decode_option_eq_some_some_iff.mpr ⟨_, rfl, ih (hv v rfl) n⟩
  | pair _ _ iha ihb =>
      exact decode_pair_eq_some_iff.mpr ⟨_, _, rfl, iha hv.1 n, ihb hv.2 _⟩

end Codec

/-! ## Outcomes -/

/-- The outcome can be written and read again: its value is in range, or its reason is not a term. -/
def Outcome.Passes (c : Codec κ) : Outcome κ c.Val → Prop
  | .success v _ => c.Fits v
  | .failed reason _ => Failure.IsNative reason

namespace Codec

theorem inert_encodeFailure {reason : Failure κ} (h : Failure.IsNative reason) (n : Nat) :
    Term.Inert (encodeFailure reason n).1 := by
  cases reason with
  | issue e => exact .blob _
  | message text =>
      refine .app _ (List.cons_ne_nil _ _) ?_
      rintro _ (_ | ⟨_, ⟨⟩⟩)
      exact .lit _
  | exception t => exact h.elim
  | foreign payload => exact .blob _

theorem inert_encode_failed (c : Codec κ) {reason : Failure κ} (h : Failure.IsNative reason)
    (s : ProofState κ) (n : Nat) : Term.Inert ((outcome c).encode (.failed reason s) n).1 := by
  refine .app _ (List.cons_ne_nil _ _) ?_
  simp only [List.forall_mem_cons, List.not_mem_nil, false_implies, implies_true, and_true]
  exact ⟨inert_encodeFailure h n, .blob _⟩

variable {c : Codec κ} {o : Outcome κ c.Val}

/-- Outcomes are written as inert terms. -/
theorem inert_encode_outcome (hc : c.BuiltFrom Basic) (ho : Outcome.Passes c o) (n : Nat) :
    Term.Inert ((outcome c).encode o n).1 := by
  cases o with
  | success v s =>
      refine .app _ (List.cons_ne_nil _ _) ?_
      simp only [List.forall_mem_cons, List.not_mem_nil, false_implies, implies_true, and_true]
      exact ⟨inert_encode hc v n, .blob _⟩
  | failed reason s => exact inert_encode_failed c ho s n

/-- Outcomes are read as they were written. -/
theorem decode_encode_outcome (hc : c.BuiltFrom Basic) (ho : Outcome.Passes c o) (n : Nat) :
    (outcome c).decode ((outcome c).encode o n).1 = some o := by
  cases o with
  | success v s =>
      exact decode_outcome_eq_some_success_iff.mpr ⟨_, _, rfl, decode_encode hc ho n, rfl⟩
  | failed reason s =>
      exact decode_outcome_eq_some_failed_iff.mpr
        ⟨_, _, rfl, decodeFailure_encodeFailure ho n, rfl⟩

/-! ## Arguments -/

/-- The sizes in values for several codecs are within their range. -/
def AllFit : (cs : List (Codec κ)) → Vals cs → Prop
  | [], _ => True
  | c :: cs, (v, vs) => c.Fits v ∧ AllFit cs vs

theorem encodeAll_cons (c : Codec κ) (cs : List (Codec κ)) (v : c.Val) (vs : Vals cs) (n : Nat) :
    (encodeAll (c :: cs) (v, vs) n).1 = (c.encode v n).1 :: (encodeAll cs vs (c.encode v n).2).1 :=
  rfl

variable {cs : List (Codec κ)}

theorem length_encodeAll (vs : Vals cs) (n : Nat) : (encodeAll cs vs n).1.length = cs.length := by
  induction cs generalizing n with
  | nil => rfl
  | cons c cs ih => rw [encodeAll_cons, List.length_cons, ih, List.length_cons]

theorem inert_encodeAll (hcs : ∀ c ∈ cs, c.BuiltFrom Basic) (vs : Vals cs) (n : Nat) :
    ∀ t ∈ (encodeAll cs vs n).1, Term.Inert t := by
  induction cs generalizing n with
  | nil => nofun
  | cons c cs ih =>
      rw [encodeAll_cons]
      refine List.forall_mem_cons.mpr ⟨inert_encode (hcs c List.mem_cons_self) vs.1 n, ?_⟩
      exact ih (fun d hd => hcs d (List.mem_cons_of_mem c hd)) vs.2 _

theorem decodeAll_encodeAll (hcs : ∀ c ∈ cs, c.BuiltFrom Basic) {vs : Vals cs}
    (hvs : AllFit cs vs) (n : Nat) : decodeAll cs (encodeAll cs vs n).1 = some vs := by
  induction cs generalizing n with
  | nil => rfl
  | cons c cs ih =>
      have hrest := ih (fun d hd => hcs d (List.mem_cons_of_mem c hd)) hvs.2 (c.encode vs.1 n).2
      rw [encodeAll_cons, decodeAll, decode_encode (hcs c List.mem_cons_self) hvs.1, hrest]
      rfl

/-- What a call is given is what was written. -/
theorem decodeCall_encodeAll (hcs : ∀ c ∈ cs, c.BuiltFrom Basic) {vs : Vals cs}
    (hvs : AllFit cs vs) (s : ProofState κ) (n m : Nat) :
    decodeCall cs ((encodeAll cs vs n).1 ++ [(embed .proofState (.state s) m).1]) =
      some (vs, s) := by
  rw [decodeCall, List.getLast?_concat]
  dsimp only
  rw [List.dropLast_concat, decodeAll_encodeAll hcs hvs]
  rfl

end Codec

end TacticEngine.Native
