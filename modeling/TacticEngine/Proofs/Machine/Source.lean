/-
# TacticEngine.Proofs.Machine.Source -- the terms that values stand for.

`source` puts the term of a value together without caring about the range of indices.  Where the
bounded `source?` has a result, it is this term.

Every value is a head applied to arguments, and so is its source.  Reading back is one thing for all
values that are not suspended: the head is put together within the range of indices, and the arguments
are read back one after the other.
-/
import TacticEngine.Machine.Eval
import TacticEngine.Proofs.Likeness.Value
import TacticEngine.Proofs.Machine.Heap
import TacticEngine.Proofs.Term.Closed

namespace TacticEngine

variable {β σ : Type}

namespace Term

/-! ## Instantiation under a head -/

/-- `instantiate` on each argument. -/
def instantiateArgs (c : Nat) (vals : List (Term β σ)) (as : List (Term β σ)) :
    List (Term β σ) := as.map (·.instantiate c vals)

/-- `instantiate` on the body of each branch, under the variables that its pattern binds. -/
def instantiateBranches (vals : List (Term β σ)) (brs : List (Branch (Term β σ))) :
    List (Branch (Term β σ)) :=
  brs.map fun br => ⟨br.pat, br.body.instantiate br.pat.binders vals⟩

theorem instantiate_app {h : Term β σ} {as : List (Term β σ)} (hc : (app h as).Canonical)
    (c : Nat) (vals : List (Term β σ)) :
    (app h as).instantiate c vals = (h.instantiate c vals).apps (instantiateArgs c vals as) := by
  have hmap : ∀ bs, mapFreeArgs (instantiateVar vals) c bs =
      bs.map (mapFree (instantiateVar vals) c) := by
    intro bs
    induction bs with
    | nil => rfl
    | cons b bs ih => rw [mapFreeArgs, ih, List.map_cons]
  unfold instantiateArgs
  by_cases hvals : vals = []
  · subst hvals
    have hid : (fun a : Term β σ => a.instantiate c []) = id := rfl
    rw [instantiate_nil, instantiate_nil, hid, List.map_id]
    exact (apps_of_not_isApp hc.1 hc.2.1).symm
  · have hinst : (fun a : Term β σ => a.instantiate c vals) = mapFree (instantiateVar vals) c :=
      funext fun a => instantiate_of_ne_nil hvals a c
    rw [hinst, instantiate_of_ne_nil hvals, instantiate_of_ne_nil hvals, mapFree, hmap]

theorem instantiate_lam {n : Nat} (hn : 0 < n) (b : Term β σ) (vals : List (Term β σ)) :
    (lam n b).instantiate 0 vals = .lam n (b.instantiate n vals) := by
  by_cases hvals : vals = []
  · subst hvals
    rfl
  · obtain ⟨n, rfl⟩ := Nat.exists_eq_succ_of_ne_zero (Nat.pos_iff_ne_zero.mp hn)
    rw [instantiate_of_ne_nil hvals, instantiate_of_ne_nil hvals, mapFree, Nat.zero_add]
    rfl

theorem instantiate_ascribed (e t : Term β σ) (vals : List (Term β σ)) :
    (ascribed e t).instantiate 0 vals = .ascribed (e.instantiate 0 vals) (t.instantiate 0 vals) := by
  by_cases hvals : vals = []
  · subst hvals
    rfl
  · simp only [instantiate_of_ne_nil hvals, mapFree]

theorem instantiate_annotated (e : Term β σ) (n : Annotation) (vals : List (Term β σ)) :
    (annotated e n).instantiate 0 vals = .annotated (e.instantiate 0 vals) n := by
  by_cases hvals : vals = []
  · subst hvals
    rfl
  · simp only [instantiate_of_ne_nil hvals, mapFree]

theorem instantiate_reify (e : Term β σ) (vals : List (Term β σ)) :
    (reify e).instantiate 0 vals = .reify (e.instantiate 0 vals) := by
  by_cases hvals : vals = []
  · subst hvals
    rfl
  · simp only [instantiate_of_ne_nil hvals, mapFree]

theorem instantiate_case (s : Term β σ) (brs : List (Branch (Term β σ)))
    (vals : List (Term β σ)) :
    (Term.case s brs).instantiate 0 vals =
      .case (s.instantiate 0 vals) (instantiateBranches vals brs) := by
  unfold instantiateBranches
  by_cases hvals : vals = []
  · subst hvals
    have hid : (fun br : Branch (Term β σ) =>
        (⟨br.pat, br.body.instantiate br.pat.binders []⟩ : Branch (Term β σ))) = id := rfl
    rw [instantiate_nil, instantiate_nil, hid, List.map_id]
  · have hmap : ∀ bs, mapFreeBranches (instantiateVar vals) 0 bs =
        bs.map fun br => ⟨br.pat, br.body.instantiate br.pat.binders vals⟩ := by
      intro bs
      induction bs with
      | nil => rfl
      | cons b bs ih =>
          rw [mapFreeBranches, ih, List.map_cons, instantiate_of_ne_nil hvals, Nat.zero_add]
    rw [instantiate_of_ne_nil hvals, instantiate_of_ne_nil hvals, mapFree, hmap]

/-- The value of a variable takes its place as it is. -/
theorem instantiate_bvar {vals : List (Term β σ)} {i : Nat} {t : Term β σ}
    (h : vals[i]? = some t) : (bvar i).instantiate 0 vals = t := by
  have hne : vals ≠ [] := by
    rintro rfl
    cases h
  rw [instantiate_of_ne_nil hne, mapFree, if_pos (Nat.zero_le i), instantiateVar, Nat.sub_zero, h]
  rfl

end Term

namespace Machine

open Term (instantiateBranches)

/-! ## Sources -/

mutual
/-- The term that a value stands for. -/
def Value.source : Value β σ → Term β σ
  | .ctor c args => (Term.ctor c).apps (sources args)
  | .lit l => .lit l
  | .blob b => .blob b
  | .lam _ src _ frame held => (src.instantiate 0 (sources frame)).apps (sources held)
  | .step t _ held => t.apps (sources held)
  | .neutral t args => t.apps (sources args)
  | .stuck s brs frame args =>
    (Term.case s.source (instantiateBranches (sources frame) brs)).apps (sources args)
  | .thunk _ src frame _ => src.instantiate 0 (sources frame)

/-- The terms that values stand for. -/
def sources : List (Value β σ) → List (Term β σ)
  | [] => []
  | v :: vs => v.source :: sources vs
end

theorem sources_eq_map (vs : List (Value β σ)) : sources vs = vs.map Value.source := by
  induction vs with
  | nil => rfl
  | cons v vs ih => rw [sources, ih, List.map_cons]

@[simp]
theorem length_sources (vs : List (Value β σ)) : (sources vs).length = vs.length := by
  rw [sources_eq_map, List.length_map]

theorem sources_append (vs ws : List (Value β σ)) : sources (vs ++ ws) = sources vs ++ sources ws := by
  simp only [sources_eq_map, List.map_append]

theorem sources_take (n : Nat) (vs : List (Value β σ)) : sources (vs.take n) = (sources vs).take n := by
  simp only [sources_eq_map, List.map_take]

theorem sources_drop (n : Nat) (vs : List (Value β σ)) : sources (vs.drop n) = (sources vs).drop n := by
  simp only [sources_eq_map, List.map_drop]

theorem sources_reverse (vs : List (Value β σ)) : sources vs.reverse = (sources vs).reverse := by
  simp only [sources_eq_map, List.map_reverse]

theorem sources_eq_nil_iff {vs : List (Value β σ)} : sources vs = [] ↔ vs = [] := by
  rw [sources_eq_map, List.map_eq_nil_iff]

theorem mem_sources {vs : List (Value β σ)} {t : Term β σ} :
    t ∈ sources vs ↔ ∃ v ∈ vs, v.source = t := by
  rw [sources_eq_map, List.mem_map]

/-- A variable stands for the source of its value. -/
theorem instantiate_lookup {frame : List (Value β σ)} {i : Nat} {v : Value β σ}
    (h : frame[i]? = some v) : (Term.bvar i).instantiate 0 (sources frame) = v.source :=
  Term.instantiate_bvar (by rw [sources_eq_map, List.getElem?_map, h]; rfl)

/-! ## Within the range of indices -/

theorem instantiateBranches_of_substituteBranches? {ts : List (Term β σ)} :
    ∀ {brs ds : List (Branch (Term β σ))}, substituteBranches? ts brs = some ds →
      ds = instantiateBranches ts brs
  | [], ds, h => (Option.some.inj h).symm
  | ⟨p, b⟩ :: brs, ds, h => by
      simp only [substituteBranches?, Option.bind_eq_bind, Option.bind_eq_some_iff,
        Option.pure_def, Option.some.injEq] at h
      obtain ⟨b', hb, ds', hds, rfl⟩ := h
      rw [Term.instantiate_of_instantiate? hb, instantiateBranches_of_substituteBranches? hds]
      rfl

mutual
theorem source_of_source? : ∀ {v : Value β σ} {t : Term β σ}, v.source? = some t → t = v.source
  | .ctor c args, t, h => by
      simp only [Value.source?, Option.bind_eq_bind, Option.bind_eq_some_iff, Option.pure_def,
        Option.some.injEq] at h
      obtain ⟨ts, hts, rfl⟩ := h
      rw [sources_of_sources? hts, Value.source]
  | .lit l, t, h => (Option.some.inj h).symm
  | .blob b, t, h => (Option.some.inj h).symm
  | .lam n src code frame held, t, h => by
      simp only [Value.source?, Option.bind_eq_bind, Option.bind_eq_some_iff, Option.pure_def,
        Option.some.injEq] at h
      obtain ⟨fs, hfs, f, hf, ts, hts, rfl⟩ := h
      rw [sources_of_sources? hfs] at hf
      rw [Term.instantiate_of_instantiate? hf, sources_of_sources? hts, Value.source]
  | .step u s held, t, h => by
      simp only [Value.source?, Option.bind_eq_bind, Option.bind_eq_some_iff, Option.pure_def,
        Option.some.injEq] at h
      obtain ⟨ts, hts, rfl⟩ := h
      rw [sources_of_sources? hts, Value.source]
  | .neutral u args, t, h => by
      simp only [Value.source?, Option.bind_eq_bind, Option.bind_eq_some_iff, Option.pure_def,
        Option.some.injEq] at h
      obtain ⟨ts, hts, rfl⟩ := h
      rw [sources_of_sources? hts, Value.source]
  | .stuck s brs frame args, t, h => by
      obtain ⟨u, hu, h⟩ := Option.bind_eq_some_iff.mp h
      have hrest : ∀ fs, (∀ ds, substituteBranches? fs brs = some ds →
          ds = instantiateBranches (sources frame) brs) →
          ((substituteBranches? fs brs).bind fun ds => (sources? args).bind fun ts =>
            some ((Term.case u ds).apps ts)) = some t → t = (Value.stuck s brs frame args).source := by
        intro fs hfs h
        simp only [Option.bind_eq_some_iff, Option.some.injEq] at h
        obtain ⟨ds, hds, ts, hts, rfl⟩ := h
        rw [source_of_source? hu, hfs ds hds, sources_of_sources? hts, Value.source]
      dsimp only at h
      split at h
      next hnil =>
        obtain rfl := List.isEmpty_iff.mp hnil
        exact hrest [] (fun ds hds => (Option.some.inj hds).symm) h
      next =>
        obtain ⟨fs, hfs, h⟩ := Option.bind_eq_some_iff.mp h
        refine hrest fs (fun ds hds => ?_) h
        rw [instantiateBranches_of_substituteBranches? hds, sources_of_sources? hfs]
  | .thunk slot src frame code, t, h => by
      simp only [Value.source?, Option.bind_eq_bind, Option.bind_eq_some_iff] at h
      obtain ⟨fs, hfs, h⟩ := h
      rw [sources_of_sources? hfs] at h
      rw [Term.instantiate_of_instantiate? h, Value.source]

theorem sources_of_sources? : ∀ {vs : List (Value β σ)} {ts : List (Term β σ)},
    sources? vs = some ts → ts = sources vs
  | [], ts, h => (Option.some.inj h).symm
  | v :: vs, ts, h => by
      simp only [sources?, Option.bind_eq_bind, Option.bind_eq_some_iff, Option.pure_def,
        Option.some.injEq] at h
      obtain ⟨t, ht, us, hus, rfl⟩ := h
      rw [source_of_source? ht, sources_of_sources? hus, sources]
end

/-! ## Heads and arguments -/

/-- What a value applies to its arguments. -/
def Value.head : Value β σ → Term β σ
  | .ctor c _ => .ctor c
  | .lit l => .lit l
  | .blob b => .blob b
  | .lam _ src _ frame _ => src.instantiate 0 (sources frame)
  | .step t _ _ => t
  | .neutral t _ => t
  | .stuck s brs frame _ => .case s.source (instantiateBranches (sources frame) brs)
  | .thunk _ src frame _ => src.instantiate 0 (sources frame)

/-- The arguments that a value has got. -/
def Value.args : Value β σ → List (Value β σ)
  | .ctor _ args => args
  | .lam _ _ _ _ held => held
  | .step _ _ held => held
  | .neutral _ args => args
  | .stuck _ _ _ args => args
  | .lit _ | .blob _ | .thunk .. => []

theorem Value.source_eq (v : Value β σ) : v.source = v.head.apps (sources v.args) := by
  cases v with
  | lit | blob | thunk => rw [Value.args, sources, Term.apps_nil, Value.source, Value.head]
  | _ => rw [Value.source, Value.head, Value.args]

/-- Functions wait for arguments; any other value only collects them. -/
def Value.isFunction : Value β σ → Bool
  | .lam .. | .step .. => true
  | _ => false

/-- The head of a value, within the range of indices. -/
def Value.head? : Value β σ → Option (Term β σ)
  | .lam _ src _ frame _ => do src.instantiate? 0 (← sources? frame)
  | .stuck s brs frame _ => (Value.stuck s brs frame []).source?
  | v => some v.head

theorem Value.head_of_head? {v : Value β σ} {h : Term β σ} (hv : v.head? = some h) :
    h = v.head := by
  cases v with
  | lam n src code frame held =>
      simp only [Value.head?, Option.bind_eq_bind, Option.bind_eq_some_iff] at hv
      obtain ⟨fs, hfs, hv⟩ := hv
      rw [sources_of_sources? hfs] at hv
      rw [Term.instantiate_of_instantiate? hv, Value.head]
  | stuck s brs frame args =>
      rw [source_of_source? hv, Value.source, sources, Term.apps_nil, Value.head]
  | _ => exact (Option.some.inj hv).symm

/-- A value that is not suspended is its own. -/
theorem force_of_forced {cfg : Setting β σ} {n : Nat} {v : Value β σ} (hv : v.isThunk = false) :
    force cfg (n + 1) v = pure v := by
  cases v with
  | thunk => cases hv
  | _ =>
      rw [force]
      simp

theorem apply_of_forced {cfg : Setting β σ} {n : Nat} {f : Value β σ} (hf : f.isThunk = false)
    (args : List (Value β σ)) : apply cfg (n + 2) f args = applyForced cfg (n + 1) f args := by
  rw [apply, force_of_forced hf, pure_bind]

theorem applyRest_nil {cfg : Setting β σ} {n : Nat} (v : Value β σ) :
    applyRest cfg (n + 1) v [] = pure v := by
  rw [applyRest, List.isEmpty_nil, if_pos rfl]

theorem applyRest_cons {cfg : Setting β σ} {n : Nat} (v u : Value β σ) (us : List (Value β σ)) :
    applyRest cfg (n + 1) v (u :: us) = applyForced cfg n v (u :: us) := by
  rw [applyRest, List.isEmpty_cons, if_neg Bool.false_ne_true]

/-- Reading back puts the arguments, read back one after the other, behind the head. -/
theorem readback_succ (cfg : Setting β σ) (n : Nat) (v : Value β σ) :
    readback cfg (n + 1) v = force cfg n v >>= fun u =>
      if u.isThunk then throw (.issue (.internal none "forcing left a thunk"))
      else bounded u.head? >>= fun h =>
        u.args.mapM (readback cfg n) >>= fun ts => pure (h.apps ts) := by
  rw [readback]
  congr 1
  funext u
  cases u with
  | lit l => rfl
  | blob b => rfl
  | _ => rfl

end Machine

end TacticEngine
