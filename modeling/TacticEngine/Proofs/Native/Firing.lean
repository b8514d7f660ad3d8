/-
# TacticEngine.Proofs.Native.Firing -- a native step applied to data.

Applied to as many inert terms as it takes, a native step fires at once, in both evaluations and on
exactly these terms.  What it gives, if that is inert too, is the result of the evaluation; and however it
breaks off, the evaluation breaks off.  Nothing else happens before the step is entered but that the
firing is noted, and nothing at all happens afterwards.
-/
import TacticEngine.Proofs.Native.Encoding
import TacticEngine.Proofs.Run.Notes

namespace TacticEngine

variable {β σ : Type}

/-! ## Reducing the term itself -/

namespace Reduce

/-- The world in which a step that is fired on terms is entered. -/
def firedWorld (st : Step σ) (ts : List (Term β σ)) (w : World β σ) : World β σ :=
  (if w.debugging then w.logged ⟨.trace, "firing " ++ st.name ++ " on " ++ toString ts.length
      ++ " arguments"⟩ else w).noted (.fired st ts)

theorem notes_firedWorld (st : Step σ) (ts : List (Term β σ)) (w : World β σ) :
    w.Notes [.fired st ts] (firedWorld st ts w) := by
  unfold firedWorld
  split
  · exact (World.Notes.logged _ w).trans (.noted _ _)
  · exact .noted _ w

section

variable {st : Step σ} {ts : List (Term β σ)}

/-- A step is fired on inert terms as they are. -/
theorem fire_inert (hts : ∀ t ∈ ts, t.Inert) (harity : ts.length = st.arity) :
    ∃ N, ∀ n ≥ N, ∀ (cfg : Setting β σ) head w, fire cfg (norm cfg n) st head ts w =
      (cfg.interp st.body cfg.env ts >>= fun t? => match t? with
        | some t => pure (true, t.apps [])
        | none => pure (false, head.apps (ts ++ []))) (firedWorld st ts w) := by
  obtain ⟨N, hN⟩ := exists_bound fun t ht => norm_inert (hts t ht)
  refine ⟨N, fun n hn cfg head w => ?_⟩
  have hnow : ts.mapM (norm cfg n) w = .ok ts w :=
    mapM_run_self fun t ht => hN n hn t ht cfg w
  have hdebug := Act.debug_run .trace (fun _ => some ("firing " ++ st.name ++ " on "
    ++ toString ts.length ++ " arguments")) w
  rw [fire, ← harity, List.take_length, List.drop_length, run_bind_ok hnow, firedWorld]
  cases hw : w.debugging with
  | false =>
      rw [hw, if_neg Bool.false_ne_true] at hdebug
      rw [run_bind_ok hdebug]
      rfl
  | true =>
      rw [hw, if_pos rfl] at hdebug
      rw [run_bind_ok hdebug]
      rfl

/-- A term that is reduced to an inert one has that as its normal form. -/
theorem norm_of_whnf {cfg : Setting β σ} {n : Nat} {t t' : Term β σ} {w w' : World β σ}
    (h : whnf cfg n t w = .ok t' w') (ht' : t'.Inert) (hn : 2 ≤ n) :
    norm cfg (n + 1) t w = norm cfg (n + 1) t' w' := by
  rw [norm, norm, run_bind_ok h, run_bind_ok (whnf_inert ht' cfg hn w')]

/-- A native step applied to as many terms as it takes is fired. -/
theorem whnf_native_app {cfg : Setting β σ} (hflags : cfg.flags = .tactic) (hne : ts ≠ [])
    (harity : ts.length = st.arity) (n : Nat) (w : World β σ) :
    whnf cfg (n + 3) (.app (.native st) ts) w = (fire cfg (norm cfg (n + 1)) st (.native st) ts >>=
      fun r => match r with
        | (true, result) => whnf cfg (n + 1) result
        | (false, stuck) => pure stuck) w := by
  have hstep : stepOf cfg (.native st) = some st := by simp [stepOf, hflags, Flags.tactic]
  have hpos : st.arity ≠ 0 := harity ▸ fun h => hne (List.length_eq_zero_iff.mp h)
  have hhead : whnf cfg (n + 2) (.native st) w = .ok (.native st) w := by
    simp only [whnf, hstep, fireConstant, if_pos hpos]
    rfl
  rw [whnf, run_bind_ok hhead]
  unfold whnfApp
  dsimp only
  rw [hstep]
  dsimp only
  exact congrFun (if_pos (Nat.le_of_eq harity.symm)) w

/-- What a step gives, fired on inert terms, is the normal form of its application. -/
theorem norm_native_app (hts : ∀ t ∈ ts, t.Inert) (hne : ts ≠ []) (harity : ts.length = st.arity)
    {t : Term β σ} (ht : t.Inert) :
    ∃ N, ∀ n ≥ N, ∀ cfg : Setting β σ, cfg.flags = .tactic → ∀ w w',
      cfg.interp st.body cfg.env ts (firedWorld st ts w) = .ok (some t) w' →
        norm cfg n (.app (.native st) ts) w = .ok t w' := by
  obtain ⟨N, hN⟩ := fire_inert hts harity
  obtain ⟨M, hM⟩ := norm_inert ht
  refine ⟨max N M + 6, fun n hn cfg hflags w w' hinterp => ?_⟩
  obtain ⟨n, rfl⟩ := Nat.exists_eq_add_of_le' (Nat.le_trans (Nat.le_add_left 4 (max N M + 2)) hn)
  have hwhnf : whnf cfg (n + 3) (.app (.native st) ts) w = .ok t w' := by
    have hfire : fire cfg (norm cfg (n + 1)) st (.native st) ts w = .ok (true, t) w' := by
      rw [hN (n + 1) (by omega), run_bind_ok hinterp]
      dsimp only
      rw [Term.apps_nil]
      rfl
    rw [whnf_native_app hflags hne harity, run_bind_ok hfire]
    exact whnf_inert ht cfg (by omega) w'
  rw [norm_of_whnf hwhnf ht (by omega)]
  exact hM (n + 4) (by omega) cfg w'

/-- If the step breaks off, so does the application. -/
theorem norm_native_app_error (hts : ∀ t ∈ ts, t.Inert) (hne : ts ≠ [])
    (harity : ts.length = st.arity) :
    ∃ N, ∀ n ≥ N, ∀ cfg : Setting β σ, cfg.flags = .tactic → ∀ w e w',
      cfg.interp st.body cfg.env ts (firedWorld st ts w) = .error e w' →
        norm cfg n (.app (.native st) ts) w = .error e w' := by
  obtain ⟨N, hN⟩ := fire_inert hts harity
  refine ⟨N + 4, fun n hn cfg hflags w e w' hinterp => ?_⟩
  obtain ⟨n, rfl⟩ := Nat.exists_eq_add_of_le' (Nat.le_trans (Nat.le_add_left 4 N) hn)
  have hfire : fire cfg (norm cfg (n + 1)) st (.native st) ts w = .error e w' := by
    rw [hN (n + 1) (by omega), run_bind_error hinterp]
  have hwhnf : whnf cfg (n + 3) (.app (.native st) ts) w = .error e w' := by
    rw [whnf_native_app hflags hne harity, run_bind_error hfire]
  rw [norm, run_bind_error hwhnf]

end

end Reduce

/-! ## Evaluating what was compiled -/

namespace Machine

section

variable (st : Step σ) {ts : List (Term β σ)} {cfg : Setting β σ}

theorem Value.StandForAll.length_eq {steps : StepTable σ} {P : Plan β σ} {ts : List (Term β σ)}
    {vs : List (Value β σ)} (h : Value.StandForAll steps P ts vs) : vs.length = ts.length := by
  induction ts generalizing vs with
  | nil =>
      cases h
      rfl
  | cons t ts ih =>
      cases h with
      | cons _ h => exact congrArg Nat.succ (ih h)

/-- A step is fired on the terms that its arguments stand for. -/
theorem fire_standing (hts : ∀ t ∈ ts, t.Inert) :
    ∃ N, ∀ n ≥ N, ∀ (cfg : Setting β σ) P vs h w, cfg.direct st.body = none →
      Value.StandForAll cfg.steps P ts vs → h.KeepsTo cfg.steps P →
      ∃ Q h', h'.KeepsTo cfg.steps Q ∧ fire cfg (readback cfg n) st vs ⟨h, w⟩ =
        (inWorld (cfg.interp st.body cfg.env ts) >>= fun t? => match t? with
          | some t => do return some (← ofTerm t)
          | none => return none) ⟨h', w.noted (.fired st ts)⟩ := by
  obtain ⟨N, hN⟩ := exists_bound fun t ht => gives_readback (hts t ht)
  refine ⟨N, fun n hn cfg P vs h w hdirect hvs hh => ?_⟩
  obtain ⟨Q, h', _, -, hh', hread, rfl⟩ := gives_mapM_readback hvs
    (fun t ht P v hv => hN n hn t ht cfg P v hv) h w hh
  refine ⟨Q, h', hh', ?_⟩
  rw [fire, hdirect]
  dsimp only
  rw [run_bind_ok hread]
  rfl

/-- If the step gives an inert term, the result stands for it. -/
theorem fire_ok (hts : ∀ t ∈ ts, t.Inert) :
    ∃ N, ∀ n ≥ N, ∀ (cfg : Setting β σ) P vs h w, cfg.direct st.body = none →
      Value.StandForAll cfg.steps P ts vs → h.KeepsTo cfg.steps P → ∀ t w', t.Inert →
      cfg.interp st.body cfg.env ts (w.noted (.fired st ts)) = .ok (some t) w' →
        ∃ Q h' v, h'.KeepsTo cfg.steps Q ∧ v.StandsFor cfg.steps Q t ∧
          fire cfg (readback cfg n) st vs ⟨h, w⟩ = .ok (some v) ⟨h', w'⟩ := by
  obtain ⟨N, hN⟩ := fire_standing st hts
  refine ⟨N, fun n hn cfg P vs h w hdirect hvs hh t w' ht hinterp => ?_⟩
  obtain ⟨Q, h', hh', hfire⟩ := hN n hn cfg P vs h w hdirect hvs hh
  obtain ⟨R, h'', v, -, hh'', hv, hstands⟩ := gives_ofTerm cfg.steps ht h' w' hh'
  refine ⟨R, h'', v, hh'', hstands, hfire.trans ?_⟩
  have hworld : inWorld (cfg.interp st.body cfg.env ts) ⟨h', w.noted (.fired st ts)⟩ =
      .ok (some t) ⟨h', w'⟩ := by
    rw [inWorld_run, hinterp, onHeap]
  rw [run_bind_ok hworld]
  exact run_bind_ok hv

theorem fire_error (hts : ∀ t ∈ ts, t.Inert) :
    ∃ N, ∀ n ≥ N, ∀ (cfg : Setting β σ) P vs h w, cfg.direct st.body = none →
      Value.StandForAll cfg.steps P ts vs → h.KeepsTo cfg.steps P → ∀ e w',
      cfg.interp st.body cfg.env ts (w.noted (.fired st ts)) = .error e w' →
        ∃ h', fire cfg (readback cfg n) st vs ⟨h, w⟩ = .error e ⟨h', w'⟩ := by
  obtain ⟨N, hN⟩ := fire_standing st hts
  refine ⟨N, fun n hn cfg P vs h w hdirect hvs hh e w' hinterp => ?_⟩
  obtain ⟨Q, h', hh', hfire⟩ := hN n hn cfg P vs h w hdirect hvs hh
  refine ⟨h', hfire.trans (run_bind_error ?_)⟩
  rw [inWorld_run, hinterp, onHeap]

/-- A native step by itself is a value. -/
theorem eval_native (cfg : Setting β σ) (harity : st.arity ≠ 0) (n : Nat) (h : Heap β σ) (w : World β σ) :
    eval cfg (n + 4) (.native st) ⟨h, w⟩ =
      .ok (.step (.native st) st [])
        ⟨(h.reserve (compile cfg.steps (Term.native st : Term β σ))).2, w⟩ := by
  have hlt : ([] : List (Value β σ)).length < st.arity := Nat.pos_of_ne_zero harity
  have hrun (memory : Memory β σ) : run cfg (n + 4) (.step (.native st) st) [] memory =
      .ok (.step (.native st) st []) memory := by
    rw [run, apply, run_bind_ok (show force cfg (n + 2) (.step (.native st) st []) memory =
      .ok (.step (.native st) st []) memory from rfl), applyForced]
    simp only [List.append_nil, if_pos hlt]
    rfl
  exact hrun _

/-- Applied to as many values as it takes, it is fired. -/
theorem apply_step {vs : List (Value β σ)} (hlength : vs.length = st.arity) (n : Nat)
    (memory : Memory β σ) : apply cfg (n + 2) (.step (.native st) st []) vs memory =
      (fire cfg (readback cfg n) st vs >>= fun v? => match v? with
        | some v => force cfg n v >>= fun v => applyRest cfg n v []
        | none => do
          let terms ← vs.mapM (readback cfg n)
          return .neutral ((Term.native st).apps terms) []) memory := by
  have hforce : force cfg (n + 1) (.step (.native st) st []) memory =
    .ok (.step (.native st) st []) memory := rfl
  rw [apply, run_bind_ok hforce, applyForced]
  dsimp only
  rw [List.nil_append, ← hlength, List.take_length, List.drop_length]
  exact congrFun (if_neg (Nat.lt_irrefl _)) memory

end

end Machine

/-! ## Both evaluations -/

namespace Native

open Machine (Heap)

variable {κ : Type} {st : Step κ} {ts : List (Term κ)}

/-- Compiled evaluation of the application of a native step comes to applying it to values for its
arguments. -/
theorem applyCompiled_native (hts : ∀ t ∈ ts, Term.Inert t) (hne : ts ≠ [])
    (harity : ts.length = st.arity) (cfg : Machine.Setting (Content κ) (Body κ)) (w : World κ) :
    ∃ P h vs, Heap.KeepsTo cfg.steps P h ∧ Machine.Value.StandForAll cfg.steps P ts vs ∧
      ∀ n, applyCompiled cfg (n + 4) (.native st) ts ⟨{}, w⟩ =
        (Machine.apply cfg (n + 4) (.step (.native st) st []) vs >>=
          Machine.readback cfg (n + 4)) ⟨h, w⟩ := by
  have hpos : st.arity ≠ 0 := harity ▸ fun h => hne (List.length_eq_zero_iff.mp h)
  obtain ⟨P, h, vs, -, hh, hvs, hstand⟩ := Machine.gives_mapM
    (fun t ht P => Machine.gives_ofTerm cfg.steps (hts t ht)) _ w (Heap.keepsTo_empty.reserve _)
  refine ⟨P, h, vs, hh, hstand, fun n => ?_⟩
  rw [applyCompiled, run_bind_ok (Machine.eval_native st cfg hpos n {} w), run_bind_ok hvs]

/-- The world in which a native step that is applied to terms is entered. -/
def enteredWorld (backend : Backend) (st : Step κ) (ts : List (Term κ)) (w : World κ) : World κ :=
  match backend with
  | .reduce => Reduce.firedWorld st ts w
  | .compiled => w.noted (.fired st ts)

theorem notes_enteredWorld (backend : Backend) (st : Step κ) (ts : List (Term κ)) (w : World κ) :
    w.Notes [.fired st ts] (enteredWorld backend st ts w) := by
  cases backend with
  | reduce => exact Reduce.notes_firedWorld st ts w
  | compiled => exact .noted _ w

section

variable (st) (host : Host κ)

/-- What a native step gives, applied to data, is what the application evaluates to. -/
theorem evaluate_native (hdirect : interpretDirect host st.body = none)
    (hts : ∀ t ∈ ts, Term.Inert t) (hne : ts ≠ []) (harity : ts.length = st.arity) {t : Term κ}
    (ht : Term.Inert t) :
    ∃ N, ∀ n ≥ N, ∀ backend steps env w w',
      interp host n st.body env ts (enteredWorld backend st ts w) = .ok (some t) w' →
        evaluate host (n + 1) ⟨backend, steps, env, .native st, ts⟩ w = .ok t w' := by
  obtain ⟨N, hN⟩ := Reduce.norm_native_app hts hne harity ht
  obtain ⟨M, hM⟩ := Machine.fire_ok st hts
  obtain ⟨K, hK⟩ := Machine.gives_readback ht
  refine ⟨max N (max M K) + 8, fun n hn backend steps env w w' hinterp => ?_⟩
  cases backend with
  | reduce =>
      rw [evaluate, Term.apps_of_not_isApp rfl hne]
      exact hN n (by omega) _ rfl w w' hinterp
  | compiled =>
      let cfg := machineSetting host (interp host n) steps env
      obtain ⟨n, rfl⟩ := Nat.exists_eq_add_of_le' (Nat.le_trans (Nat.le_add_left 8 _) hn)
      obtain ⟨P, h, vs, hh, hvs, happ⟩ := applyCompiled_native hts hne harity cfg w
      have hlength : vs.length = st.arity := hvs.length_eq.trans harity
      obtain ⟨Q, h', v, hh', hv, hfire⟩ := hM (n + 6) (by omega) cfg P vs h w hdirect hvs hh t w' ht
        hinterp
      obtain ⟨R, h'', v', -, hh'', hforce, hv', -⟩ := Machine.gives_force cfg hv
        (n := n + 6) (by omega) h' w' hh'
      obtain ⟨_, h₃, u, -, -, hread, hu⟩ := hK (n + 8) (by omega) cfg R v' hv' h'' w' hh''
      subst hu
      have hrest : Machine.applyRest cfg (n + 6) v' [] ⟨h'', w'⟩ = .ok v' ⟨h'', w'⟩ := by
        rw [Machine.applyRest]
        rfl
      have hrun : applyCompiled cfg (n + 8) (.native st) ts ⟨{}, w⟩ = .ok u ⟨h₃, w'⟩ := by
        have happly : Machine.apply cfg (n + 8) (.step (.native st) st []) vs ⟨h, w⟩ =
            .ok v' ⟨h'', w'⟩ := by
          rw [Machine.apply_step st hlength, run_bind_ok hfire]
          exact (run_bind_ok hforce).trans hrest
        rw [happ (n + 4), run_bind_ok happly, hread]
      show withHeap (applyCompiled cfg (n + 8) _ ts) w = _
      rw [withHeap_run, hrun, offHeap]

/-- However a native step breaks off, applied to data, so does the evaluation of the application. -/
theorem evaluate_native_error (hdirect : interpretDirect host st.body = none)
    (hts : ∀ t ∈ ts, Term.Inert t) (hne : ts ≠ []) (harity : ts.length = st.arity) :
    ∃ N, ∀ n ≥ N, ∀ backend steps env w e w',
      interp host n st.body env ts (enteredWorld backend st ts w) = .error e w' →
        evaluate host (n + 1) ⟨backend, steps, env, .native st, ts⟩ w = .error e w' := by
  obtain ⟨N, hN⟩ := Reduce.norm_native_app_error hts hne harity
  obtain ⟨M, hM⟩ := Machine.fire_error st hts
  refine ⟨max N M + 4, fun n hn backend steps env w e w' hinterp => ?_⟩
  cases backend with
  | reduce =>
      rw [evaluate, Term.apps_of_not_isApp rfl hne]
      exact hN n (by omega) _ rfl w e w' hinterp
  | compiled =>
      let cfg := machineSetting host (interp host n) steps env
      obtain ⟨n, rfl⟩ := Nat.exists_eq_add_of_le' (Nat.le_trans (Nat.le_add_left 4 _) hn)
      obtain ⟨P, h, vs, hh, hvs, happ⟩ := applyCompiled_native hts hne harity cfg w
      have hlength : vs.length = st.arity := hvs.length_eq.trans harity
      obtain ⟨h', hfire⟩ := hM (n + 2) (by omega) cfg P vs h w hdirect hvs hh e w' hinterp
      have hrun : applyCompiled cfg (n + 4) (.native st) ts ⟨{}, w⟩ = .error e ⟨h', w'⟩ := by
        rw [happ n, run_bind_error]
        rw [Machine.apply_step st hlength, run_bind_error hfire]
      show withHeap (applyCompiled cfg (n + 4) _ ts) w = _
      rw [withHeap_run, hrun, offHeap]

end

end Native

end TacticEngine
