/-
# TacticEngine.Proofs.Sharing.Comparison -- comparing a bound value with itself.

A function gives its argument twice to a step that compares terms.  The machine evaluates the argument
once, and reads its value back twice, to the same term; so the step always finds that the two are equal,
even if the value is an object that has just been made.  Reduction copies the argument into the body and
normalizes each copy; so the step compares two terms, the second of which is what the argument is
normalized to in the world that normalizing it has left.
-/
import TacticEngine.Proofs.Agreement.Evaluation
import TacticEngine.Proofs.Machine.Renaming
import TacticEngine.Proofs.Reduction.BigStep
import TacticEngine.Proofs.Sharing.Once

namespace TacticEngine

variable {β σ : Type}

/-- Two runs one after the other. -/
theorem run_mapM_pair {ε ρ α γ : Type} {f : α → EStateM ε ρ γ} {a a' : α} {b b' : γ} {s s₁ s₂ : ρ}
    (h : f a s = .ok b s₁) (h' : f a' s₁ = .ok b' s₂) : [a, a'].mapM f s = .ok [b, b'] s₂ := by
  simp only [List.mapM_cons, List.mapM_nil, Machine.run_bind_eq_ok_iff]
  exact ⟨b, s₁, h, [b'], s₂, ⟨b', s₂, h', [], s₂, rfl, rfl⟩, rfl⟩

theorem Source.FileSpan.beq_self (r : FileSpan) : (r == r) = true := by
  have hfile : (r.file == r.file) = true := beq_self_eq_true r.file.components
  show instBEqFileSpan.beq r r = true
  simp [instBEqFileSpan.beq, hfile]

theorem Annotation.beq_self : ∀ n : Annotation, (n == n) = true
  | .span region => region.beq_self
  | .monadic effect => beq_self_eq_true effect

namespace Term

/-- The term, given twice to a head by a function. -/
def twice (h t : Term β σ) : Term β σ := .app (.lam 1 (.app h [.bvar 0, .bvar 0])) [t]

/-! ## Every term is equal to itself -/

mutual
theorem same_self : ∀ t : Term β σ, t.same t = true
  | .const _ | .ctor _ | .bvar _ | .free _ | .uvar _ | .lit _ | .native _ => by simp [same]
  | .blob _ => by simp [same, Blob.same]
  | .app h as => by simp [same, same_self h, sameArgs_self as]
  | .lam _ b => by simp [same, same_self b]
  | .case s brs => by simp [same, same_self s, sameBranches_self brs]
  | .ascribed a t => by simp [same, same_self a, same_self t]
  | .annotated a n => by simp [same, same_self a, n.beq_self]
  | .reify a => by simp [same, same_self a]

theorem sameArgs_self : ∀ as : List (Term β σ), sameArgs as as = true
  | [] => rfl
  | a :: as => by simp [sameArgs, same_self a, sameArgs_self as]

theorem sameBranches_self : ∀ brs : List (Branch (Term β σ)), sameBranches brs brs = true
  | [] => rfl
  | ⟨_, b⟩ :: brs => by simp [sameBranches, same_self b, sameBranches_self brs]
end

end Term

/-- A step of two arguments that compares them, whatever they are wrapped in. -/
structure Compares (interp : Interp β σ) (env : Env β σ) (s : Step σ) : Prop where
  arity : s.arity = 2
  interp : ∀ a b w, ∃ w',
    interp s.body env [a, b] w = .ok (some (.lit (.bool (a.strip.same b.strip)))) w'

/-! ## Normal forms have no wrappers -/

namespace Term

/-- Neither the term nor its head is wrapped in anything that stripping would drop. -/
def Unwrapped (t : Term β σ) : Prop := t.strip = t ∧ ∀ h as, t = .app h as → h.strip = h

theorem strip_apps_eq {t : Term β σ} (h : t.strip = t) (as : List (Term β σ)) :
    (t.apps as).strip = t.apps as := by
  cases as with
  | nil => rwa [apps_nil]
  | cons a as => cases t <;> rfl

theorem Unwrapped.apps {t : Term β σ} (h : t.Unwrapped) (as : List (Term β σ)) :
    (t.apps as).Unwrapped := by
  refine ⟨strip_apps_eq h.1 as, fun f bs heq => ?_⟩
  cases as with
  | nil =>
      rw [apps_nil] at heq
      exact h.2 f bs heq
  | cons a as =>
      cases t with
      | app f' bs' =>
          cases heq
          exact h.2 _ _ rfl
      | _ =>
          cases heq
          exact h.1

end Term

namespace Reduce

section

variable {cfg : Setting β σ} {acts : Deeds β σ}

theorem unwrapped_of_isRigid {t : Term β σ} (h : t.isRigid = true) : t.Unwrapped := by
  cases t with
  | const | native | app | case | ascribed | annotated | reify => cases h
  | _ => exact ⟨rfl, nofun⟩

-- By induction on the derivation.  A head that is left as it is has been reduced before, or is a name.
mutual
theorem ToWhnf.unwrapped (hu : cfg.flags.unascribe = true) : ∀ {t : Term β σ}
    {r : Except (Halt β) (Term β σ)}, ToWhnf cfg acts t r → ∀ u, r = .ok u → u.Unwrapped
  | _, _, .annotated h | _, _, .ascribed _ h | _, _, .reify _ h | _, _, .unfold _ h => h.unwrapped hu
  | _, _, .ascribed_kept hf => by
      rw [hu] at hf
      cases hf
  | _, _, .reify_kept _ => by rintro _ ⟨⟩; exact ⟨rfl, nofun⟩
  | _, _, .const _ h | _, _, .native h => h.unwrapped hu ⟨rfl, nofun⟩
  | _, _, .rigid hr => by rintro _ ⟨⟩; exact unwrapped_of_isRigid hr
  | _, _, .app hh h => h.unwrapped hu (hh.unwrapped hu _ rfl)
  | _, _, .case _ _ h => h.unwrapped hu
  | _, _, .case_stuck _ _ => by rintro _ ⟨⟩; exact ⟨rfl, nofun⟩
  | _, _, .app_error _ | _, _, .case_overflow _ _ | _, _, .case_error _ => nofun

theorem ToApp.unwrapped (hu : cfg.flags.unascribe = true) : ∀ {h : Term β σ} {as : List (Term β σ)}
    {r : Except (Halt β) (Term β σ)}, ToApp cfg acts h as r → h.Unwrapped →
      ∀ u, r = .ok u → u.Unwrapped
  | _, _, _, .merge h, _ | _, _, _, .beta _ _ h, _ | _, _, _, .fired _ _ _ _ h, _ => h.unwrapped hu
  | _, _, _, .short _, hh | _, _, _, .inert _ _ _, hh | _, _, _, .waiting _ _, hh
  | _, _, _, .declined _ _ _ _, hh => by rintro _ ⟨⟩; exact hh.apps _
  | _, _, _, .beta_overflow _ _, _ | _, _, _, .failed _ _ _ _, _
  | _, _, _, .args_error _ _ _, _ => nofun
end

/-- What running a metaprogram ends with has no wrappers outside. -/
theorem strip_of_norm (hf : cfg.flags = .tactic) {n : Nat} {t u : Term β σ} {w w' : World β σ}
    (h : norm cfg n t w = .ok u w') : u.strip = u := by
  have hu : cfg.flags.unascribe = true := congrArg Flags.unascribe hf
  have hnorm : ToNorm cfg (mayAct cfg) t (.ok u) :=
    toNorm_of_ending (n := n) (w := w) (by rw [h]; rfl) nofun
  cases hnorm with
  | hnf _ hw => exact (hw.unwrapped hu _ rfl).1
  | head _ hw _ => exact (hw.unwrapped hu _ rfl).1
  | args _ hw _ => exact Term.strip_apps_eq ((hw.unwrapped hu _ rfl).2 _ _ rfl) _

/-! ## Reducing the function with its argument -/

variable {s : Step σ} {n : Nat} {h t a b : Term β σ} {w w₁ w₂ : World β σ}

/-- A step that needs arguments stays as it is. -/
theorem whnf_of_stepOf (hstep : stepOf cfg h = some s) (hs : s.arity ≠ 0) :
    whnf cfg (n + 2) h = pure h := by
  have hself : whnfApp cfg (n + 1) h [] = pure h := by
    rw [whnfApp_of_stepOf hstep, if_neg (by simpa using hs), Term.apps_nil]
  rcases named_of_stepOf hstep with ⟨c, rfl⟩ | ⟨s', rfl⟩
  · rw [whnf_const (bodyOf?_eq_none_of_stepOf hstep), hself]
  · rw [whnf_native, hself]

theorem beta?_twice (hstep : stepOf cfg h = some s) :
    (Term.app h [.bvar 0, .bvar 0]).beta? [t] = some (.app h [t, t]) := by
  rcases named_of_stepOf hstep with ⟨c, rfl⟩ | ⟨s', rfl⟩ <;> rfl

/-- The step is applied to the argument twice. -/
theorem whnf_twice (hstep : stepOf cfg h = some s) (hs : s.arity = 2) :
    whnf cfg (n + 5) (.twice h t) = fire cfg (norm cfg (n + 1)) s h [t, t] >>= resume cfg (n + 1) := by
  have hbody : whnf cfg (n + 3) (.app h [t, t]) =
      fire cfg (norm cfg (n + 1)) s h [t, t] >>= resume cfg (n + 1) := by
    rw [whnf, whnf_of_stepOf hstep (by omega), pure_bind, whnfApp_of_stepOf hstep]
    exact if_pos (Nat.le_of_eq hs)
  rw [Term.twice, whnf, whnf_of_isRigid rfl, pure_bind, whnfApp]
  refine (if_pos (Nat.le_refl 1)).trans ?_
  rw [List.take_of_length_le (Nat.le_refl 1), beta?_twice hstep, List.drop_of_length_le (Nat.le_refl 1)]
  exact (pure_bind _ _).trans ((congrArg _ (Term.apps_nil _)).trans hbody)

/-- If a term can be normalized twice, one after the other, comparing it with itself compares the two
results. -/
theorem norm_twice (hf : cfg.flags = .tactic) (hs : Compares cfg.interp cfg.env s)
    (hstep : stepOf cfg h = some s) (ha : norm cfg n t w = .ok a w₁)
    (hb : norm cfg n t w₁ = .ok b w₂) :
    ∃ w', norm cfg (n + 5) (.twice h t) w = .ok (.lit (.bool (a.same b))) w' := by
  cases n with
  | zero => cases ha
  | succ n =>
      have hnow := run_mapM_pair ha hb
      obtain ⟨w₃, hdebug⟩ : ∃ w₃, Act.debug .trace (fun _ => some ("firing " ++ s.name ++ " on "
          ++ toString [a, b].length ++ " arguments")) w₂ = .ok () w₃ := by
        rw [Act.debug_run]
        cases w₂.debugging <;> exact ⟨_, rfl⟩
      obtain ⟨w', hw'⟩ := hs.interp a b (w₃.noted (.fired s [a, b]))
      rw [strip_of_norm hf ha, strip_of_norm hf hb] at hw'
      have hfire : fire cfg (norm cfg (n + 1)) s h [t, t] w =
          .ok (true, .lit (.bool (a.same b))) w' := by
        rw [fire, hs.arity]
        refine (run_bind_ok hnow).trans ((run_bind_ok hdebug).trans ?_)
        refine (run_bind_ok (show Act.note (.fired s [a, b]) w₃ = .ok () _ from rfl)).trans ?_
        exact (run_bind_ok hw').trans rfl
      have hwhnf : whnf cfg (n + 5) (.twice h t) w = .ok (.lit (.bool (a.same b))) w' := by
        rw [whnf_twice hstep hs.arity]
        exact (run_bind_ok hfire).trans rfl
      refine ⟨w', ?_⟩
      rw [norm_eq_bind (congrArg Flags.hnf hf)]
      exact (run_bind_ok hwhnf).trans rfl

end

end Reduce

namespace Machine

variable {cfg : Setting β σ} {s : Step σ} {n : Nat} {m : Memory β σ}

/-! ## The function with its argument -/

theorem run_step (hs : s.arity ≠ 0) (h : Term β σ) (frame : List (Value β σ)) :
    run cfg (n + 3) (.step h s) frame = pure (.step h s []) := by
  rw [run, apply_of_forced rfl, applyForced]
  exact if_pos (Nat.pos_of_ne_zero hs)

/-- The code of a function that gives its argument to a step twice. -/
def twiceCode (h : Term β σ) (s : Step σ) : Code β σ :=
  .lam 1 (.lam 1 (.app h [.bvar 0, .bvar 0])) (.app (.step h s) [.var 0, .var 0])

/-- The step is applied to the argument twice. -/
theorem run_twice (hs : s.arity = 2) (h : Term β σ) {ds : List (Delayed β σ)} {v : Value β σ}
    {m' : Memory β σ} (hpass : ds.mapM (delayed []) m = .ok [v] m') :
    run cfg (n + 7) (.app (twiceCode h s) ds) [] m =
      applyForced cfg (n + 2) (.step h s []) [v, v] m' := by
  have hbody : run cfg (n + 4) (.app (.step h s) [.var 0, .var 0]) [v] =
      applyForced cfg (n + 2) (.step h s []) [v, v] := by
    rw [run, run_step (by omega), pure_bind]
    exact apply_of_forced (f := .step h s []) rfl [v, v]
  rw [twiceCode, run, run, pure_bind, run_bind_ok hpass, apply_of_forced rfl, applyForced]
  refine (congrFun (if_neg (Nat.lt_irrefl 1)) m').trans (congrFun ?_ m')
  refine Eq.trans (congrArg (· >>= _) hbody) ?_
  refine Eq.trans (congrArg _ (funext fun u => applyRest_nil u)) ?_
  exact bind_pure _

theorem compile_of_stepOf {steps : StepTable σ} {h : Term β σ}
    (hh : Reduce.stepOf ⟨steps, .tactic, cfg.env, cfg.interp⟩ h = some s) :
    compile steps h = pure (.step h s) := by
  cases h with
  | const c =>
      have hc : steps.lookup c = some s := hh
      rw [compile, hc]
  | native s' =>
      cases hh
      rw [compile]
  | _ => cases hh

/-! ## Reading the argument back twice -/

/-- What a value is forced to is read back in its place. -/
theorem readback_of_force {v u : Value β σ} {m' : Memory β σ} (h : force cfg n v m = .ok u m')
    (hu : u.isThunk = false) : readback cfg (n + 1) v m = readback cfg (n + 1) u m' := by
  cases n with
  | zero => cases h
  | succ n =>
      rw [readback_succ, readback_succ, force_of_forced hu, pure_bind]
      exact run_bind_ok h

/-- A value that can be read back again compares equal to itself. -/
theorem applyForced_compares (hcfg : cfg.Derived) (hs : s.arity = 2) (h : Term β σ) {v : Value β σ}
    {u : Term β σ} {m' : Memory β σ} (hread : readback cfg (n + 1) v m = .ok u m')
    (hagain : readback cfg (n + 1) v m' = .ok u m') {w : World β σ}
    (hw : cfg.interp s.body cfg.env [u, u] (m'.world.noted (.fired s [u, u])) =
      .ok (some (.lit (.bool (u.strip.same u.strip)))) w) :
    applyForced cfg (n + 2) (.step h s []) [v, v] m = .ok (.lit (.bool true)) ⟨m'.heap, w⟩ := by
  obtain ⟨heap, w₁⟩ := m'
  have hargs := run_mapM_pair hread hagain
  have hfire : fire cfg (readback cfg (n + 1)) s [v, v] m =
      .ok (some (.lit (.bool true))) ⟨heap, w⟩ := by
    rw [fire, hcfg s.body]
    simp only [run_bind_eq_ok_iff]
    refine ⟨_, _, hargs, (), ⟨heap, w₁.noted (.fired s [u, u])⟩, rfl,
      some (.lit (.bool (u.strip.same u.strip))), ⟨heap, w⟩, ?_, ?_⟩
    · rw [inWorld_run, hw, onHeap]
    · rw [u.strip.same_self]
      rfl
  rw [applyForced]
  simp only [List.nil_append, hs, List.length_cons, List.length_nil, Nat.lt_irrefl, if_false]
  refine (run_bind_ok hfire).trans ?_
  rw [List.drop_of_length_le (Nat.le_refl 2)]
  exact (run_bind_ok (congrFun (force_of_forced rfl) _)).trans (congrFun (applyRest_nil _) _)

/-- The function applied to a term evaluates to true if what it passes can be read back twice. -/
theorem normal_twice_of_pass (hcfg : cfg.Derived) (hs : Compares cfg.interp cfg.env s) {h t u : Term β σ}
    (hh : Reduce.stepOf ⟨cfg.steps, .tactic, cfg.env, cfg.interp⟩ h = some s) {v : Value β σ}
    {m₁ m₂ : Memory β σ}
    (hpass : (inHeap (·.reserve (delayAll cfg.steps [t])) >>= fun ds => ds.mapM (delayed [])) m =
      .ok [v] m₁)
    (hread : ∃ N, ∀ n ≥ N, readback cfg n v m₁ = .ok u m₂ ∧ readback cfg n v m₂ = .ok u m₂) :
    ∃ N m', ∀ n ≥ N, normal cfg n (.twice h t) m = .ok (.lit (.bool true)) m' := by
  obtain ⟨N, hN⟩ := hread
  obtain ⟨w, hw⟩ := hs.interp u u (m₂.world.noted (.fired s [u, u]))
  obtain ⟨ds, m₀, hds, hpass⟩ := run_bind_eq_ok_iff.mp hpass
  refine ⟨N + 7, ⟨m₂.heap, w⟩, fun n hn => ?_⟩
  obtain ⟨n, rfl⟩ := Nat.exists_eq_add_of_le' (Nat.le_trans (Nat.le_add_left 7 N) hn)
  obtain ⟨hread, hagain⟩ := hN (n + 1) (by omega)
  have hcompile : compile cfg.steps (Term.twice h t) =
      delayAll cfg.steps [t] >>= fun ds => pure (.app (twiceCode h s) ds) := by
    rw [Term.twice, compile, compile, compile, compile_of_stepOf hh]
    rfl
  have heval : eval cfg (n + 7) (Term.twice h t) m =
      applyForced cfg (n + 2) (.step h s []) [v, v] m₁ := by
    have hcode : inHeap (·.reserve (compile cfg.steps (Term.twice h t))) m =
        .ok (.app (twiceCode h s) ds) m₀ := by
      rw [hcompile]
      cases hds
      rfl
    exact (run_bind_ok hcode).trans (run_twice hs.arity h hpass)
  have hcompare := applyForced_compares hcfg hs.arity h hread hagain hw
  refine (run_bind_ok (heval.trans hcompare)).trans ?_
  rw [readback, force_of_forced rfl, pure_bind]
  rfl

/-! ## Passing the argument -/

/-- Any other term is passed as a suspended computation. -/
theorem delayAll_thunk {steps : StepTable σ} {t : Term β σ} (hvar : ∀ i, t ≠ .bvar i)
    (hlit : ∀ l, t ≠ .lit l) (hblob : ∀ b, t ≠ .blob b) :
    delayAll steps [t] = compile steps t >>= fun code => pure [.thunk t code] := by
  cases t with
  | bvar i => exact absurd rfl (hvar i)
  | lit l => exact absurd rfl (hlit l)
  | blob b => exact absurd rfl (hblob b)
  | _ =>
      rw [delayAll, delayAll]
      · rfl
      all_goals simp

theorem spare_ne (k i : Nat) : spare k i ≠ k := by
  unfold spare
  split <;> omega

/-- What a run gives, the runs beside it give where there is a spare slot. -/
theorem yields_of_spaced {α α' : Type} {V : α → α' → Prop} {k : Nat} {e : Eval β σ α}
    {F : Family (Halt β) (Memory β σ) α'} (h : (spacing β σ k).Follows V e F) {a : α}
    {m₁ : Memory β σ} (m' : Memory β σ) (hrun : e m = .ok a m₁) (hheap : m.heap.Spaced k m'.heap)
    (hworld : m.world = m'.world) :
    ∃ a' m₁', Yields F m' (.ok a' m₁') ∧ V a a' ∧ m₁.heap.Spaced k m₁'.heap ∧
      m₁.world = m₁'.world := by
  rcases h m m' ⟨hheap, hworld⟩ with ⟨e, m₂, hr, -⟩ | ⟨r, hy, hm⟩
  · rw [hrun] at hr
    cases hr
  · rw [hrun] at hm
    cases hm with
    | ok ha hs => exact ⟨_, _, hy, ha, hs.1, hs.2⟩
    | escape he => exact he.elim

/-- The heap for a term to be evaluated in by itself, and the one with a slot for it as an argument. -/
theorem reserve_argument (steps : StepTable σ) {t : Term β σ} {code : Code β σ} {k : Nat}
    (hcode : compile steps t 0 = (code, k)) {h h' : Heap β σ}
    (hh : (({} : Heap β σ).reserve (compile steps t)).2 = h) (hh' : (h.reserve newSlot).2 = h') :
    ∃ R : Ranks, R.length = k ∧ code.Below R 1 ∧ h.Tidy R ∧ h'.Tidy (R ++ [1]) ∧ h.Spaced k h' := by
  obtain ⟨j, hj, hbelow⟩ := compile_takes steps t [] 0 1 one_pos
  have hempty : ({} : Heap β σ).Tidy [] := Heap.tidy_empty
  have htidy := (hempty.reserve hj 0).1
  have htidy' := (htidy.reserve (m := newSlot) (k := 1) rfl 1).1
  rw [hh, hh'] at htidy'
  rw [hh] at htidy
  rw [List.length_nil, Nat.zero_add, hcode] at hj
  rw [List.length_nil, hcode] at hbelow
  have hlen : ([] ++ List.replicate j 0 : Ranks).length = k := by simp [← hj]
  refine ⟨_, hlen, hbelow, htidy, htidy', ?_, ?_, fun i => ?_⟩
  · rw [htidy.size, hlen]
  · rw [htidy.size, htidy'.size, List.length_append]
    rfl
  · rw [← hh', ← hh, Heap.read_reserve, Heap.read_reserve, Heap.read_reserve, Heap.read_empty,
      Heap.read_empty]
    rfl

/-- If a term can be evaluated and read back by itself, it can be read back twice as an argument. -/
theorem readback_suspended (hcfg : cfg.Derived) {t u : Term β σ} {code : Code β σ} {k : Nat}
    {R : Ranks} (hR : R.length = k) (hcode : code.Below R 1) {h h' : Heap β σ} (htidy : h.Tidy R)
    (htidy' : h'.Tidy (R ++ [1])) (hspaced : h.Spaced k h') {w : World β σ} {v : Value β σ}
    {m₁ m₂ : Memory β σ} (heval : run cfg n code [] ⟨h, w⟩ = .ok v m₁)
    (hread : readback cfg n v m₁ = .ok u m₂) (hempty : h'.read k = none) :
    ∃ m₃ N, ∀ j ≥ N, readback cfg j (.thunk k t [] (some code)) ⟨h', w⟩ = .ok u m₃ ∧
      readback cfg j (.thunk k t [] (some code)) m₃ = .ok u m₃ := by
  have hthunk : (Value.thunk k t [] (some code)).Below (R ++ [1]) 2 := by
    refine ⟨1, ?_, one_lt_two, trivial, ?_⟩
    · rw [← hR]
      exact List.getElem?_concat_length
    · rintro _ ⟨⟩
      exact hcode.mono (List.prefix_append R [1]) le_rfl
  have hforced : v.isThunk = false := by
    have hframe : ∀ f ∈ ([] : List (Value β σ)), f.Below R 1 := by simp
    obtain ⟨_, -, -, -, -, hv⟩ := (growsAt hcfg.slotless n).run hcode hframe ⟨h, w⟩ htidy
    exact (hv v m₁ heval).2
  -- beside that, the code runs with the slot of the argument spare
  obtain ⟨_, ⟨heap, w₁⟩, ⟨N, hN⟩, rfl, hspaced₁, hw₁⟩ := yields_of_spaced
    ((spacedAt hcfg k n).run code []) ⟨h', w⟩ heval hspaced rfl
  rw [← hR, rename_spare_length hcode, hR] at hN
  have hrun (j : Nat) (hj : j ≥ N) : run cfg j code [] ⟨h', w⟩ = .ok (v.rename (spare k)) ⟨heap, w₁⟩ :=
    hN j hj j hj
  have halone : heap.read k = none := by
    have halone := evaluate_alone (n := N) hcfg.slotless hthunk (s := ⟨h', w⟩) htidy' hempty
    rwa [evaluate, hrun N (Nat.le_refl N)] at halone
  -- then its value is put there, which makes no difference to reading it back
  have hfilled : m₁.heap.Spaced k (heap.fill k (v.rename (spare k))).2 := by
    refine ⟨hspaced₁.le, ?_, fun i => ?_⟩
    · rw [Heap.size_fill]
      exact hspaced₁.size
    · rw [Heap.read_fill_of_none halone, if_neg fun h => spare_ne k i h.1]
      exact hspaced₁.read i
  obtain ⟨_, m₃, ⟨N', hN'⟩, rfl, -⟩ := yields_of_spaced ((spacedAt hcfg k n).readback v)
    ⟨(heap.fill k (v.rename (spare k))).2, w₁⟩ hread hfilled hw₁
  refine ⟨m₃, N + N' + 2, fun j hj => ?_⟩
  obtain ⟨j, rfl⟩ := Nat.exists_eq_add_of_le' (Nat.le_trans (Nat.le_add_left 2 _) hj)
  have hforce : force cfg (j + 1) (.thunk k t [] (some code)) ⟨h', w⟩ =
      .ok (v.rename (spare k)) ⟨(heap.fill k (v.rename (spare k))).2, w₁⟩ := by
    rw [force_thunk]
    refine (run_of_empty hempty _).trans ((run_bind_ok (hrun j (by omega))).trans ?_)
    rw [inHeap_run, Heap.fill_fst_of_none halone]
  have hread₁ : readback cfg (j + 2) (.thunk k t [] (some code)) ⟨h', w⟩ = .ok u m₃ :=
    (readback_of_force hforce ((Value.isThunk_rename v).trans hforced)).trans
      (hN' (j + 2) (by omega) (j + 2) (by omega))
  obtain ⟨-, -, -, -, -, hagain⟩ :=
    repeats_readback hcfg.slotless hthunk ⟨h', w⟩ u m₃ htidy' hread₁
  exact ⟨hread₁, hagain m₃ (.refl _)⟩

/-- A value that is not suspended and has no arguments is read back at once. -/
theorem readback_atom {v : Value β σ} {t : Term β σ} (hv : v.isThunk = false) (hhead : v.head? = some t)
    (hargs : v.args = []) : readback cfg (n + 2) v m = .ok t m := by
  rw [readback_succ, force_of_forced hv, pure_bind, hv, hhead, hargs, List.mapM_nil]
  exact congrArg (EStateM.Result.ok · m) (Term.apps_nil t)

/-- If a term can be evaluated and read back, comparing it with itself evaluates to true. -/
theorem normal_twice (hcfg : cfg.Derived) (hs : Compares cfg.interp cfg.env s) {h t u : Term β σ}
    (hh : Reduce.stepOf ⟨cfg.steps, .tactic, cfg.env, cfg.interp⟩ h = some s) {w : World β σ}
    (hrun : normal cfg n t { world := w } = .ok u m) :
    ∃ N m', ∀ n ≥ N, normal cfg n (.twice h t) { world := w } = .ok (.lit (.bool true)) m' := by
  obtain ⟨v, m₁, heval, hread⟩ := run_bind_eq_ok_iff.mp hrun
  obtain ⟨code, m₀, hreserve, heval⟩ := run_bind_eq_ok_iff.mp heval
  have hatom {v : Value β σ} {t : Term β σ} (hv : v.isThunk = false) (hhead : v.head? = some t)
      (hargs : v.args = []) (m : Memory β σ) :
      ∃ N, ∀ n ≥ N, readback cfg n v m = .ok t m ∧ readback cfg n v m = .ok t m := by
    refine ⟨2, fun n hn => ?_⟩
    obtain ⟨n, rfl⟩ := Nat.exists_eq_add_of_le' hn
    exact ⟨readback_atom hv hhead hargs, readback_atom hv hhead hargs⟩
  have hthunk (hd : delayAll cfg.steps [t] = compile cfg.steps t >>= fun code =>
      pure [.thunk t code]) : ∃ N m', ∀ n ≥ N, normal cfg n (.twice h t) { world := w } =
        .ok (.lit (.bool true)) m' := by
    obtain ⟨R, hR, hbelow, htidy, htidy', hspaced⟩ := reserve_argument (t := t)
      cfg.steps rfl rfl rfl
    cases hreserve
    obtain ⟨m₃, hagain⟩ := readback_suspended (t := t) hcfg hR hbelow htidy htidy' hspaced heval hread
      (by rw [Heap.read_reserve, Heap.read_reserve, Heap.read_empty])
    refine normal_twice_of_pass hcfg hs hh ?_ hagain
    have hslot : ((({} : Heap β σ).reserve (compile cfg.steps t)).2).slots.size =
        (compile cfg.steps t 0).2 := htidy.size.trans hR
    rw [hd, ← hslot]
    rfl
  cases t with
  | bvar i =>
      rw [compile] at hreserve
      cases hreserve
      cases n with
      | zero => cases heval
      | succ n => cases heval
  | lit l => exact normal_twice_of_pass (v := .lit l) hcfg hs hh rfl (hatom rfl rfl rfl _)
  | blob b => exact normal_twice_of_pass (v := .blob b) hcfg hs hh rfl (hatom rfl rfl rfl _)
  | _ => exact hthunk (delayAll_thunk (by simp) (by simp) (by simp))

end Machine

end TacticEngine
