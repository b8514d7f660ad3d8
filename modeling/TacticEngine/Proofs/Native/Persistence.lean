/-
# TacticEngine.Proofs.Native.Persistence -- more fuel changes no result.

Whatever a run gives before it uses up its fuel, it gives with any larger amount of fuel too, in both
evaluations and to any depth of nesting.  So it makes sense to speak of the result of a run without
saying how much fuel it took.
-/
import TacticEngine.Native.Engine
import TacticEngine.Proofs.Likeness.Equality
import TacticEngine.Proofs.Likeness.Machine
import TacticEngine.Proofs.Run.Program

namespace TacticEngine.Native

variable {κ α : Type} {T : Tie (Halt (Content κ)) (World κ) (Halt (Content κ)) (World κ)}
  {L : Likeness (Content κ) (Body κ)}

/-! ## Compiled evaluation as a whole -/

/-- The result of an evaluation, without its heap. -/
def offHeap : EStateM.Result (Halt (Content κ)) (Machine.Memory (Content κ) (Body κ)) α →
    EStateM.Result (Halt (Content κ)) (World κ) α
  | .ok a s => .ok a s.world
  | .error e s => .error e s.world

theorem withHeap_run (m : Machine.Eval (Content κ) (Body κ) α) (w : World κ) :
    withHeap m w = offHeap (m ⟨{}, w⟩) := by
  simp only [withHeap]
  cases m ⟨{}, w⟩ <;> rfl

theorem withHeap_follows {plain : String → Prop} {V : α → α → Prop}
    {m : Machine.Eval (Content κ) (Body κ) α}
    {F : Family (Halt (Content κ)) (Machine.Memory (Content κ) (Body κ)) α}
    (h : (Machine.withHeaps L plain T).Follows V m F) :
    T.Follows V (withHeap m) fun l n => withHeap (F l n) := by
  intro w w' hw
  rcases h ⟨{}, w⟩ ⟨{}, w'⟩ ⟨.empty, hw⟩ with ⟨e, s, hr, he⟩ | ⟨r', ⟨N, hN⟩, hm⟩
  · refine .inl ⟨e, s.world, ?_, he⟩
    rw [withHeap_run, hr, offHeap]
  · refine .inr ⟨offHeap r', ⟨N, fun l hl n hn => ?_⟩, ?_⟩
    · exact (withHeap_run _ _).trans (congrArg offHeap (hN l hl n hn))
    · rw [withHeap_run]
      generalize m ⟨{}, w⟩ = r at hm
      cases hm with
      | ok ha hs => exact .ok ha hs.2
      | error he hs => exact .error he hs.2
      | escape he => exact .escape he

theorem applyCompiled_follows (hT : T.Fair L) (hL : L.KeepsArity) {plain : String → Prop}
    {cfg cfg' : Machine.Setting (Content κ) (Body κ)} {I : Nat → Interp (Content κ) (Body κ)}
    (hS : Machine.Setting.Like T L plain cfg cfg' I) {t t' : Term κ} (ht : L.Alike 0 t t')
    {as as' : List (Term κ)} (has : L.AlikeArgs 0 as as') (n : Nat) :
    T.Follows (L.Alike 0) (withHeap (applyCompiled cfg n t as))
      fun l m => withHeap (applyCompiled (cfg'.withInterp (I l)) m t' as') := by
  have h := Machine.alikeAt hT hL hS n
  have hcode := Machine.compile_alike hS.lookup hS.plain_of_lookup ht
  have happ : (Machine.withHeaps L plain T).Follows (L.Alike 0) (applyCompiled cfg n t as)
      fun l m => applyCompiled (cfg'.withInterp (I l)) m t' as' := by
    refine .bind (.bind (Machine.reserve_follows hcode) fun c c' hc => h.run hc .nil)
      fun f f' hf => ?_
    refine (Tie.Follows.mapM (fun _ _ => Machine.ofTerm_follows)
      (Term.alikeArgs_iff_forall₂.mp has)).bind fun vs vs' hvs => ?_
    exact (h.apply hf.1 (Machine.Value.alikeArgs_iff_forall₂.mpr hvs)).bind fun v v' hv =>
      h.readback hv.1
  exact withHeap_follows happ

/-! ## Both evaluators at once -/

/-- What makes compiled evaluations alike makes reductions alike too. -/
theorem reduceSetting_like {host host' : Host κ} {i i' : Interp (Content κ) (Body κ)}
    {I : Nat → Interp (Content κ) (Body κ)} {plain : String → Prop}
    {steps steps' : StepTable (Body κ)} {env env' : Env κ}
    (hS : Machine.Setting.Like T L plain (machineSetting host i steps env)
      (machineSetting host' i' steps' env') I) :
    Reduce.Setting.Like T L (reduceSetting i steps env) (reduceSetting i' steps' env') I where
  flags := rfl
  lookup := hS.lookup
  unfoldable c hc hnone := hS.unfoldable c (hS.plain_of_lookup c hc hnone)
  interp := hS.interp

/-- Carry a reduction out, given what steps do. -/
def carry (host : Host κ) (i : Interp (Content κ) (Body κ)) (fuel : Nat)
    (r : Reduction (Content κ) (Body κ)) : Act κ (Term κ) :=
  match r.backend with
  | .reduce => Reduce.norm (reduceSetting i r.steps r.env) fuel (r.tactic.apps r.args)
  | .compiled => withHeap (applyCompiled (machineSetting host i r.steps r.env) fuel r.tactic r.args)

theorem evaluate_succ (host : Host κ) (n : Nat) (r : Reduction (Content κ) (Body κ)) :
    evaluate host (n + 1) r = carry host (interp host n) n r := rfl

/-- Alike reductions by one and the same way to evaluate go alike. -/
theorem carry_follows (hT : T.Fair L) (hL : L.KeepsArity) {host host' : Host κ} {plain : String → Prop}
    {i i' : Interp (Content κ) (Body κ)} {I : Nat → Interp (Content κ) (Body κ)}
    {r r' : Reduction (Content κ) (Body κ)} (hback : r.backend = r'.backend)
    (hS : Machine.Setting.Like T L plain (machineSetting host i r.steps r.env)
      (machineSetting host' i' r'.steps r'.env) I)
    (ht : L.Alike 0 r.tactic r'.tactic) (has : L.AlikeArgs 0 r.args r'.args) (n : Nat) :
    T.Follows (L.Alike 0) (carry host i n r) fun l m => carry host' (I l) m r' := by
  obtain ⟨backend, steps, env, tactic, args⟩ := r
  obtain ⟨backend', steps', env', tactic', args'⟩ := r'
  obtain rfl : backend = backend' := hback
  cases backend with
  | reduce => exact (Reduce.alikeAt hT hL (reduceSetting_like hS) n).norm (ht.apps has)
  | compiled => exact applyCompiled_follows hT hL hS ht has n

/-- What goes like reductions that are carried out, with steps that may nest deeper and deeper, goes like
their evaluation. -/
theorem follows_evaluate_of_carry {α : Type} {V : α → Term κ → Prop} {host : Host κ} {act : Act κ α}
    {r : Reduction (Content κ) (Body κ)}
    (h : T.Follows V act fun l n => carry host (interp host l) n r) :
    T.Follows V act fun l _ => evaluate host l r :=
  .of_level (fun l => evaluate_succ host l r) h.diagonal

theorem evaluate_follows (hT : T.Fair L) (hL : L.KeepsArity) {host host' : Host κ} {n : Nat}
    {plain : String → Prop} {r r' : Reduction (Content κ) (Body κ)} (hback : r.backend = r'.backend)
    (hS : Machine.Setting.Like T L plain (machineSetting host (interp host n) r.steps r.env)
      (machineSetting host' (interp host' n) r'.steps r'.env) (interp host'))
    (ht : L.Alike 0 r.tactic r'.tactic) (has : L.AlikeArgs 0 r.args r'.args) :
    T.Follows (L.Alike 0) (evaluate host (n + 1) r) fun l _ => evaluate host' l r' :=
  follows_evaluate_of_carry (carry_follows hT hL hback hS ht has n)

/-- Settings in which steps go alike on equal terms and on equal values are alike. -/
theorem machineSetting_like {host : Host κ} {i i' : Interp (Content κ) (Body κ)}
    {I : Nat → Interp (Content κ) (Body κ)} {steps : StepTable (Body κ)} {env : Env κ}
    (hdirect : ∀ body f, interpretDirect host body = some f → ∀ vs, T.Follows Eq (f vs) fun _ _ => f vs)
    (hunbound : ∀ i, T.halt (.issue (Machine.unbound i)) (.issue (Machine.unbound i)))
    (h : ∀ body ts, T.Follows Eq (i body env ts) fun l _ => I l body env ts) :
    Machine.Setting.Like T (Likeness.equal _ _) (fun _ => True) (machineSetting host i steps env)
      (machineSetting host i' steps env) I where
  lookup c _ := rel_self (fun _ => rfl) _
  plain_of_lookup _ _ _ := trivial
  const_of_plain _ _ := trivial
  unfoldable c _ := rel_self (Term.alike_equal 0) _
  interp := by
    rintro s _ ts ts' rfl hts
    obtain rfl := hts.eq Likeness.equal_strict
    exact (h s.body ts).imp fun a b (hab : a = b) => hab ▸ rel_self (Term.alike_equal 0) a
  direct := by
    rintro s _ rfl
    show Option.Rel _ (interpretDirect host s.body) (interpretDirect host s.body)
    cases hf : interpretDirect host s.body with
    | none => exact .none
    | some f =>
        refine .some fun vs vs' hvs => ?_
        obtain rfl := hvs.eq Likeness.equal_strict
        refine (hdirect s.body f hf vs).imp ?_
        rintro a _ rfl
        exact rel_self Machine.Value.alike_equal a
  unbound := .inr hunbound

/-- Settings in which steps go alike on equal terms, in equal worlds, are alike. -/
theorem machineSetting_like_equal (hstate : ∀ w w', T.state w w' ↔ w = w') (hhalt : ∀ e, T.halt e e)
    {host : Host κ} {i i' : Interp (Content κ) (Body κ)} {I : Nat → Interp (Content κ) (Body κ)}
    {steps : StepTable (Body κ)} {env : Env κ}
    (h : ∀ body ts, T.Follows Eq (i body env ts) fun l _ => I l body env ts) :
    Machine.Setting.Like T (Likeness.equal _ _) (fun _ => True) (machineSetting host i steps env)
      (machineSetting host i' steps env) I := by
  refine machineSetting_like (fun body f _ vs => .const fun w w' hw => ?_) (fun _ => hhalt _) h
  obtain rfl := (hstate w w').mp hw
  cases f vs w with
  | ok v? w₁ => exact .ok rfl ((hstate w₁ w₁).mpr rfl)
  | error e w₁ => exact .error (hhalt e) ((hstate w₁ w₁).mpr rfl)

/-! ## Runs last -/

/-- A setting is like itself, if what its steps do lasts. -/
theorem machineSetting_like_self {host : Host κ} {n : Nat} {steps : StepTable (Body κ)}
    {env : Env κ} (h : ∀ body env ts, Lasts (interp host n body env ts)
      fun l _ => interp host l body env ts) :
    Machine.Setting.Like (Tie.same _ _) (Likeness.equal _ _) (fun _ => True)
      (machineSetting host (interp host n) steps env)
      (machineSetting host (interp host n) steps env) (interp host) :=
  machineSetting_like_equal (fun _ _ => Iff.rfl) (fun _ => rfl) fun body ts => h body env ts

theorem lasts_evaluate_interp (host : Host κ) (n : Nat) :
    (∀ r, Lasts (evaluate host n r) fun l _ => evaluate host l r) ∧
      ∀ body env ts, Lasts (interp host n body env ts) fun l _ => interp host l body env ts := by
  induction n with
  | zero => exact ⟨fun r => .mute fun _ => rfl, fun body env ts => .mute fun _ => rfl⟩
  | succ n ih =>
      constructor
      · intro r
        exact (evaluate_follows fair_same keepsArity_equal rfl (machineSetting_like_self ih.2)
          (Term.alike_equal 0 _) (Term.alikeArgs_equal 0 _)).imp
            fun _ _ ht => ht.eq Likeness.equal_strict
      · intro body env ts
        exact Tie.Follows.of_level (fun l => by rw [interp])
          (Program.lasts_run ih.1 (interpret host body env ts))

/-- Reductions last. -/
theorem lasts_evaluate (host : Host κ) (n : Nat) (r : Reduction (Content κ) (Body κ)) :
    Lasts (evaluate host n r) fun l _ => evaluate host l r :=
  (lasts_evaluate_interp host n).1 r

/-- What steps do lasts. -/
theorem lasts_interp (host : Host κ) (n : Nat) (body : Body κ) (env : Env κ) (ts : List (Term κ)) :
    Lasts (interp host n body env ts) fun l _ => interp host l body env ts :=
  (lasts_evaluate_interp host n).2 body env ts

end TacticEngine.Native
