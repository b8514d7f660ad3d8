/-
# TacticEngine.Proofs.Agreement.Becoming -- terms and the values they become.

A term becomes a value if its reduction goes on as the value says, whatever further arguments the term
is applied to.  A function goes on with all the arguments it has then; any other value is final and
only collects them.  So a term that is no application becomes every value whose source it reduces to.

In a heap that is filled properly, each slot holds a value that the term of the slot becomes.
-/
import TacticEngine.Proofs.Agreement.Formed
import TacticEngine.Proofs.Term.Substitution

namespace TacticEngine

variable {β σ α γ : Type}

namespace Term

/-! ## Heads of applications -/

theorem strip_apps {h : Term β σ} (hh : h.isApp = false) (hstrip : h.strip = h)
    (as : List (Term β σ)) : (h.apps as).strip = h.apps as ∧ (h.apps as).headArgs = (h, as) := by
  by_cases has : as = []
  · subst has
    rw [apps_nil]
    refine ⟨hstrip, ?_⟩
    cases h with
    | app => cases hh
    | _ => rfl
  · rw [apps_of_not_isApp hh has]
    exact ⟨rfl, rfl⟩

theorem asCtorApp?_apps {h : Term β σ} {as : List (Term β σ)} (hh : h.isApp = false)
    (hstrip : h.strip = h) (hctor : ∀ c, h ≠ .ctor c) : (h.apps as).asCtorApp? = none := by
  obtain ⟨h₁, h₂⟩ := strip_apps hh hstrip as
  rw [asCtorApp?, h₁, h₂]
  dsimp only
  rw [hstrip]
  cases h with
  | ctor c => exact absurd rfl (hctor c)
  | _ => rfl

theorem asLit?_apps {h : Term β σ} {as : List (Term β σ)} (hh : h.isApp = false)
    (hstrip : h.strip = h) (hlit : ∀ l, h = .lit l → as ≠ []) : (h.apps as).asLit? = none := by
  rw [asLit?, (strip_apps hh hstrip as).1]
  by_cases has : as = []
  · subst has
    rw [apps_nil]
    cases h with
    | lit l => exact absurd rfl (hlit l rfl)
    | _ => rfl
  · rw [apps_of_not_isApp hh has]

end Term

namespace Ground

open Machine (Code Delayed Value Heap Slots compile sources Memory Eval)
open Term (instantiateBranches)

variable {G : Ground β σ} {Γ Γ' : List (Term β σ)}

/-! ## The shape of sources -/

theorem strip_of_stepOf {h : Term β σ} {s : Step σ} (hs : G.stepOf h = some s) : h.strip = h := by
  cases h with
  | const | native => rfl
  | _ => cases hs

/-- A function waits for arguments. -/
theorem Formed.waiting {v : Value β σ} (hv : G.Formed Γ v) (hf : v.isFunction = true) :
    G.Waiting v.source := by
  cases hv with
  | @lam n b code frame held _ _ _ _ hlt =>
      rw [Value.source, Term.instantiate_lam (Nat.lt_of_le_of_lt (Nat.zero_le _) hlt)]
      exact .lam (by rwa [Machine.length_sources])
  | step hs _ _ hlt => exact .step hs (by rwa [Machine.length_sources])
  | _ => cases hf

/-- The head of what does not wait for arguments: a head of its own, in front of arguments of which
there are enough if it is a step. -/
inductive Settled (G : Ground β σ) : Term β σ → Prop where
  | head {h xs} : h.isApp = false → (∀ n b, h ≠ .lam n b) → G.stepOf h = none → Settled G (h.apps xs)
  | declined {h s xs} : G.stepOf h = some s → s.arity ≤ xs.length → Settled G (h.apps xs)

theorem Forced.settled {v : Value β σ} (hv : G.Forced Γ v) (hf : v.isFunction = false) :
    G.Settled v.source := by
  obtain ⟨hv, hthunk⟩ := hv
  cases hv with
  | ctor => exact .head rfl (by simp) rfl
  | lit | blob =>
      rw [Value.source_eq]
      exact .head rfl (by simp [Value.head]) rfl
  | stuck => exact .head rfl (by simp) rfl
  | lam | step => cases hf
  | thunk => cases hthunk
  | @neutral t args ht =>
      cases ht with
      | const hc => exact .head rfl (by simp) hc
      | declined hs hlen =>
          rw [Value.source, Term.apps_apps]
          refine .declined hs ?_
          rw [List.length_append, hlen]
          exact Nat.le_add_right _ _
      | _ => exact .head rfl (by simp) rfl

/-- What does not wait for arguments is final, whatever it is applied to. -/
theorem Forced.final {v : Value β σ} (hv : G.Forced Γ v) (hf : v.isFunction = false)
    (as : List (Term β σ)) : G.Final (v.source.apps as) := by
  have hstill {t : Term β σ} (hg : G.Good t) (ht : G.Still t) : G.Comes (pure t) (G.whnf t) :=
    gives_iff.mpr fun w hw => ⟨_, ht.yields w, .ok hg hw⟩
  have hgood := hv.1.good
  rw [Value.source_eq, Term.apps_apps]
  obtain ⟨hv, hthunk⟩ := hv
  cases hv with
  | ctor => exact .rest rfl (by simp [Value.head]) rfl (hstill .ctor (still_atom rfl))
  | lit => exact .rest rfl (by simp [Value.head]) rfl (hstill .lit (still_atom rfl))
  | blob hb => exact .rest rfl (by simp [Value.head]) rfl (hstill hb (still_atom rfl))
  | stuck _ hcomes => exact .rest rfl (by simp [Value.head]) rfl hcomes
  | lam | step => cases hf
  | thunk => cases hthunk
  | neutral ht hg =>
      cases ht with
      | free => exact .rest rfl (by simp [Value.head]) rfl (hstill hg (still_atom rfl))
      | uvar => exact .rest rfl (by simp [Value.head]) rfl (hstill hg (still_atom rfl))
      | const hc hbody => exact .rest rfl (by simp [Value.head]) hc (hstill hg (still_const hc hbody))
      | lit => exact .rest rfl (by simp [Value.head]) rfl (hstill hg (still_atom rfl))
      | blob => exact .rest rfl (by simp [Value.head]) rfl (hstill hg (still_atom rfl))
      | declined hs hlen hnow hact =>
          rw [Value.head, Term.apps_apps]
          exact .declined hs hlen hnow hact

/-- What is settled does not wait for arguments, and neither does what is like it. -/
theorem Settled.not_waiting (hG : G.Lawful) {t u : Term β σ} (ht : G.Settled t)
    (htu : G.like.Alike 0 t u) : ¬ G.Waiting u := by
  intro hu
  cases hu with
  | lam =>
      cases ht with
      | head happ hlam _ =>
          obtain ⟨hh, -⟩ := htu.of_apps happ rfl
          cases hh
          exact hlam _ _ rfl
      | declined hs =>
          obtain ⟨hh, -⟩ := htu.of_apps (isApp_of_stepOf hs) rfl
          cases hh
          cases hs
  | @step h' s' xs' hs' hlt =>
      have happ' := isApp_of_stepOf hs'
      cases ht with
      | head happ _ hs =>
          obtain ⟨hh, -⟩ := htu.of_apps happ happ'
          cases hh with
          | const => rw [hs] at hs'; cases hs'
          | native => cases hs
          | _ => cases hs'
      | declined hs hle =>
          obtain ⟨hh, has⟩ := htu.of_apps (isApp_of_stepOf hs) happ'
          obtain ⟨s'', hs'', hss⟩ := exists_stepOf hG hs hh
          obtain rfl : s' = s'' := Option.some.inj (hs'.symm.trans hs'')
          have hlen := has.length_eq
          have harity := (hG.arity hss).2
          omega

/-! ## Choosing a branch -/

section

variable {v : Value β σ}

/-- What a forced value stands for that is neither a constructor with arguments nor a literal: a head that is no
constructor, and no literal unless it is applied, in front of arguments. -/
theorem Forced.shapeless (hv : G.Forced Γ v) (hctor : ∀ c args, v ≠ .ctor c args) (hlit : ∀ l, v ≠ .lit l) :
    ∃ (h : Term β σ) (as : List (Term β σ)), v.source = h.apps as ∧ h.isApp = false ∧ h.strip = h ∧
      (∀ c, h ≠ .ctor c) ∧ ∀ l, h = .lit l → as ≠ [] := by
  have hstep {t : Term β σ} {s : Step σ} (hs : G.stepOf t = some s) : t.isApp = false ∧ t.strip = t ∧
      (∀ c, t ≠ .ctor c) ∧ ∀ l, t ≠ .lit l := by
    refine ⟨isApp_of_stepOf hs, strip_of_stepOf hs, ?_, ?_⟩
    all_goals
      rintro _ rfl
      cases hs
  obtain ⟨hv, hthunk⟩ := hv
  cases hv with
  | ctor => exact absurd rfl (hctor _ _)
  | lit => exact absurd rfl (hlit _)
  | blob => exact ⟨_, [], rfl, rfl, rfl, nofun, nofun⟩
  | lam _ _ _ _ hlt =>
      rw [Value.source, Term.instantiate_lam (Nat.lt_of_le_of_lt (Nat.zero_le _) hlt)]
      exact ⟨_, _, rfl, rfl, rfl, nofun, nofun⟩
  | step hs =>
      obtain ⟨happ, hstrip, hctor, hlit⟩ := hstep hs
      exact ⟨_, _, rfl, happ, hstrip, hctor, fun l hl => absurd hl (hlit l)⟩
  | neutral ht _ hhead =>
      cases ht with
      | declined hs =>
          obtain ⟨happ, hstrip, hctor, hlit⟩ := hstep hs
          rw [Value.source, Term.apps_apps]
          exact ⟨_, _, rfl, happ, hstrip, hctor, fun l hl => absurd hl (hlit l)⟩
      | lit =>
          refine ⟨_, _, rfl, rfl, rfl, nofun, fun l hl hnil => ?_⟩
          exact hhead l hl (Machine.sources_eq_nil_iff.mp hnil)
      | _ => exact ⟨_, _, rfl, rfl, rfl, nofun, nofun⟩
  | stuck => exact ⟨_, _, rfl, rfl, rfl, nofun, nofun⟩
  | thunk => cases hthunk

/-- A forced value stands for a constructor with arguments if it is one. -/
theorem Forced.asCtorApp? (hv : G.Forced Γ v) : v.source.asCtorApp? = match v with
    | .ctor c args => some (c, sources args)
    | _ => none := by
  cases v with
  | ctor c args =>
      obtain ⟨h₁, h₂⟩ := Term.strip_apps (h := .ctor c) rfl rfl (sources args)
      rw [Value.source, Term.asCtorApp?, h₁, h₂]
      rfl
  | lit => rfl
  | _ =>
      obtain ⟨h, as, heq, happ, hstrip, hctor, -⟩ := hv.shapeless (by simp) (by simp)
      rw [heq]
      exact Term.asCtorApp?_apps happ hstrip hctor

/-- A forced value stands for a literal if it is one. -/
theorem Forced.asLit? (hv : G.Forced Γ v) : v.source.asLit? = match v with
    | .lit l => some l
    | _ => none := by
  cases v with
  | ctor => exact Term.asLit?_apps rfl rfl (by simp)
  | lit => rfl
  | _ =>
      obtain ⟨h, as, heq, happ, hstrip, -, hlit⟩ := hv.shapeless (by simp) (by simp)
      rw [heq]
      exact Term.asLit?_apps happ hstrip hlit

/-- Under the binders of a pattern, the values that it binds are put in after those of the frame, or
all at once. -/
theorem instantiate_bound {frame bound : List (Value β σ)} {b b' : Term β σ}
    (hframe : ∀ f ∈ frame, f.source.Canonical ∧ f.source.Closed)
    (hb : (b.instantiate bound.length (sources frame)).beta? (sources bound) = some b') :
    b' = b.instantiate 0 (sources (bound.reverse ++ frame)) := by
  have hfs : ∀ t ∈ sources frame, t.Canonical := by
    intro t ht
    obtain ⟨f, hf, rfl⟩ := Machine.mem_sources.mp ht
    exact (hframe f hf).1
  rw [Term.beta_of_beta? hb, Term.beta, Machine.sources_append, Machine.sources_reverse,
    ← Term.instantiate_instantiate hfs, List.length_reverse, Machine.length_sources, Nat.zero_add]

end

/-- What the machine and reduction know of a branch that both choose: the one has its code and the values for its
variables, the other the term that it is with these put in, unless that leaves the range of indices. -/
structure Chosen (G : Ground β σ) (Γ : List (Term β σ)) (frame : List (Value β σ))
    (c : (Term β σ × Code β σ) × List (Value β σ)) (b? : Option (Term β σ)) : Prop where
  /-- The term is the body of the branch, in the frame with the values. -/
  term : ∀ b, b? = some b → b = c.1.1.instantiate 0 (sources (c.2.reverse ++ frame))
  /-- The code is that of the body. -/
  compiled : G.Compiled Γ c.1.1 c.1.2
  /-- The frame is long enough for the body. -/
  body : G.like.Alike (c.2.reverse ++ frame).length c.1.1 c.1.1
  /-- The values are well formed. -/
  bound : ∀ a ∈ c.2, G.Formed Γ a

/-- The code of the branch runs in well-formed values. -/
theorem Chosen.frame {frame : List (Value β σ)} {c : (Term β σ × Code β σ) × List (Value β σ)}
    {b? : Option (Term β σ)} (h : G.Chosen Γ frame c b?) (hframe : ∀ f ∈ frame, G.Formed Γ f) :
    ∀ f ∈ c.2.reverse ++ frame, G.Formed Γ f :=
  List.forall_mem_append.mpr ⟨fun f hf => h.bound f (List.mem_reverse.mp hf), hframe⟩

section

variable {v : Value β σ} {frame : List (Value β σ)} (hv : G.Forced Γ v)
  (hframe : ∀ f ∈ frame, f.source.Canonical ∧ f.source.Closed) {brs : List (Branch (Term β σ))}
  {cs : List (Branch (Term β σ × Code β σ))} (hcs : G.CompiledBranches Γ brs cs)
  (hbrs : G.like.AlikeBranches frame.length brs brs)

include hv hframe hcs hbrs

/-- The machine and reduction choose the same branch, with the same values for its variables, or none. -/
theorem select_rel :
    Option.Rel (G.Chosen Γ frame) (Machine.select v cs)
      (Reduce.select v.source (instantiateBranches (sources frame) brs)) := by
  induction brs generalizing cs with
  | nil =>
      cases hcs
      exact .none
  | cons br brs ih =>
      cases hcs with
      | @cons p b c _ cs hc hcs =>
          cases hbrs with
          | cons hb hbrs =>
              have hrest := ih hcs hbrs
              cases p with
              | wild => exact .some ⟨fun _ heq => (Option.some.inj heq).symm, hc, hb, by simp⟩
              | var =>
                  refine .some ⟨fun b heq => ?_, hc, ?_, fun a ha => ?_⟩
                  · exact @instantiate_bound _ _ _ [v] _ _ hframe heq
                  · rw [List.length_append, Nat.add_comm]
                    exact hb
                  · obtain rfl := List.mem_singleton.mp ha
                    exact hv.1
              | lit l =>
                  show Option.Rel _ _ (Reduce.select v.source
                    (⟨.lit l, b.instantiate 0 (sources frame)⟩ :: instantiateBranches _ brs))
                  rw [Reduce.select, hv.asLit?]
                  cases v with
                  | lit l' =>
                      rw [Machine.select]
                      dsimp only
                      split
                      · exact .some ⟨fun _ heq => (Option.some.inj heq).symm, hc, hb, by simp⟩
                      · exact hrest
                  | _ => exact .none
              | ctor d n =>
                  show Option.Rel _ _ (Reduce.select v.source
                    (⟨.ctor d n, b.instantiate n (sources frame)⟩ :: instantiateBranches _ brs))
                  rw [Reduce.select, hv.asCtorApp?]
                  cases v with
                  | ctor d' args =>
                      rw [Machine.select]
                      dsimp only
                      rw [Machine.length_sources]
                      split
                      next hd =>
                        obtain ⟨rfl, rfl⟩ := hd
                        refine .some ⟨fun _ heq => instantiate_bound hframe heq, hc, ?_, hv.1.args⟩
                        rw [List.length_append, List.length_reverse, Nat.add_comm]
                        exact hb
                      next => exact hrest
                  | _ => exact .none

theorem select_some {c : (Term β σ × Code β σ) × List (Value β σ)} (h : Machine.select v cs = some c) :
    ∃ b?, Reduce.select v.source (instantiateBranches (sources frame) brs) = some b? ∧
      G.Chosen Γ frame c b? := by
  have hrel := select_rel hv hframe hcs hbrs
  rw [h] at hrel
  generalize Reduce.select v.source _ = x at hrel
  cases hrel with
  | some hc => exact ⟨_, rfl, hc⟩

theorem select_none (h : Machine.select v cs = none) :
    Reduce.select v.source (instantiateBranches (sources frame) brs) = none := by
  have hrel := select_rel hv hframe hcs hbrs
  rw [h] at hrel
  generalize Reduce.select v.source _ = x at hrel
  cases hrel
  rfl

end

/-! ## What terms become -/

section

variable (G)

/-- How a value goes on with arguments. -/
def App (v : Value β σ) (as : List (Term β σ)) : Family (Halt β) (World β σ) (Term β σ) :=
  if v.isFunction then G.whnf (v.source.apps as) else fun _ _ => pure (v.source.apps as)

/-- Whatever it is applied to, the term goes on as the value does. -/
def Becomes (t : Term β σ) (v : Value β σ) : Prop :=
  ∀ m as, G.GoodArgs as → G.Comes m (G.App v as) → G.Comes m (G.whnf (t.apps as))

/-- Whatever it is applied to, reducing the term breaks off for this reason. -/
def Fails (t : Term β σ) (e : Halt β) : Prop :=
  ∀ as, G.GoodArgs as → G.Comes (throw e) (G.whnf (t.apps as))

/-- Applied to arguments, the one value goes on as the other one does. -/
def Into (v : Value β σ) (args : List (Term β σ)) (u : Value β σ) : Prop :=
  ∀ m as, G.GoodArgs as → G.Comes m (G.App u as) → G.Comes m (G.App v (args ++ as))

/-- Applied to arguments, the value breaks off for this reason. -/
def FailsInto (v : Value β σ) (args : List (Term β σ)) (e : Halt β) : Prop :=
  ∀ as, G.GoodArgs as → G.Comes (throw e) (G.App v (args ++ as))

end

section

variable (hG : G.Lawful) {t : Term β σ} {v u : Value β σ} {args : List (Term β σ)} {e : Halt β}
  {m : Ideal β (Term β σ)}

theorem Becomes.into (hargs : G.GoodArgs args) (h : G.Becomes t v) (hv : G.Into v args u) :
    G.Becomes (t.apps args) u := by
  intro m as has hm
  rw [Term.apps_apps]
  exact h m _ (hargs.append has) (hv m as has hm)

theorem Becomes.failsInto (hargs : G.GoodArgs args) (h : G.Becomes t v)
    (hv : G.FailsInto v args e) : G.Fails (t.apps args) e := by
  intro as has
  rw [Term.apps_apps]
  exact h _ _ (hargs.append has) (hv as has)

theorem Fails.apps (hargs : G.GoodArgs args) (h : G.Fails t e) : G.Fails (t.apps args) e := by
  intro as has
  rw [Term.apps_apps]
  exact h _ (hargs.append has)

theorem Fails.comes (h : G.Fails t e) : G.Comes (throw e) (G.whnf t) := by
  have hnil := h [] .nil
  rwa [Term.apps_nil] at hnil

theorem Into.refl (v : Value β σ) : G.Into v [] v := fun _ _ _ hm => hm

/-- Without arguments a value goes on with nothing but its source. -/
theorem Forced.yields_app (hv : G.Forced Γ v) (w : World β σ) :
    Yields (G.App v []) w (.ok v.source w) := by
  rw [App, Term.apps_nil]
  by_cases hf : v.isFunction = true
  · rw [if_pos hf]
    exact (hv.1.waiting hf).yields w
  · rw [if_neg hf]
    exact Yields.const (pure v.source) w

theorem Forced.comes_app (hv : G.Forced Γ v) : G.Comes (pure v.source) (G.App v []) :=
  gives_iff.mpr fun w hw => ⟨_, hv.yields_app w, .ok hv.1.good hw⟩

theorem Becomes.comes (hv : G.Forced Γ v) (h : G.Becomes t v) :
    G.Comes (pure v.source) (G.whnf t) := by
  have hnil := h _ [] .nil hv.comes_app
  rwa [Term.apps_nil] at hnil

/-- A function that waits for arguments is not reduced again when it gets some. -/
theorem Waiting.shifts {f : Term β σ} (hf : G.Waiting f) {as : List (Term β σ)} (has : as ≠ []) :
    Shifts (G.whnf (f.apps as)) (G.whnfApp f as) := by
  have hsplit {h : Term β σ} {xs : List (Term β σ)} (happ : h.isApp = false) (hs : G.Still h) :
      Shifts (G.whnf ((h.apps xs).apps as)) (G.whnfApp (h.apps xs) as) := by
    by_cases hxs : xs = []
    · subst hxs
      rw [Term.apps_nil, Term.apps_of_not_isApp happ has]
      exact ⟨2, 3, fun l n => (whnf_app_of_still hs as l n).symm⟩
    · have hisApp : (h.apps xs).isApp = true := by
        rw [Term.apps_of_not_isApp happ hxs]
        rfl
      exact ⟨1, 0, whnfApp_of_isApp hisApp as⟩
  cases hf with
  | lam hlt => exact hsplit rfl (still_lam _ _)
  | step hs hlt =>
      exact hsplit (isApp_of_stepOf hs)
        (still_step hs (Nat.ne_of_gt (Nat.lt_of_le_of_lt (Nat.zero_le _) hlt)))

theorem Fails.of_comes (happ : t.isApp = false) (h : G.Comes (throw e) (G.whnf t)) : G.Fails t e := by
  intro as _
  by_cases hnil : as = []
  · subst hnil
    rwa [Term.apps_nil]
  · rw [Term.apps_of_not_isApp happ hnil]
    exact h.app_throw

include hG

/-- What is given for free may take the place of what is given. -/
theorem Comes.of_pure {x y : Term β σ} {F : Family (Halt β) (World β σ) (Term β σ)}
    (hm : G.Comes m fun _ _ => pure x) (hF : G.Comes (pure y) F) (hxy : G.like.Alike 0 x y) :
    G.Comes m F := by
  refine gives_iff.mpr fun w hw => ?_
  obtain ⟨r, hy, hr⟩ := gives_iff.mp hm w hw
  obtain ⟨r', hy', hr'⟩ := gives_iff.mp hF w hw
  obtain rfl : (.ok x w : EStateM.Result _ _ _) = r := (Yields.const (pure x) w).unique hy
  refine ⟨r', hy', ?_⟩
  generalize m () = o at hr ⊢
  cases hr with
  | ok hux _ =>
      cases hr' with
      | ok hyz hw' => exact .ok (hG.like_trans hux (hG.like_trans hxy hyz)) hw'
      | escape he => exact .escape he

/-- What reduction gives is final. -/
theorem Comes.final {y : Term β σ} (ht : G.Good t) (h : G.Comes (pure y) (G.whnf t)) :
    G.Gives (fun y z => G.like.Alike 0 y z ∧ G.Final z) (pure y) (G.whnf t) := by
  refine gives_iff.mpr fun w hw => ?_
  obtain ⟨r, hy, hm⟩ := gives_iff.mp h w hw
  refine ⟨r, hy, ?_⟩
  obtain ⟨N, hN⟩ := hy
  have hfinal := (finalAt hG N N).whnf ht w hw
  rw [show Reduce.whnf (G.reduction N) N t w = r from
    hN N (Nat.le_refl N) N (Nat.le_refl N)] at hfinal
  cases hm with
  | ok hyz hw' => exact .ok ⟨hyz, hfinal.1.2⟩ hw'
  | escape he => exact .escape he

/-- The source of a value becomes the value. -/
theorem Becomes.refl (hv : G.Forced Γ v) : G.Becomes v.source v := by
  intro m as has hm
  rw [App] at hm
  by_cases hf : v.isFunction = true
  · rwa [if_pos hf] at hm
  · rw [if_neg hf] at hm
    have hgood := hv.1.good.apps has
    have hfinal := hv.final (Bool.not_eq_true _ ▸ hf) as
    exact Comes.of_pure hG hm (hfinal.comes hG hgood) hgood

/-- A term that is no application becomes the value that it is reduced to. -/
theorem Becomes.of_comes (hv : G.Forced Γ v) (ht : G.Good t) (happ : t.isApp = false)
    (h : G.Comes (pure v.source) (G.whnf t)) : G.Becomes t v := by
  intro m as has hm
  by_cases hnil : as = []
  · subst hnil
    rw [Term.apps_nil]
    have hpure : G.Comes m fun _ _ => pure v.source := by
      refine hm.of_yields fun w r hy => ?_
      obtain rfl := hy.unique (hv.yields_app w)
      exact Yields.const (pure v.source) w
    exact Comes.of_pure hG hpure h hv.1.good
  · rw [Term.apps_of_not_isApp happ hnil]
    refine Tie.Follows.of_succ (F := fun l n => G.whnf t l n >>= fun u => G.whnfApp u as l n)
      (fun l n => by rw [whnf, Reduce.whnf]; rfl) ((h.final hG ht).bind_pure fun z hz => ?_)
    obtain ⟨hz, hfinal⟩ := hz
    rw [App] at hm
    by_cases hf : v.isFunction = true
    · rw [if_pos hf] at hm
      replace hm : G.Comes m (G.whnfApp v.source as) := hm.of_shifts ((hv.1.waiting hf).shifts hnil)
      exact hm.congr_whnfApp hG hz has
    · rw [if_neg hf] at hm
      have hgood := hG.good_right hz
      rcases hfinal.waiting_or_comes hG hgood with hw | hz'
      · exact absurd hw ((hv.settled (Bool.not_eq_true _ ▸ hf)).not_waiting hG hz)
      · exact Comes.of_pure hG hm (hz' as has) (hz.apps has)

end

end Ground

end TacticEngine
