/-
# TacticEngine.Proofs.Native.Locality -- what of the registry a run depends on.

In worlds that are beside each other, a local program does the same: step by step it gets the same answers,
and the worlds stay beside each other (`Local.aligned`).  That rests on the same fact about the steps fired
by the reductions it asks for, so both are proved together, by induction on the depth of nesting
(`aligned_evaluate_interp`).  Two amounts of registering may be left out on the two sides, and then nothing
distinguishes them; so all this holds in both directions.
-/
import TacticEngine.Proofs.Native.Scope
import TacticEngine.Proofs.Native.States
import TacticEngine.Proofs.Run.Outcome

namespace TacticEngine.Native

variable {κ α γ : Type}

/-! ## Going side by side -/

/-- Worlds that are beside each other, and issues that may come up. -/
def Scope.tie (S : Scope κ) (host : Host κ) :
    Tie (Halt (Content κ)) (World κ) (Halt (Content κ)) (World κ) where
  state := S.Beside host
  halt e e' := e = e' ∧ ∀ i, e = .issue i → S.issue i
  mute e _ := e = .exhausted
  escape _ _ := False

/-- The act gives in a world what the family gives in one beside it, and that has the property. -/
def Scope.Aligned (S : Scope κ) (host : Host κ) (V : α → Prop) (act : Act κ α)
    (F : Nat → Act κ α) : Prop :=
  (S.tie host).Follows (fun a a' => a = a' ∧ V a) act fun l _ => F l

section

variable {S : Scope κ} {host : Host κ}

namespace Scope.Aligned

variable {V : α → Prop} {U : γ → Prop} {act : Act κ α} {F : Nat → Act κ α}

theorem pure {a : α} (ha : V a) : S.Aligned host V (Pure.pure a) fun _ => Pure.pure a :=
  Tie.Follows.pure ⟨rfl, ha⟩

theorem fail {e : Issue κ} (he : S.issue e) :
    S.Aligned host V (throw (.issue e)) fun _ => throw (.issue e) :=
  Tie.Follows.throw ⟨rfl, by rintro _ ⟨⟩; exact he⟩

theorem overflow : S.Aligned host V (throw .overflow) fun _ => throw .overflow :=
  Tie.Follows.throw ⟨rfl, nofun⟩

theorem bind {f : α → Act κ γ} {G : α → Nat → Act κ γ} (h : S.Aligned host V act F)
    (hf : ∀ a, V a → S.Aligned host U (f a) (G a)) :
    S.Aligned host U (act >>= f) fun l => F l >>= fun a => G a l := by
  refine Tie.Follows.bind h ?_
  rintro a _ ⟨rfl, ha⟩
  exact hf a ha

/-- An act without fuel that keeps worlds beside each other. -/
theorem const {act' : Act κ α}
    (h : ∀ w w', S.Beside host w w' → ∃ a w₁ w₁', act w = .ok a w₁ ∧ act' w' = .ok a w₁' ∧ V a ∧
      S.Beside host w₁ w₁') : S.Aligned host V act fun _ => act' := by
  refine Tie.Follows.const fun w w' hw => ?_
  obtain ⟨a, w₁, w₁', hact, hact', ha, hbeside⟩ := h w w' hw
  rw [hact, hact']
  exact .ok ⟨rfl, ha⟩ hbeside

theorem update {f f' : World κ → World κ}
    (h : ∀ w w', S.Beside host w w' → S.Beside host (f w) (f' w')) :
    S.Aligned host (fun _ => True) (modify f : Act κ Unit) fun _ => modify f' :=
  const fun w w' hw => ⟨(), f w, f' w', rfl, rfl, trivial, h w w' hw⟩

/-- An update of the world on the left only. -/
theorem left {f : World κ → World κ} (hf : ∀ w w', S.Beside host w w' → S.Beside host (f w) w')
    (h : S.Aligned host V act F) : S.Aligned host V (modify f >>= fun _ => act) F :=
  fun w w' hw => h (f w) w' (hf w w' hw)

/-- An update of the world on the right only. -/
theorem right {f : World κ → World κ} (hf : ∀ w w', S.Beside host w w' → S.Beside host w (f w'))
    (h : S.Aligned host V act F) : S.Aligned host V act fun l => modify f >>= fun _ => F l :=
  fun w w' hw => h w (f w') (hf w w' hw)

end Scope.Aligned

theorem Scope.fair : (S.tie host).Fair S.likeness where
  exhausted _ := rfl
  overflow := .inr ⟨rfl, nofun⟩
  fired := by
    intro w w' s s' ts ts' hw hs hts
    obtain rfl := likeness_strict.step_eq hs
    obtain rfl := hts.eq likeness_strict
    exact hw.noted _
  debug level text := by
    refine Tie.Follows.const fun w w' hw => ?_
    have hdebugging : w.debugging = w'.debugging := by cases hw; rfl
    rw [Act.debug_run, Act.debug_run, hdebugging]
    split
    · exact .ok trivial (hw.logged _)
    · exact .ok trivial hw

/-! ## Programs -/

section Programs

/-- Reductions within the scope, with tables that mean the same by every name that may come up. -/
def Scope.AlignedReductions (S : Scope κ) (host : Host κ)
    (reduce : Reduction (Content κ) (Body κ) → Act κ (Term κ))
    (reduce' : Nat → Reduction (Content κ) (Body κ) → Act κ (Term κ)) : Prop :=
  ∀ r steps, S.CoversReduction r →
    (∀ c, S.const c → StepTable.lookup r.steps c = StepTable.lookup steps c) →
      S.Aligned host S.Covers (reduce r) fun l => reduce' l { r with steps }

variable {V : α → Prop} {U : γ → Prop} {p p' : Program κ α}
  {reduce : Reduction (Content κ) (Body κ) → Act κ (Term κ)}
  {reduce' : Nat → Reduction (Content κ) (Body κ) → Act κ (Term κ)}

theorem aligned_run_bind {f f' : α → Program κ γ}
    (hp : S.Aligned host V (p.run reduce) fun l => p'.run (reduce' l))
    (hf : ∀ a, V a → S.Aligned host U ((f a).run reduce) fun l => (f' a).run (reduce' l)) :
    S.Aligned host U ((p >>= f).run reduce) fun l => (p' >>= f').run (reduce' l) := by
  show S.Aligned host U ((p.bind f).run reduce) fun l => (p'.bind f').run (reduce' l)
  simp only [Program.run_bind]
  exact hp.bind hf

/-- A request whose answer is the same in worlds beside each other. -/
theorem aligned_request {r : Request (Content κ) (Body κ)} (hr : plainRequest r) :
    S.Aligned host (fun _ => True) ((Program.request r).run reduce)
      fun l => (Program.request r).run (reduce' l) := by
  refine .bind (V := fun _ => True) ?_ fun a _ => .pure trivial
  cases r with
  | registry | register | reduce => cases hr
  | draw next =>
      refine .const fun w w' hw => ?_
      cases hw with
      | mk registry log hsame hstep =>
          exact ⟨_, _, _, rfl, rfl, trivial, .mk registry log hsame hstep⟩
  | note e => exact .update fun _ _ hw => hw.noted e
  | log r => exact .update fun _ _ hw => hw.logged r
  | enterSpan => exact .update fun _ _ hw => hw.enteredSpan
  | leaveSpan key =>
      refine Tie.Follows.const fun w w' hw => ?_
      have hroom : w.hasRoom key = w'.hasRoom key := by cases hw; rfl
      show Tie.Matches _ _ (Act.leaveSpan key w) (Act.leaveSpan key w')
      rw [Act.leaveSpan_run, Act.leaveSpan_run, hroom]
      split
      · exact .ok ⟨rfl, trivial⟩ (hw.leftSpan key)
      · exact .error ⟨rfl, nofun⟩ (hw.leftSpan key)
  | debug text? =>
      refine Tie.Follows.const fun w w' hw => ?_
      have hdebugging : w.debugging = w'.debugging := by cases hw; rfl
      show Tie.Matches _ _ (Act.debug .debug text? w) (Act.debug .debug text? w')
      rw [Act.debug_run, Act.debug_run, hdebugging]
      split
      · cases text? () with
        | none => exact .error ⟨rfl, nofun⟩ hw
        | some text => exact .ok ⟨rfl, trivial⟩ (hw.logged _)
      · exact .ok ⟨rfl, trivial⟩ hw

/-- Issues become values on both sides. -/
theorem aligned_attempt (hp : S.Aligned host V (p.run reduce) fun l => p'.run (reduce' l)) :
    S.Aligned host (Attempted S V) (p.attempt.run reduce) fun l => p'.attempt.run (reduce' l) := by
  intro w w' hw
  rcases hp w w' hw with ⟨e, w₁, hr, rfl⟩ | ⟨r', ⟨N, hN⟩, hm⟩
  · refine .inl ⟨.exhausted, w₁, ?_, rfl⟩
    rw [Program.run_attempt, hr]
    rfl
  · refine .inr ⟨Program.caught r', ⟨N, fun l hl n hn => ?_⟩, ?_⟩
    · exact (Program.run_attempt _ _ _).trans (congrArg Program.caught (hN l hl n hn))
    · rw [Program.run_attempt]
      generalize p.run reduce w = r at hm
      cases hm with
      | ok ha hs => exact .ok ⟨congrArg _ ha.1, ha.2⟩ hs
      | @error e e' _ _ he hs =>
          obtain ⟨rfl, hissue⟩ := he
          cases e with
          | issue i => exact .ok ⟨rfl, hissue i rfl⟩ hs
          | overflow => exact .error ⟨rfl, nofun⟩ hs
          | exhausted => exact .error ⟨rfl, nofun⟩ hs
      | escape he => exact he.elim

theorem aligned_ofExcept {x : Except (Issue κ) α} (hx : Attempted S V x) :
    S.Aligned host V ((Program.ofExcept x).run reduce) fun l => (Program.ofExcept x).run (reduce' l) := by
  cases x with
  | ok a => exact .pure hx
  | error e => exact .fail hx

theorem aligned_span (m : Option String) (name : String)
    (hp : S.Aligned host V (p.run reduce) fun l => p'.run (reduce' l)) :
    S.Aligned host V ((p.span m name).run reduce) fun l => (p'.span m name).run (reduce' l) :=
  aligned_run_bind (aligned_request trivial) fun _ _ => aligned_run_bind (aligned_attempt hp)
    fun _ hx => aligned_run_bind (aligned_request trivial) fun _ _ => aligned_ofExcept hx

theorem aligned_reduce (hreduce : S.AlignedReductions host reduce reduce')
    {r : Reduction (Content κ) (Body κ)} (hr : S.CoversReduction r) {steps : StepTable (Body κ)}
    (hsteps : ∀ c, S.const c → StepTable.lookup r.steps c = StepTable.lookup steps c) :
    S.Aligned host S.Covers ((Program.reduce r).run reduce)
      fun l => (Program.reduce { r with steps }).run (reduce' l) := by
  have h := hreduce r steps hr hsteps
  simp only [Program.run_reduce]
  exact h

theorem aligned_allocate (m : StateM Nat α) :
    S.Aligned host (fun a => ∃ n, a = (m n).1) ((Program.allocate m).run reduce)
      fun l => (Program.allocate m).run (reduce' l) := by
  refine .const fun w w' hw => ?_
  cases hw with
  | mk registry log hsame hstep =>
      exact ⟨_, _, _, rfl, rfl, ⟨w.supply, rfl⟩, .mk registry log hsame hstep⟩

theorem aligned_debug (text? : Unit → Option String) :
    S.Aligned host (fun _ => True) ((Program.debug text?).run reduce)
      fun l => (Program.debug text?).run (reduce' l) :=
  aligned_request (r := .debug text?) trivial

end Programs

section Runs

variable {reduce : Reduction (Content κ) (Body κ) → Act κ (Term κ)}
  {reduce' : Nat → Reduction (Content κ) (Body κ) → Act κ (Term κ)} {engine : Engine κ}
  {result : Codec κ} {tactic : Term κ} {args : List (Term κ)} {s : ProofState κ}

/-- Running a metaprogram with two tables that mean the same by all names that may come up. -/
theorem aligned_runOn (hS : S.Closed host) (hreduce : S.AlignedReductions host reduce reduce')
    (ht : S.Covers tactic) (has : ∀ t ∈ args, S.Covers t) (hs : S.CoversState s)
    {steps steps' : StepTable (Body κ)} (hsteps : S.CoversTable steps)
    (hsame : ∀ c, S.const c → StepTable.lookup steps c = StepTable.lookup steps' c) :
    S.Aligned host (S.Conveys (.outcome result))
      ((engine.runOn result tactic args s steps).run reduce)
      fun l => (engine.runOn result tactic args s steps').run (reduce' l) := by
  refine aligned_run_bind (aligned_allocate _) ?_
  rintro _ ⟨id, rfl⟩
  have hstate : S.Covers (Codec.embed .proofState (.state s) id).1 :=
    Scope.covers_iff.mpr (.blob ⟨rfl, hs.2 id⟩)
  let r : Reduction (Content κ) (Body κ) :=
    ⟨engine.backend, steps, s.mainContext, tactic,
      args ++ [(Codec.embed .proofState (.state s) id).1]⟩
  have hr : S.CoversReduction r :=
    ⟨hsteps, hs.1, ht, List.forall_mem_append.mpr ⟨has, List.forall_mem_singleton.mpr hstate⟩⟩
  refine aligned_run_bind (aligned_span _ _ (aligned_reduce hreduce hr hsame)) fun normal hnormal => ?_
  cases ho : (Codec.outcome result).decode normal with
  | some o => exact aligned_run_bind (aligned_debug _) fun _ _ => .pure ⟨normal, hnormal, ho⟩
  | none => exact aligned_run_bind (aligned_debug _) fun _ _ => .fail (hS.stuck _ _ hnormal)

/-- Snapshots of registries that agree on the names which are looked up there. -/
theorem snapshot_same {native registry registry' : List (Step κ)} (hnative : S.CoversTable native)
    (hsame : ∀ c, S.const c → StepTable.lookup native c = none →
      StepTable.lookup registry c = StepTable.lookup registry' c)
    (hstep : ∀ c st, S.const c → StepTable.lookup native c = none →
      StepTable.lookup registry c = some st → S.step st) :
    S.CoversTable (StepTable.snapshot native registry) ∧ ∀ c, S.const c →
      StepTable.lookup (StepTable.snapshot native registry) c =
        StepTable.lookup (StepTable.snapshot native registry') c := by
  constructor
  · intro c st hc hst
    rw [StepTable.lookup_snapshot] at hst
    cases hn : StepTable.lookup native c with
    | some st' =>
        rw [hn, Option.some_or] at hst
        exact hnative c st hc (hn.trans hst)
    | none =>
        rw [hn, Option.none_or] at hst
        exact hstep c st hc hn hst
  · intro c hc
    rw [StepTable.lookup_snapshot, StepTable.lookup_snapshot]
    cases hn : StepTable.lookup native c with
    | some st => rw [Option.some_or, Option.some_or]
    | none => rw [Option.none_or, Option.none_or, hsame c hc hn]

/-- Running a metaprogram: the two snapshots mean the same. -/
theorem aligned_run (hS : S.Closed host) (hreduce : S.AlignedReductions host reduce reduce')
    (he : S.engine engine) (ht : S.Covers tactic) (has : ∀ t ∈ args, S.Covers t)
    (hs : S.CoversState s) :
    S.Aligned host (S.Conveys (.outcome result))
      ((engine.run host result tactic args s).run reduce)
      fun l => (engine.run host result tactic args s).run (reduce' l) := by
  have hsteps : (S.tie host).Follows (fun steps steps' => S.CoversTable steps ∧
      ∀ c, S.const c → StepTable.lookup steps c = StepTable.lookup steps' c)
      ((engine.steps host).run reduce) fun l _ => (engine.steps host).run (reduce' l) := by
    refine Tie.Follows.const fun w w' hw => .ok ?_ hw
    cases hw with
    | mk registry log hsame hstep =>
        exact snapshot_same (hS.natives engine he) (fun c hc hn => hsame c ⟨engine, he, hc, hn⟩)
          fun c st hc hn => hstep c st ⟨engine, he, hc, hn⟩
  show (S.tie host).Follows _ ((Program.bind (engine.steps host) _).run reduce)
    fun l _ => (Program.bind (engine.steps host) _).run (reduce' l)
  simp only [Program.run_bind]
  exact hsteps.bind fun steps steps' h => aligned_runOn hS hreduce ht has hs h.1 h.2

/-- Registering a step, unless that is left out. -/
theorem aligned_register {names names' : String → Bool}
    (hnames : ∀ c, names c = true → ¬ S.Consulted host c)
    (hnames' : ∀ c, names' c = true → ¬ S.Consulted host c) {s : Step κ}
    (hs : S.Consulted host s.name → S.step s) :
    S.Aligned host (fun _ => True) (((Program.register s).unregistering names).run reduce)
      fun l => ((Program.register s).unregistering names').run (reduce' l) := by
  have hleft (hn : ¬ S.Consulted host s.name) (w w' : World κ) (hw : S.Beside host w w') :=
    hw.registered_left hn
  have hright (hn : ¬ S.Consulted host s.name) (w w' : World κ) (hw : S.Beside host w w') :=
    (hw.symm.registered_left hn).symm
  simp only [Program.unregistering_register]
  cases hn : names s.name <;> cases hn' : names' s.name
  · exact .bind (.update fun w w' hw => hw.registered hs) fun _ _ => .pure trivial
  · exact .left (hleft (hnames' _ hn')) (.pure trivial)
  · exact .right (hright (hnames _ hn)) (.pure trivial)
  · exact .pure trivial

/-- A program that is local does the same in worlds beside each other, also if registrations of names that
are not looked up are left out, on either side. -/
theorem Local.aligned (hS : S.Closed host) (hreduce : S.AlignedReductions host reduce reduce')
    {names names' : String → Bool} (hnames : ∀ c, names c = true → ¬ S.Consulted host c)
    (hnames' : ∀ c, names' c = true → ¬ S.Consulted host c) {V : α → Prop} {p : Program κ α}
    (hp : Local host S V p) : S.Aligned host V ((p.unregistering names).run reduce)
      fun l => (p.unregistering names').run (reduce' l) := by
  induction hp with
  | pure ha => exact .pure ha
  | fail he => exact .fail he
  | overflow => exact .overflow
  | @request r hr =>
      have hreg : ∀ s, r ≠ .register s := by
        rintro s rfl
        cases hr
      simp only [Program.request, Program.unregistering_ask hreg]
      exact aligned_request hr
  | register hs => exact aligned_register hnames hnames' hs
  | reduce hr =>
      simp only [Program.unregistering_reduce]
      exact aligned_reduce hreduce hr fun _ _ => rfl
  | run he ht has hs =>
      simp only [unregistering_run]
      exact aligned_run hS hreduce he ht has hs
  | bind _ _ ihp ihf =>
      simp only [Program.unregistering_bind]
      exact aligned_run_bind ihp ihf
  | attempt _ ih =>
      simp only [Program.unregistering_attempt]
      exact aligned_attempt ih

end Runs

/-! ## Steps and reductions -/

section Evaluation

variable {names names' : String → Bool}

/-- What makes compiled evaluations go side by side, given that steps do. -/
theorem Scope.setting_like (hS : S.Closed host) {n : Nat}
    (hinterp : ∀ s env ts, S.step s → S.CoversEnv env → (∀ t ∈ ts, S.Covers t) →
      S.Aligned host (fun t? => ∀ t ∈ t?, S.Covers t)
        (Native.interp (host.unregistering names) n s.body env ts)
        fun l => Native.interp (host.unregistering names') l s.body env ts)
    {steps steps' : StepTable (Body κ)} (hsteps : S.CoversTable steps)
    (hsame : ∀ c, S.const c → StepTable.lookup steps c = StepTable.lookup steps' c)
    {env : Env κ} (henv : S.CoversEnv env) :
    Machine.Setting.Like (S.tie host) S.likeness S.const
      (machineSetting (host.unregistering names) (Native.interp (host.unregistering names) n) steps env)
      (machineSetting (host.unregistering names') (Native.interp (host.unregistering names') n)
        steps' env) (Native.interp (host.unregistering names')) where
  lookup c hc := by
    show Option.Rel S.likeness.step (StepTable.lookup steps c) (StepTable.lookup steps' c)
    rw [← hsame c hc]
    cases hs : StepTable.lookup steps c with
    | none => exact .none
    | some s => exact .some ⟨rfl, hsteps c s hc hs⟩
  plain_of_lookup c hc _ := hc
  const_of_plain c hc := hc
  unfoldable c _ := by
    show Option.Rel (S.likeness.Alike 0) (env.unfoldable c) (env.unfoldable c)
    cases ht : env.unfoldable c with
    | none => exact .none
    | some t => exact .some (covers_iff.mp (henv.unfoldable ht))
  interp := by
    rintro s _ ts ts' ⟨rfl, hs⟩ hts
    obtain rfl := hts.eq likeness_strict
    refine Tie.Follows.imp ?_ (hinterp s env ts hs henv (covers_args_iff.mpr hts))
    rintro t? _ ⟨rfl, ht⟩
    cases t? with
    | none => exact .none
    | some t => exact .some (covers_iff.mp (ht t rfl))
  direct := by
    rintro s _ ⟨rfl, hs⟩
    show Option.Rel _ (interpretDirect host s.body) (interpretDirect host s.body)
    cases hbody : s.body with
    | rule label =>
        cases hf : host.direct label with
        | none =>
            simp only [interpretDirect, hf]
            exact .none
        | some f =>
            simp only [interpretDirect, hf]
            refine .some fun vs vs' hvs => ?_
            obtain rfl := hvs.eq likeness_strict
            refine Tie.Follows.const fun w w' hw => .ok ?_ (hw.noted _)
            cases hv : f vs with
            | none => exact .none
            | some v => exact .some (hS.direct s label f vs v hs hbody hf hvs hv)
    | total | tactic => exact .none
  unbound := .inr fun i => ⟨rfl, by rintro _ ⟨⟩; exact hS.unbound i⟩

/-- To any depth of nesting, reductions and steps go side by side. -/
theorem aligned_evaluate_interp (hS : S.Closed host)
    (hnames : ∀ c, names c = true → ¬ S.Consulted host c)
    (hnames' : ∀ c, names' c = true → ¬ S.Consulted host c) (n : Nat) :
    S.AlignedReductions host (evaluate (host.unregistering names) n)
        (evaluate (host.unregistering names')) ∧
      ∀ s env ts, S.step s → S.CoversEnv env → (∀ t ∈ ts, S.Covers t) →
        S.Aligned host (fun t? => ∀ t ∈ t?, S.Covers t)
          (Native.interp (host.unregistering names) n s.body env ts)
          fun l => Native.interp (host.unregistering names') l s.body env ts := by
  -- Reductions fire steps and steps ask for reductions, each with one unit of fuel less.
  induction n with
  | zero => exact ⟨fun r steps _ _ => .mute fun _ => rfl, fun s env ts _ _ _ => .mute fun _ => rfl⟩
  | succ n ih =>
      constructor
      · intro r steps hr hsame
        have hlike := Scope.setting_like hS ih.2 hr.steps hsame hr.env
        refine Tie.Follows.imp ?_ (evaluate_follows Scope.fair Scope.keepsArity rfl hlike
          (Scope.covers_iff.mp hr.tactic) (Scope.covers_args_iff.mp hr.args))
        intro t t' ht
        obtain rfl := ht.eq Scope.likeness_strict
        exact ⟨rfl, Scope.covers_iff.mpr ht⟩
      · intro s env ts hs henv hts
        have hlocal := (hS.interp s env ts hs henv hts).aligned hS ih.1 hnames hnames'
        simp only [← interpret_unregistering] at hlocal
        exact Tie.Follows.of_level (fun l => by rw [Native.interp]) hlocal

end Evaluation

/-! ## Outcomes -/

section Outcomes

variable {V : α → Prop} {F F' : Nat → Act κ α} {w w' : World κ}

theorem Scope.tie_exact : (S.tie host).Exact where
  mute _ _ := id
  halt _ _ := And.left
  escape _ _ := id

/-- Runs that go side by side, seen from either, end alike. -/
theorem Scope.Aligned.sameOutcome (h : ∀ n, S.Aligned host V (F n) F')
    (h' : ∀ n, S.Aligned host V (F' n) F) (hw : S.Beside host w w') : SameOutcome F w F' w' :=
  .of_follows Scope.tie_exact (fun _ _ => And.left) h (fun _ => rfl) hw h' (fun _ => rfl) hw.symm

end Outcomes

/-- With the steps given, the outcome depends on the registry only in so far as nested runs do: not on what
else is registered, by others or by the steps of the run themselves. -/
theorem runOn_sameOutcome (hS : S.Closed host) (engine : Engine κ) (result : Codec κ)
    {tactic : Term κ} {args : List (Term κ)} {s : ProofState κ} (ht : S.Covers tactic)
    (has : ∀ t ∈ args, S.Covers t) (hs : S.CoversState s) {steps steps' : StepTable (Body κ)}
    (hsteps : S.CoversTable steps)
    (hsame : ∀ c, S.const c → StepTable.lookup steps c = StepTable.lookup steps' c)
    {names names' : String → Bool} (hnames : ∀ c, names c = true → ¬ S.Consulted host c)
    (hnames' : ∀ c, names' c = true → ¬ S.Consulted host c) {w w' : World κ}
    (hw : S.Beside host w w') :
    SameOutcome (execute (host.unregistering names) · (engine.runOn result tactic args s steps)) w
      (execute (host.unregistering names') · (engine.runOn result tactic args s steps')) w' := by
  have hsteps' : S.CoversTable steps' :=
    fun c st hc hst => hsteps c st hc ((hsame c hc).trans hst)
  refine Scope.Aligned.sameOutcome (V := S.Conveys (.outcome result)) (fun n => ?_) (fun n => ?_) hw
  · exact aligned_runOn hS (aligned_evaluate_interp hS hnames hnames' n).1 ht has hs hsteps hsame
  · exact aligned_runOn hS (aligned_evaluate_interp hS hnames' hnames n).1 ht has hs hsteps'
      fun c hc => (hsame c hc).symm

/-- A run begins with a snapshot, and has no other look at the registry. -/
theorem execute_run (host : Host κ) (engine : Engine κ) (result : Codec κ) (tactic : Term κ)
    (args : List (Term κ)) (s : ProofState κ) (n : Nat) (w : World κ) :
    execute host n (engine.run host result tactic args s) w =
      execute host n (engine.runOn result tactic args s
        (StepTable.snapshot (host.natives engine.native) w.registry)) w := by
  show (Program.bind (engine.steps host) _).run (evaluate host n) w = _
  rw [Program.run_bind]
  exact run_bind_ok rfl

/-- The outcome of a run depends on no more of the registry than the steps registered last under those names
that may come up and are not names of native steps: whatever else was registered, in whatever order, the
outcome is the same.  For a snapshot resolves a name to the first native step of that name, and else to the
one registered last; and what is registered after the snapshot was taken, by others or by steps of the run,
makes no difference, unless under names that nested runs look up. -/
theorem registry_locality (hS : S.Closed host) {engine : Engine κ} (result : Codec κ)
    {tactic : Term κ} {args : List (Term κ)} {s : ProofState κ}
    (hnatives : S.CoversTable (host.natives engine.native)) (ht : S.Covers tactic)
    (has : ∀ t ∈ args, S.Covers t) (hs : S.CoversState s) (w : World κ)
    {history history' : List (Step κ)}
    (hsame : ∀ c, S.Relevant host engine c → latest history c = latest history' c)
    (hstep : ∀ c st, S.Relevant host engine c →
      StepTable.lookup (w.after history).registry c = some st → S.step st) :
    let steps := StepTable.snapshot (host.natives engine.native) (w.after history).registry
    (∀ c, (StepTable.index steps)[c]?.bind (fun i => steps[i]?) =
      (StepTable.lookup (host.natives engine.native) c).or
        ((latest history c).or (StepTable.lookup w.registry c))) ∧
    SameOutcome (execute host · (engine.run host result tactic args s)) (w.after history)
      (execute host · (engine.run host result tactic args s)) (w.after history') ∧
    ∀ later, (∀ st ∈ later, ¬ S.Consulted host st.name) →
      ∀ names, (∀ c, names c = true → ¬ S.Consulted host c) →
        SameOutcome (execute host · (engine.runOn result tactic args s steps))
          ((w.after history).after later)
          (execute (host.unregistering names) · (engine.runOn result tactic args s steps))
          (w.after history) := by
  intro steps
  have hnone : ∀ c, (fun _ : String => false) c = true → ¬ S.Consulted host c := nofun
  have hregistry : ∀ c, S.const c → StepTable.lookup (host.natives engine.native) c = none →
      StepTable.lookup (w.after history).registry c = StepTable.lookup (w.after history').registry c := by
    intro c hc hn
    rw [w.lookup_after, w.lookup_after, hsame c (.inl ⟨hc, hn⟩)]
  obtain ⟨hsteps, hsteps'⟩ := snapshot_same hnatives hregistry
    fun c st hc hn => hstep c st (.inl ⟨hc, hn⟩)
  refine ⟨fun c => ?_, ?_, fun later hlater names hnames => ?_⟩
  · rw [StepTable.lookup_index, StepTable.lookup_snapshot_after]
  · have hbeside : S.Beside host (w.after history) (w.after history') :=
      Scope.beside_after (fun c hc => hsame c (.inr hc)) fun c st hc => hstep c st (.inr hc)
    have hrun := runOn_sameOutcome hS engine result ht has hs hsteps hsteps' hnone hnone hbeside
    rw [host.unregistering_none] at hrun
    exact hrun.congr (fun n => execute_run ..) fun n => execute_run ..
  · have hbeside : S.Beside host ((w.after history).after later) ((w.after history).after []) := by
      have hlatest : ∀ c, S.Consulted host c → latest later c = none := by
        intro c hc
        refine List.find?_eq_none.mpr fun st hst hname => hlater st (List.mem_reverse.mp hst) ?_
        rwa [eq_of_beq hname]
      refine Scope.beside_after hlatest fun c st hc hst => hstep c st (.inr hc) ?_
      rwa [World.lookup_after, hlatest c hc, Option.none_or] at hst
    have hrun := runOn_sameOutcome hS engine result ht has hs hsteps (fun _ _ => rfl) hnone hnames
      hbeside
    rw [host.unregistering_none] at hrun
    exact hrun

end

/-! ## A task that is delegated -/

/-- Two pieces of native code. -/
inductive Errand where
  /-- It has a metaprogram run. -/
  | delegate
  /-- It registers a step. -/
  | enlist
  deriving DecidableEq

namespace Errand

/-- The step of a piece of code. -/
def step (id : Nat) (name : String) (errand : Errand) : Step Errand :=
  Codec.tacticStep id name [] .unit (.host errand)

/-- The engine that metaprograms are run with. -/
def engine : Engine Errand := ⟨.compiled, .delegate⟩

/-- A host with one native step and no code. -/
def idle : Host Errand where
  name _ := ""
  natives _ := [delegate.step 0 "delegate"]
  rule _ _ _ := return none
  direct _ := none
  total _ _ result _ := result.blank
  tactic _ _ result _ s := return .success result.blank s

/-- The host: a task is delegated to whoever is registered for it, and who enlists puts another one in
charge of the task. -/
def host : Host Errand :=
  { idle with
    tactic := fun errand _ result _ s =>
      match errand with
      | delegate => do
        let _ ← engine.run idle .unit (.const "task") [] s
        return .success result.blank s
      | enlist => do
        Program.register (delegate.step 9 "task")
        return .success result.blank s }

/-- Both names, the steps of both pieces of code, and states without definitions. -/
def scope : Scope Errand where
  const c := c = "delegate" ∨ c = "task"
  blob b := ∀ s, b.kind = .proofState → b.object.content = .state s → s.mainContext.defs = []
  step s := ∃ errand, s.body = .tactic [] .unit (.host errand)
  issue _ := True
  engine e := e = engine

theorem covers_written {s : ProofState Errand} (hs : s.mainContext.defs = []) {o : Outcome Errand Unit}
    (ho : o = .success () s ∨ ∃ e, o = .failed (failureOf e) s) (n : Nat) :
    scope.Covers ((Codec.outcome .unit).encode o n).1 := by
  have hstate (k : Nat) : scope.likeness.Alike 0 (Codec.embed .proofState (.state s) k).1
      (Codec.embed .proofState (.state s) k).1 := by
    refine .blob ⟨rfl, fun s' _ hs' => ?_⟩
    cases hs'
    exact hs
  refine Scope.covers_iff.mpr ?_
  rcases ho with rfl | ⟨e, rfl⟩
  · exact Term.Alike.ctor.apps (.cons .lit (.cons (hstate _) .nil))
  · refine Term.Alike.ctor.apps (.cons ?_ (.cons (hstate _) .nil))
    cases e <;> exact .blob ⟨rfl, fun _ hkind => nomatch hkind⟩

theorem covers_state {s : ProofState Errand} (hs : s.mainContext.defs = []) : scope.CoversState s := by
  refine ⟨fun c d t hd => ?_, fun id s' _ hs' => ?_⟩
  · rw [Env.lookup, hs] at hd
    cases hd
  · cases hs'
    exact hs

theorem covers_natives (e : Engine Errand) : scope.CoversTable (host.natives e.native) := by
  intro c st _ hst
  have hmem := List.mem_of_find?_eq_some hst
  cases List.mem_singleton.mp hmem
  exact ⟨delegate, rfl⟩

theorem closed : scope.Closed host where
  natives e _ := covers_natives e
  interp := by
    rintro st env ts ⟨errand, hbody⟩ henv hts
    have hstate : ∀ vs s, Codec.decodeCall [] ts = some (vs, s) → s.mainContext.defs = [] := by
      intro vs s hcall
      have hholds : ∀ t ∈ ts, Holds (fun s => s.mainContext.defs = []) (fun _ => True) t := by
        intro t ht u hu
        have hu := hts t ht u hu
        constructor
        · rintro b s rfl
          exact hu s
        · exact fun _ _ => trivial
      exact Holds.of_decodeCall hholds hcall
    rw [hbody]
    refine Local.interpret_tactic (V := fun _ s o => o = .success () s) (fun vs s hcall => ?_) ?_
    · refine .bind (.request (r := .note _) trivial) fun _ _ => ?_
      cases errand with
      | delegate =>
          have hs := covers_state (hstate vs s hcall)
          have hrun : Local host scope _ (engine.run host .unit (.const "task") [] s) :=
            .run rfl (by simp [Scope.Covers, Term.subterms, scope]) nofun hs
          exact .bind hrun fun _ _ => .pure rfl
      | enlist => exact .bind (.register fun _ => ⟨delegate, rfl⟩) fun _ _ => .pure rfl
    · rintro vs s o n hcall ho
      exact covers_written (hstate vs s hcall) (ho.imp_right fun ⟨e, _, he⟩ => ⟨e, he⟩) n
  direct := by
    rintro _ _ _ _ _ ⟨_, hbody⟩ hrule
    rw [hbody] at hrule
    cases hrule
  unbound _ := trivial
  stuck _ _ _ := trivial

/-- A proof state without definitions. -/
def start : ProofState Errand := { mainContext := { moduleName := "Idle" }, entryRange := {} }

/-- A history in which the task was someone else's first, and the native step was meant to be replaced. -/
def history : List (Step Errand) :=
  [delegate.step 3 "task", enlist.step 2 "delegate", enlist.step 1 "task"]

/-- The outcome is as if the last step had been the only one registered. -/
theorem registry_locality_errand : Settles
    (execute host · (Engine.run host ⟨.reduce, .delegate⟩ .unit (.const "delegate") [] start))
    (World.after {} history) (.ok (.success () start)) := by
  have hrelevant : ∀ c, scope.Relevant host ⟨.reduce, .delegate⟩ c → c = "task" := by
    have hconsults : ∀ e c, scope.Consults host e c → c = "task" := by
      rintro e c ⟨rfl | rfl, hnone⟩
      · cases hnone
      · rfl
    rintro c (hc | ⟨e, _, hc⟩) <;> exact hconsults _ c hc
  have hsame : ∀ c, scope.Relevant host ⟨.reduce, .delegate⟩ c →
      latest history c = latest [enlist.step 1 "task"] c := by
    intro c hc
    rw [hrelevant c hc]
    rfl
  have hstep : ∀ c st, scope.Relevant host ⟨.reduce, .delegate⟩ c →
      StepTable.lookup (({} : World Errand).after history).registry c = some st → scope.step st := by
    intro c st hc hst
    rw [hrelevant c hc] at hst
    cases hst
    exact ⟨enlist, rfl⟩
  have htactic : scope.Covers (.const "delegate") := by simp [Scope.Covers, Term.subterms, scope]
  have hargs : ∀ t ∈ ([] : List (Term Errand)), scope.Covers t := nofun
  have hlocal := registry_locality closed .unit (covers_natives ⟨.reduce, .delegate⟩) htactic hargs
    (covers_state (s := start) rfl) {} hsame hstep
  refine (hlocal.2.1.1 _).mpr ⟨20, fun n hn => ?_⟩
  obtain ⟨n, rfl⟩ := Nat.exists_eq_add_of_le' hn
  rfl

end Errand

end TacticEngine.Native
