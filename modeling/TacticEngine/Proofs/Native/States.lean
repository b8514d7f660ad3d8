/-
# TacticEngine.Proofs.Native.States -- proof states cannot be forged.

A metaprogram gets hold of proof states only as blobs, and only steps make new ones.  So a property of
proof states that all available steps respect holds of every state that a run ends with, if it holds of
the state that the run is given and of the states in the terms it is made of.  One such property is to
be well formed, and then an invocation has no use for what it does with a state that is not.
-/
import TacticEngine.Native.Dynamic
import TacticEngine.Native.Invocation
import TacticEngine.Proofs.Native.Upheld

namespace TacticEngine.Native

variable {κ : Type}

/-! ## Proof states in a term -/

section

variable (I : ProofState κ → Prop) (avail : Step κ → Prop)

/-- Every proof state in the term has the property, and every native step in it is available. -/
def Holds (t : Term κ) : Prop :=
  ∀ u ∈ t.subterms,
    (∀ b s, u = .blob b → b.kind = .proofState → b.object.content = .state s → I s) ∧
      ∀ st, u = .native st → avail st

/-- The registered steps are available. -/
def Registered (w : World κ) : Prop := ∀ st ∈ w.registry, avail st

/-- The likeness that stands for `Holds`. -/
def stateLikeness : Likeness (Content κ) (Body κ) where
  closed := False
  canonical := False
  const _ := True
  blob b b' := b = b' ∧ ∀ s, b.kind = .proofState → b.object.content = .state s → I s
  step st st' := st = st' ∧ avail st

/-- The available steps, in an environment: they see terms only, and respect the property. -/
structure Respected (host : Host κ) (env : Env κ) : Prop where
  /-- Proof states in definitions have the property. -/
  unfoldable : ∀ c t, env.unfoldable c = some t → Holds I avail t
  /-- No available step looks at values that were not read back. -/
  direct : ∀ st, avail st → interpretDirect host st.body = none
  /-- Given arguments whose proof states have the property, an available step gives such a result, and
  registers only steps that are available. -/
  interp : ∀ st n ts, avail st → (∀ t ∈ ts, Holds I avail t) →
    Keeps (Registered avail) (fun _ => True) (fun t? => ∀ t, t? = some t → Holds I avail t)
      (interp host n st.body env ts)

end

section

variable {I : ProofState κ → Prop} {avail : Step κ → Prop} {host : Host κ} {env : Env κ}

theorem stateLikeness_strict : (stateLikeness I avail).Strict := ⟨And.left, And.left⟩

theorem holds_iff {t : Term κ} : Holds I avail t ↔ (stateLikeness I avail).Alike 0 t t := by
  constructor
  · intro h
    refine Term.alike_self False.elim False.elim fun u hu => ?_
    cases u with
    | blob b => exact ⟨rfl, fun s => (h _ hu).1 b s rfl⟩
    | native st => exact ⟨rfl, (h _ hu).2 st rfl⟩
    | _ => trivial
  · intro h u hu
    have hfits := h.fits u hu
    constructor
    · rintro b s rfl
      exact hfits.2 s
    · rintro st rfl
      exact hfits.2

theorem holds_args_iff {ts : List (Term κ)} :
    (∀ t ∈ ts, Holds I avail t) ↔ (stateLikeness I avail).AlikeArgs 0 ts ts := by
  rw [Term.alikeArgs_iff_forall₂, List.forall₂_same]
  exact forall₂_congr fun t _ => holds_iff

theorem offers_eq : Offers (stateLikeness I avail) = Registered avail :=
  funext fun _ => propext (forall₂_congr fun _ _ => and_iff_right rfl)

theorem Respected.upheld (h : Respected I avail host env) :
    Upheld host (stateLikeness I avail) (fun _ => True) env where
  strict := stateLikeness_strict
  const _ := trivial
  unfoldable c t ht := holds_iff.mp (h.unfoldable c t ht)
  direct st hst := h.direct st hst.2
  unbound := .inr fun _ => trivial
  interp st n ts hst hts := by
    rw [offers_eq]
    refine (h.interp st n ts hst.2 (holds_args_iff.mpr hts)).imp (fun _ _ => trivial) ?_
    exact fun t? ht? t ht => holds_iff.mp (ht? t ht)

/-! ## Reading the state of an outcome -/

theorem Holds.of_decodeState {t : Term κ} (h : Holds I avail t) {s : ProofState κ}
    (hs : Codec.decodeState t = some s) : I s := by
  have hstrip := (holds_iff.mp h).strip
  rw [Codec.decodeState, Codec.decodeBlob, Term.asBlob?] at hs
  generalize t.strip = u at hstrip hs
  cases u with
  | blob b =>
      cases hstrip with
      | blob hb =>
          dsimp only at hs
          split at hs
          next hkind =>
            rw [Option.bind_some] at hs
            split at hs
            next s' hcontent =>
              obtain rfl := Option.some.inj hs
              exact hb.2 s' hkind hcontent
            next => cases hs
          next => cases hs
  | _ => cases hs

theorem Holds.of_decode_outcome {t : Term κ} (h : Holds I avail t) {result : Codec κ}
    {o : Outcome κ result.Val} (ho : (Codec.outcome result).decode t = some o) : I o.state := by
  have hctor := (holds_iff.mp h).asCtorApp?
  simp only [Codec.decode] at ho
  split at ho
  next c v st hx =>
    rw [hx] at hctor
    obtain ⟨-, has⟩ : _ ∧ (stateLikeness I avail).AlikeArgs 0 [v, st] [v, st] := by
      cases hctor with
      | some hxy => exact hxy
    have hst : Holds I avail st := by
      cases has with
      | cons _ hrest =>
          cases hrest with
          | cons hst _ => exact holds_iff.mpr hst
    split at ho
    · simp only [Option.bind_eq_bind, Option.bind_eq_some_iff, Option.pure_def,
        Option.some.injEq] at ho
      obtain ⟨_, _, s, hs, rfl⟩ := ho
      exact hst.of_decodeState hs
    · split at ho
      · simp only [Option.bind_eq_bind, Option.bind_eq_some_iff, Option.pure_def,
          Option.some.injEq] at ho
        obtain ⟨_, _, s, hs, rfl⟩ := ho
        exact hst.of_decodeState hs
      · cases ho
  next => cases ho

theorem holds_embed_state {s : ProofState κ} (hs : I s) (n : Nat) :
    Holds I avail (Codec.embed .proofState (.state s) n).1 := by
  refine holds_iff.mpr (.blob ⟨rfl, fun s' _ hs' => ?_⟩)
  obtain rfl : s = s' := Content.state.inj hs'
  exact hs

theorem holds_encode_failed {s : ProofState κ} (hs : I s) {reason : Failure κ}
    (hreason : ∀ n, Holds I avail (Codec.encodeFailure reason n).1) (result : Codec κ) (n : Nat) :
    Holds I avail ((Codec.outcome result).encode (.failed reason s) n).1 := by
  have hstate : Holds I avail (Codec.embed .proofState (.state s) (Codec.encodeFailure reason n).2).1 :=
    holds_embed_state hs _
  exact holds_iff.mpr
    (Term.Alike.ctor.apps (.cons (holds_iff.mp (hreason n)) (.cons (holds_iff.mp hstate) .nil)))

theorem holds_encode_success {s : ProofState κ} (hs : I s) (n : Nat) :
    Holds I avail ((Codec.outcome .unit).encode (.success () s) n).1 :=
  holds_iff.mpr (Term.Alike.ctor.apps (.cons .lit (.cons (holds_iff.mp (holds_embed_state hs n)) .nil)))

theorem holds_encodeFailure_failureOf (e : Issue κ) (n : Nat) :
    Holds I avail (Codec.encodeFailure (failureOf e) n).1 := by
  cases e with
  | foreign p => exact holds_iff.mpr (.blob ⟨rfl, fun _ hkind => nomatch hkind⟩)
  | _ => exact holds_iff.mpr (.blob ⟨rfl, fun _ hkind => nomatch hkind⟩)

theorem Holds.of_decodeCall {cs : List (Codec κ)} {ts : List (Term κ)}
    (hts : ∀ t ∈ ts, Holds I avail t) {vs : Codec.Vals cs} {s : ProofState κ}
    (h : Codec.decodeCall cs ts = some (vs, s)) : I s := by
  rw [Codec.decodeCall] at h
  split at h
  next => cases h
  next last hlast =>
    simp only [Option.bind_eq_bind, Option.bind_eq_some_iff, Option.pure_def,
      Option.some.injEq, Prod.mk.injEq] at h
    obtain ⟨_, _, s', hs, -, rfl⟩ := h
    exact (hts last (List.mem_of_getLast? hlast)).of_decodeState hs

/-- The states that a run ends with have the property. -/
theorem Respected.keeps_engine_run {s : ProofState κ} (h : Respected I avail host s.mainContext)
    {engine : Engine κ} (hnatives : ∀ st ∈ host.natives engine.native, avail st) (hs : I s)
    {tactic : Term κ} (ht : Holds I avail tactic) {args : List (Term κ)}
    (has : ∀ t ∈ args, Holds I avail t) (result : Codec κ) (n : Nat) :
    Keeps (Registered avail) (fun _ => True) (fun o => I o.state)
      (execute host n (engine.run host result tactic args s)) := by
  have hfit : ∀ st ∈ host.natives engine.native, (stateLikeness I avail).step st st :=
    fun st hst => ⟨rfl, hnatives st hst⟩
  have hrun := Native.keeps_engine_run h.upheld hfit
    (fun k => holds_iff.mp (holds_embed_state hs k)) (holds_iff.mp ht) (holds_args_iff.mp has)
    result n
  rw [offers_eq] at hrun
  refine hrun.imp (fun _ _ => trivial) ?_
  rintro o ⟨normal, hnormal, ho⟩
  exact (holds_iff.mpr hnormal).of_decode_outcome ho

end

/-! ## Invocations -/

namespace Invocation

/-- Settle a success; what is done if the state is not well formed is open. -/
def settleOr (illFormed : Program κ (List (Goal κ))) (i : Invocation κ) (checker : Checker κ)
    (env : Env κ) (s : ProofState κ) : Program κ (List (Goal κ)) := do
  if !s.wellFormed then illFormed
  else
    Program.debug fun _ => s.dump? "Metaprogram succeeded"
    let goals := s.openGoals
    let s ← settleGoals checker goals s
    let (problems, s) ← checker.unresolved env s (otherImplicits goals s)
    reportImplicits i.goalRange s problems
    return goals

/-- What an outcome means for the caller; what is done if a success is not well formed is open. -/
def finishOr {α : Type} (illFormed : Program κ (List (Goal κ))) (i : Invocation κ)
    (checker : Checker κ) (env : Env κ) : Outcome κ α → Program κ (List (Goal κ) × α)
  | .success v s => return (← i.settleOr illFormed checker env s, v)
  | .failed reason s => do
    Program.debug fun _ => s.dump? "Metaprogram failed"
    .fail (i.failureIssue s reason)

/-- Run the metaprogram on a state that has been prepared. -/
def proceedOr (illFormed : Program κ (List (Goal κ))) (i : Invocation κ) (host : Host κ)
    (checker : Checker κ) (engine : Engine κ) (arg result : Codec κ) (a : arg.Val)
    (s : ProofState κ) : Program κ (List (Goal κ) × result.Val) := do
  Program.debug fun _ => (s.dump? "Initial state").map fun dump =>
    "Running metaprogram with goal location " ++ i.goalRange.display ++ "\n" ++ dump
  let o ← Program.span (some s.mainContext.moduleName) "tacrun::interpreter::run_safe"
    (engine.call host [arg] result i.tactic (a, ()) s)
  i.finishOr illFormed checker s.mainContext o

/-- Run the metaprogram; what is done if its final state is not well formed is open. -/
def runOr (illFormed : Program κ (List (Goal κ))) (i : Invocation κ) (host : Host κ)
    (checker : Checker κ) (engine : Engine κ) (arg result : Codec κ) (a : arg.Val)
    (s : ProofState κ) : Program κ (List (Goal κ) × result.Val) :=
  Program.span (some s.mainContext.moduleName) "tacrun::interpreter::run_tactic_on_ps" <|
    if i.alreadyTyped then
      i.proceedOr illFormed host checker engine arg result a (i.prepare s)
    else do
      checker.accept (i.prepare s).mainContext arg.type result.type i.tactic
      i.proceedOr illFormed host checker engine arg result a (i.prepare s)

/-- The issue that an invocation ends with if the final state is not well formed. -/
def illFormedIssue (i : Invocation κ) : Issue κ :=
  .internal (some i.goalRange)
    "metaprogram returned a goal whose witness is not an implicit of its state"

/-- What an outcome means for the caller. -/
def finish (i : Invocation κ) (checker : Checker κ) (env : Env κ) (result : Codec κ) :
    Outcome κ result.Val → Program κ (List (Goal κ) × result.Val)
  | .success v s => do return (← i.settle checker env s, v)
  | .failed reason s => do
    Program.debug fun _ => s.dump? "Metaprogram failed"
    .fail (i.failureIssue s reason)

theorem finishOr_fail (i : Invocation κ) (checker : Checker κ) (env : Env κ) (result : Codec κ) :
    i.finishOr (.fail i.illFormedIssue) checker env = i.finish checker env result := by
  funext o
  cases o with
  | success v s => rfl
  | failed reason s => rfl

theorem runOr_fail (i : Invocation κ) (host : Host κ) (checker : Checker κ) (engine : Engine κ)
    (arg result : Codec κ) (a : arg.Val) (s : ProofState κ) :
    i.runOr (.fail i.illFormedIssue) host checker engine arg result a s =
      i.run host checker engine arg result a s := by
  unfold runOr run proceedOr
  rw [finishOr_fail]
  unfold finish
  cases i.alreadyTyped <;> rfl

theorem settleOr_of_wellFormed (p q : Program κ (List (Goal κ))) (i : Invocation κ)
    (checker : Checker κ) (env : Env κ) {s : ProofState κ} (hs : s.wellFormed = true) :
    i.settleOr p checker env s = i.settleOr q checker env s := by
  unfold settleOr
  rw [hs]
  rfl

section

variable {L : Likeness (Content κ) (Body κ)} {α γ : Type}
  {reduce : Reduction (Content κ) (Body κ) → Act κ (Term κ)}

/-- Programs that run alike in all worlds that offer what fits, after one that upholds it. -/
theorem run_bind_congr {V : α → Prop} {p : Program κ α} {f g : α → Program κ γ}
    (hp : Keeps (Offers L) (fun _ => True) V (p.run reduce))
    (hfg : ∀ a, V a → ∀ w, Offers L w → (f a).run reduce w = (g a).run reduce w) :
    ∀ w, Offers L w → (p >>= f).run reduce w = (p >>= g).run reduce w := by
  intro w hw
  show (p.bind f).run reduce w = (p.bind g).run reduce w
  rw [Program.run_bind, Program.run_bind]
  have hpw := hp w hw
  cases hr : p.run reduce w with
  | ok a w' =>
      rw [hr] at hpw
      rw [run_bind_ok hr, run_bind_ok hr]
      exact hfg a hpw.1 w' hpw.2
  | error e w' => rw [run_bind_error hr, run_bind_error hr]

theorem run_span_congr {p q : Program κ α} (m : Option String) (name : String)
    (hpq : ∀ w, Offers L w → p.run reduce w = q.run reduce w) :
    ∀ w, Offers L w → (p.span m name).run reduce w = (q.span m name).run reduce w := by
  intro w hw
  rw [Program.run_span, Program.run_span, hpq w.enteredSpan hw]

theorem keeps_ofExcept (x : Except (Issue κ) α) :
    Keeps (Offers L) (fun _ => True) (fun _ => True) ((Program.ofExcept x).run reduce) := by
  cases x with
  | ok a => exact Keeps.pure trivial
  | error e => exact Keeps.fail trivial

theorem keeps_accept (checker : Checker κ) (env : Env κ) (argType resultType tactic : Term κ) :
    Keeps (Offers L) (fun _ => True) (fun _ => True)
      ((checker.accept env argType resultType tactic).run reduce) :=
  keeps_run_bind (keeps_note _) fun _ _ => keeps_run_bind (keeps_ofExcept _) fun _ _ =>
    keeps_run_bind (keeps_note _) fun _ _ => keeps_ofExcept _

end

/-- If the metaprogram ends in well formed states only, it does not matter what would be done
otherwise. -/
theorem runOr_congr {L : Likeness (Content κ) (Body κ)} {host : Host κ} {engine : Engine κ}
    {i : Invocation κ} {arg result : Codec κ} {a : arg.Val} {s : ProofState κ} {n : Nat}
    (hcall : Keeps (Offers L) (fun _ => True) (fun o => o.state.wellFormed = true)
      (execute host n (engine.call host [arg] result i.tactic (a, ()) (i.prepare s))))
    (p q : Program κ (List (Goal κ))) (checker : Checker κ) : ∀ w, Offers L w →
      execute host n (i.runOr p host checker engine arg result a s) w =
        execute host n (i.runOr q host checker engine arg result a s) w := by
  have hproceed : ∀ w, Offers L w →
      execute host n (i.proceedOr p host checker engine arg result a (i.prepare s)) w =
        execute host n (i.proceedOr q host checker engine arg result a (i.prepare s)) w := by
    refine run_bind_congr (keeps_debug _) fun _ _ => ?_
    refine run_bind_congr (keeps_span _ _ hcall) fun o ho w _ => ?_
    cases o with
    | success v t =>
        have hsettle := settleOr_of_wellFormed p q i checker (i.prepare s).mainContext (s := t) ho
        simp only [finishOr, hsettle]
    | failed reason t => rfl
  refine run_span_congr _ _ ?_
  cases i.alreadyTyped with
  | true => exact hproceed
  | false => exact run_bind_congr (keeps_accept _ _ _ _ _) fun _ _ => hproceed

end Invocation

/-- Available steps that respect a property of proof states cannot make a run end in a state without
it, and an invocation never gets a state that is not well formed if the property rules that out. -/
theorem proofStates_not_forged {I : ProofState κ → Prop} {avail : Step κ → Prop} {host : Host κ}
    (engine : Engine κ) {tactic : Term κ} {s : ProofState κ}
    (h : Respected I avail host s.mainContext)
    (hnatives : ∀ st ∈ host.natives engine.native, avail st) (ht : Holds I avail tactic)
    (hs : I s) :
    (∀ (result : Codec κ) (args : List (Term κ)), (∀ t ∈ args, Holds I avail t) →
      ∀ n w o w', Registered avail w →
        execute host n (engine.run host result tactic args s) w = .ok o w' → I o.state) ∧
    ((∀ s, I s → s.wellFormed = true) → ∀ (i : Invocation κ) (checker : Checker κ)
      (arg result : Codec κ) (a : arg.Val) (s₀ : ProofState κ),
      i.tactic = tactic → i.prepare s₀ = s → (∀ k, Holds I avail (arg.encode a k).1) →
      ∀ illFormed n w, Registered avail w →
        execute host n (i.runOr illFormed host checker engine arg result a s₀) w =
          execute host n (i.run host checker engine arg result a s₀) w) := by
  constructor
  · intro result args has n w o w' hw hr
    have hkeeps := h.keeps_engine_run hnatives hs ht has result n w hw
    rw [hr] at hkeeps
    exact hkeeps.1
  · rintro hwf i checker arg result a s₀ rfl rfl ha illFormed n w hw
    rw [← Invocation.runOr_fail]
    have hcall : Keeps (Offers (stateLikeness I avail)) (fun _ => True)
        (fun o => o.state.wellFormed = true)
        (execute host n (engine.call host [arg] result i.tactic (a, ()) (i.prepare s₀))) := by
      refine keeps_run_bind (keeps_allocate _) ?_
      rintro _ ⟨k, rfl⟩
      have hargs : ∀ t ∈ (Codec.encodeAll [arg] (a, ()) k).1, Holds I avail t := by
        intro t ht
        obtain rfl := List.mem_singleton.mp ht
        exact ha k
      have hrun := h.keeps_engine_run hnatives hs ht hargs result n
      rw [← offers_eq (I := I)] at hrun
      exact hrun.imp (fun _ _ => trivial) fun o ho => hwf o.state ho
    rw [← offers_eq (I := I)] at hw
    exact Invocation.runOr_congr hcall _ _ checker w hw

/-! ## A host without code -/

/-- The host without code of its own: its rules never apply, and its native tactics fail. -/
def Host.silent (κ : Type) : Host κ where
  name _ := ""
  natives _ := []
  rule _ _ _ := return none
  direct _ := none
  total _ _ result _ := result.blank
  tactic _ _ _ _ s := return .fail "no code" s

/-- A proof state without goals. -/
def idleState : ProofState Unit := { mainContext := { moduleName := "Idle" }, entryRange := {} }

/-! ## Goals left to a solver -/

/-- A checker that grants everything and solves nothing. -/
def Checker.granting (κ : Type) : Checker κ where
  id := 0
  typecheck _ _ _ _ := .ok .trivial
  discharge _ _ := .ok ()
  unify _ s _ _ := (true, s)
  resolve _ s _ := ([], s)

/-- Two of three placeholders are witnesses: that of an irrelevant goal, and that of a goal left to a
solver. -/
def threePlaceholders : ProofState Unit where
  mainContext := { moduleName := "Goals" }
  goals := [{ env := { moduleName := "Goals" }, witness := 0, irrelevant := true, label := "" }]
  smtGoals := [{ env := { moduleName := "Goals" }, witness := 2, irrelevant := false, label := "" }]
  implicits := [⟨0, "", {}⟩, ⟨1, "", {}⟩, ⟨2, "", {}⟩]
  uvars := ⟨List.replicate 3 { type := Term.unit, reason := "", range := {} }⟩
  entryRange := {}

/-- The host whose native tactics leave all goals to a solver. -/
def retiring : Host Unit :=
  { Host.silent Unit with
    tactic := fun _ _ result _ s =>
      return .success result.blank { s with goals := [], smtGoals := s.openGoals } }

/-- The step of its native tactic. -/
def retireStep : Step Unit := Codec.tacticStep 0 "retire" [.unit] .unit (.host ())

/-- The invocation of the step. -/
def retire : Invocation Unit where
  tactic := .native retireStep
  callRange := {}
  goalRange := {}
  background := false
  alreadyTyped := true

/-- The host keeps states well formed, where nothing is defined. -/
theorem respected_retiring {env : Env Unit} (henv : ∀ c, env.unfoldable c = none) :
    Respected (fun s => s.wellFormed = true) (· = retireStep) retiring env where
  unfoldable c t ht := by
    rw [henv] at ht
    cases ht
  direct := by
    rintro _ rfl
    rfl
  interp := by
    rintro _ n ts rfl hts
    cases n with
    | zero => exact fun _ _ => trivial
    | succ n =>
        have hrun : Keeps (Offers (stateLikeness (fun s => s.wellFormed = true) (· = retireStep)))
            (fun _ => False) (fun t? => ∀ t, t? = some t →
              (stateLikeness (fun s => s.wellFormed = true) (· = retireStep)).Alike 0 t t)
            (interp retiring (n + 1) (.tactic [.unit] .unit (.host ())) env ts) := by
          refine keeps_interp_tactic (fun vs s hcall => ?_) (fun vs s e k hcall => ?_) _
          · have hs : s.wellFormed = true := Holds.of_decodeCall hts hcall
            intro w hw
            exact ⟨fun k => holds_iff.mp (holds_encode_success hs k), hw⟩
          · have hs := Holds.of_decodeCall hts hcall
            exact holds_iff.mp (holds_encode_failed hs (holds_encodeFailure_failureOf e) .unit k)
        rw [offers_eq] at hrun
        exact hrun.imp nofun fun t? ht? t ht => holds_iff.mpr (ht? t ht)

/-- Both ways to run it on a state with goals leave a well formed one, in which no goal is worked on; so nothing
that is done about ill formed ones is done. -/
theorem proofStates_not_forged_retired :
    (∃ o w', execute retiring 20
        (Engine.run retiring ⟨.compiled, ()⟩ .unit (.native retireStep) [Term.unit] threePlaceholders) {} =
          .ok o w' ∧
      o.state.goals = [] ∧ o.state.smtGoals = threePlaceholders.openGoals ∧ o.state.wellFormed = true) ∧
    ∃ goals w', execute retiring 20 (retire.runOr .overflow retiring (Checker.granting Unit) ⟨.reduce, ()⟩
        .unit .unit () threePlaceholders) {} = .ok (goals, ()) w' ∧
      goals.map (·.witness) = [0, 2] := by
  have htactic : Holds (fun s => s.wellFormed = true) (· = retireStep) (.native retireStep) :=
    holds_iff.mpr (.native ⟨rfl, rfl⟩)
  have hregistered : Registered (· = retireStep) {} := nofun
  have hunit : ∀ t ∈ [(Term.unit : Term Unit)],
      Holds (fun s => s.wellFormed = true) (· = retireStep) t := by
    rintro _ (_ | ⟨_, ⟨⟩⟩)
    exact holds_iff.mpr .lit
  constructor
  · have hrun : ∃ o w', execute retiring 20
        (Engine.run retiring ⟨.compiled, ()⟩ .unit (.native retireStep) [Term.unit] threePlaceholders) {} =
          .ok o w' ∧
      o.state.goals = [] ∧ o.state.smtGoals = threePlaceholders.openGoals := ⟨_, _, rfl, rfl, rfl⟩
    obtain ⟨o, w', hrun, hgoals, hsmt⟩ := hrun
    have hkept := (proofStates_not_forged ⟨.compiled, ()⟩ (respected_retiring fun _ => rfl) nofun htactic
      (s := threePlaceholders) rfl).1 .unit [Term.unit] hunit 20 {} o w' hregistered hrun
    exact ⟨o, w', hrun, hgoals, hsmt, hkept⟩
  · have hrun : ∃ goals w', execute retiring 20 (retire.run retiring (Checker.granting Unit) ⟨.reduce, ()⟩
        .unit .unit () threePlaceholders) {} = .ok (goals, ()) w' ∧
      goals.map (·.witness) = [0, 2] := ⟨_, _, rfl, rfl⟩
    obtain ⟨goals, w', hrun, hgoals⟩ := hrun
    have hsame := (proofStates_not_forged ⟨.reduce, ()⟩ (respected_retiring fun _ => rfl) nofun htactic
      (s := retire.prepare threePlaceholders) rfl).2 (fun _ => id) retire (Checker.granting Unit) .unit .unit
        () threePlaceholders rfl rfl (fun k => holds_iff.mpr .lit) .overflow 20 {} hregistered
    exact ⟨goals, w', hsame.trans hrun, hgoals⟩

end TacticEngine.Native
