/-
# TacticEngine.Proofs.Native.Nesting -- failures survive nesting.

Native code that a metaprogram enters may invoke another metaprogram, whose native code may invoke a third
one, and so on.  If every metaprogram in such a stack ends with what its native step gives, and the native
code passes on the issue that the inner invocation ends with, then an issue that comes up at the bottom
reaches the caller at the top.  It passes through five forms on each level: it is contained, written,
reduced, read and translated.  The translation puts one paragraph before those of a message; all else is
left as it is.
-/
import Mathlib.Logic.Function.Iterate
import TacticEngine.Proofs.Native.Accounting
import TacticEngine.Proofs.Native.Callback

namespace TacticEngine.Native

open Codec (Vals Basic decodeCall tacticStep)

variable {κ α : Type}

/-! ## Invocations with their arguments -/

/-- An invocation with everything that it is run with. -/
structure Call (κ : Type) where
  /-- The metaprogram and its circumstances. -/
  invocation : Invocation κ
  /-- The type checker. -/
  checker : Checker κ
  /-- The engine. -/
  engine : Engine κ
  /-- The codec of the argument. -/
  arg : Codec κ
  /-- The codec of the value. -/
  result : Codec κ
  /-- The argument. -/
  value : arg.Val
  /-- The proof state. -/
  state : ProofState κ

namespace Call

variable (host : Host κ) (c : Call κ)

/-- The invocation as a program. -/
def program : Program κ (List (Goal κ) × c.result.Val) :=
  c.invocation.run host c.checker c.engine c.arg c.result c.value c.state

/-- What comes before the metaprogram is called. -/
def prologue : Program κ Unit := do
  if !c.invocation.alreadyTyped then
    c.checker.accept (c.invocation.prepare c.state).mainContext c.arg.type c.result.type
      c.invocation.tactic
  Program.debug fun _ => ((c.invocation.prepare c.state).dump? "Initial state").map fun dump =>
    "Running metaprogram with goal location " ++ c.invocation.goalRange.display ++ "\n" ++ dump

/-- The call of the metaprogram. -/
def metaprogram : Program κ (Outcome κ c.result.Val) :=
  c.engine.call host [c.arg] c.result c.invocation.tactic (c.value, ())
    (c.invocation.prepare c.state)

/-- The application that the call has reduced. -/
def reduction (w : World κ) : Reduction (Content κ) (Body κ) :=
  c.engine.reduction host [c.arg] c.invocation.tactic (c.value, ())
    (c.invocation.prepare c.state) w

/-- The parts of the invocation, in their order. -/
def body : Program κ (List (Goal κ) × c.result.Val) := do
  c.prologue
  let o ← Program.span (some c.state.mainContext.moduleName) "tacrun::interpreter::run_safe"
    (c.metaprogram host)
  c.invocation.finishOr (.fail c.invocation.illFormedIssue) c.checker
    (c.invocation.prepare c.state).mainContext o

theorem program_eq : c.program host = Program.span (some c.state.mainContext.moduleName)
    "tacrun::interpreter::run_tactic_on_ps" (c.body host) := by
  rw [program, ← Invocation.runOr_fail, Invocation.runOr, body, prologue]
  cases c.invocation.alreadyTyped with
  | true => rfl
  | false => exact congrArg (Program.span _ _) (Program.bind_assoc _ _ _).symm

variable {host : Host κ} {c : Call κ} {w w₁ w₂ : World κ}

/-- Run from `w`, the invocation gets to call its metaprogram, in world `w₁`. -/
def Reaches (host : Host κ) (c : Call κ) (w w₁ : World κ) : Prop :=
  ∃ w₀, Ends (execute host · c.prologue) w.enteredSpan (.ok () w₀) ∧ w₁ = w₀.enteredSpan

theorem Reaches.uncounted (h : c.Reaches host w w₁) (hw : w.Uncounted) : w₁.Uncounted := by
  obtain ⟨w₀, ⟨-, n, hn⟩, rfl⟩ := h
  exact (uncounted_of_returned (.of_ok hn) hw.enteredSpan).enteredSpan

theorem run_program_of_overflow {n : Nat}
    (hbody : (c.body host).run (evaluate host n) w.enteredSpan = .error .overflow w₁) :
    execute host n (c.program host) w = .error .overflow w₁ := by
  rw [program_eq]
  exact Program.run_span_of_overflow _ _ hbody

/-- A call that is too much for the machine is so for the invocation. -/
theorem run_of_overflow (hreaches : c.Reaches host w w₁)
    (hcall : Ends (execute host · (c.metaprogram host)) w₁ (.error .overflow w₂)) :
    ∃ n, execute host n (c.program host) w = .error .overflow w₂ := by
  obtain ⟨w₀, hprologue, rfl⟩ := hreaches
  obtain ⟨N, hN⟩ := hprologue.eventually fun n => lasts_execute host n _
  obtain ⟨M, hM⟩ := hcall.eventually fun n => lasts_execute host n _
  have hbefore := hN (max N M) (by omega)
  have hspan := Program.run_span_of_overflow (some c.state.mainContext.moduleName)
    "tacrun::interpreter::run_safe" (hM (max N M) (by omega))
  refine ⟨max N M, run_program_of_overflow ?_⟩
  rw [body, Program.run_bind_of_ok hbefore, Program.run_bind_of_error hspan]

/-- An invocation whose metaprogram fails ends with the issue that this failure becomes. -/
theorem ends_of_failed (hroomy : Roomy host (c.program host) w) (hreaches : c.Reaches host w w₁)
    {reason : Failure κ} {t : ProofState κ}
    (hcall : Ends (execute host · (c.metaprogram host)) w₁ (.ok (.failed reason t) w₂)) :
    ∃ w', Ends (execute host · (c.program host)) w
      (.error (.issue (c.invocation.failureIssue t reason)) w') := by
  have hbegun : w.Uncounted → w₁.Uncounted := hreaches.uncounted
  obtain ⟨w₀, hprologue, rfl⟩ := hreaches
  obtain ⟨N, hN⟩ := hprologue.eventually fun n => lasts_execute host n _
  obtain ⟨M, hM⟩ := hcall.eventually fun n => lasts_execute host n _
  have hbefore := hN (max N M) (by omega)
  have hmeta := hM (max N M) (by omega)
  obtain ⟨w₃, hw₃, hspan⟩ | ⟨hroom, hspan⟩ := Program.run_span_of_ok
    (some c.state.mainContext.moduleName) "tacrun::interpreter::run_safe" hmeta
  case inr =>
    -- The invocation would break off with the counts jammed, which `hroomy` excludes; here and below.
    have hkept : w.Uncounted → w₂.Uncounted := fun hw =>
      uncounted_of_returned (.of_ok hmeta) (hbegun hw)
    refine (hroomy.elim (n := max N M) hkept hroom (run_program_of_overflow ?_)).elim
    rw [body, Program.run_bind_of_ok hbefore, Program.run_bind_of_error hspan]
  obtain ⟨w₄, -, hdebug⟩ := run_debug_dump host (max N M) t "Metaprogram failed"
    fun hd => dumpable_of_call hmeta (hw₃.debugging.symm.trans hd)
  have hbody : (c.body host).run (evaluate host (max N M)) w.enteredSpan =
      .error (.issue (c.invocation.failureIssue t reason)) w₄ := by
    rw [body, Program.run_bind_of_ok hbefore, Program.run_bind_of_ok hspan, Invocation.finishOr,
      Program.run_bind_of_ok hdebug]
    rfl
  obtain ⟨w₅, -, hrun⟩ | ⟨-, hroom, hrun⟩ := Program.run_span_of_error
    (some c.state.mainContext.moduleName) "tacrun::interpreter::run_tactic_on_ps" hbody
  case inr =>
    have hkept : w.Uncounted → w₄.Uncounted := fun hw =>
      uncounted_of_returned (p := c.body host) (n := max N M) (.of_issue hbody) hw.enteredSpan
    exact (hroomy.elim (n := max N M) hkept hroom (program_eq host c ▸ hrun)).elim
  refine ⟨w₅, Ends.of_issue (n := max N M) ?_⟩
  rw [program_eq]
  exact hrun

end Call

/-! ## Levels of a stack -/

/-- A native tactic that a run enters. -/
structure Entry (κ : Type) where
  /-- The codecs of the arguments. -/
  args : List (Codec κ)
  /-- The codec of the value. -/
  result : Codec κ
  /-- The native tactic. -/
  tactic : NativeTactic κ
  /-- The arguments. -/
  values : Vals args
  /-- The state. -/
  state : ProofState κ
  /-- The world in which it is entered. -/
  world : World κ

/-- What is run on entry. -/
def Entry.program (host : Host κ) (e : Entry κ) : Program κ (Outcome κ e.result.Val) :=
  e.tactic.call host e.args e.result e.values e.state

section

variable (host : Host κ) (c : Call κ) (w : World κ)

/-- Run from `w`, the invocation calls its metaprogram, which enters a native tactic and ends with what
the step of that gives: if this is a piece of data, it is what the metaprogram evaluates to.  The state of
the entry can be shown if that is wanted. -/
def EndsWith (e : Entry κ) : Prop :=
  ∃ w₁ ts, c.Reaches host w w₁ ∧ decodeCall e.args ts = some (e.values, e.state) ∧
    (w₁.debugging = true → Dumpable e.state) ∧
    ∀ t w₂, Term.Inert t → Ends (fun n => interp host n (.tactic e.args e.result e.tactic)
        (c.invocation.prepare c.state).mainContext ts) e.world (.ok (some t) w₂) →
      ∃ w₃, Ends (fun n => evaluate host n (c.reduction host w₁))
        (callWorld [c.arg] (c.value, ()) w₁) (.ok t w₃)

/-- Run from `w`, the metaprogram of the invocation ends with what a native tactic gives that raises the
issue. -/
def Raises (issue : Issue κ) : Prop :=
  ∃ e, EndsWith host c w e ∧
    ∃ w', Ends (execute host · (e.program host)) e.world (.error (.issue issue) w')

/-- Run from `w`, the metaprogram of the outer invocation ends with what a native tactic gives that runs
the inner invocation from `w'` and passes on the issue that this ends with. -/
def Nested (inner : Call κ) (w' : World κ) : Prop :=
  ∃ e, EndsWith host c w e ∧ ∀ issue w₁,
    Ends (execute host · (inner.program host)) w' (.error (.issue issue) w₁) →
      ∃ w₂, Ends (execute host · (e.program host)) e.world (.error (.issue issue) w₂)

end

/-- A stack of so many invocations, from the innermost one, run from `w'`, to the outermost one.  None of them
breaks off at a span whose count does not fit. -/
inductive Stack (host : Host κ) (inner : Call κ) (w' : World κ) : Nat → Call κ → World κ → Prop where
  /-- The innermost invocation by itself. -/
  | one : Roomy host (inner.program host) w' → Stack host inner w' 1 inner w'
  /-- One more invocation around a stack. -/
  | around {n : Nat} {outer mid : Call κ} {w w₁ : World κ} : Roomy host (outer.program host) w →
      Nested host outer w mid w₁ → Stack host inner w' n mid w₁ → Stack host inner w' (n + 1) outer w

/-! ## One level -/

section

variable {host : Host κ} {c : Call κ} {w : World κ}

/-- What an issue becomes that is contained, and then translated for the caller. -/
theorem failureIssue_failureOf (i : Invocation κ) (t : ProofState κ) (issue : Issue κ) :
    i.failureIssue t (failureOf issue) = issue.prepend "Tactic failed" := by
  cases issue <;> rfl

theorem isNative_failureOf (issue : Issue κ) : Failure.IsNative (failureOf issue) := by
  cases issue <;> exact trivial

/-- An issue that native code raises in a metaprogram is what the invocation ends with, but for the
paragraph that says so. -/
theorem Raises.ends (hroomy : Roomy host (c.program host) w) {issue : Issue κ}
    (h : Raises host c w issue) : ∃ w', Ends (execute host · (c.program host)) w
      (.error (.issue (issue.prepend "Tactic failed")) w') := by
  obtain ⟨e, ⟨w₁, ts, hreaches, hcall, hdump, hends⟩, w₂, hissue⟩ := h
  obtain ⟨N, hN⟩ := hissue.eventually fun n => lasts_execute host n _
  have hcont : contained e.state (execute host N (e.program host) e.world) =
      .ok (.failed (failureOf issue) e.state) w₂ := by
    rw [hN N (Nat.le_refl N), contained]
  let t := ((Codec.outcome e.result).encode (.failed (failureOf issue) e.state) w₂.supply).1
  have ht : Term.Inert t := Codec.inert_encode_failed e.result (isNative_failureOf issue) _ _
  obtain ⟨w₃, heval⟩ := hends t _ ht (.of_ok (n := N + 1) (interp_of_contained_ok hcall hcont _))
  obtain ⟨-, m, heval⟩ := heval
  have hdecode : (Codec.outcome c.result).decode t = some (.failed (failureOf issue) e.state) :=
    decode_encode_failureOf issue c.result e.state w₂.supply
  obtain ⟨w₄, hw₄, hrun⟩ | ⟨hroom, hrun⟩ := call_of_ok c.result heval
  case inr =>
    obtain ⟨k, hover⟩ := Call.run_of_overflow hreaches (.of_overflow hrun)
    have hkept : w.Uncounted → w₃.Uncounted := fun hw => uncounted_of_evaluate heval
      ((notes_callWorld _ _ _).uncounted (hreaches.uncounted hw))
    exact (hroomy.elim hkept hroom hover).elim
  obtain ⟨w₅, -, hverdict⟩ := verdict_of_some (w := w₄) host m
    (c.invocation.prepare c.state).mainContext hdecode fun hd =>
      hdump (((debugging_of_evaluate heval).symm.trans hw₄.debugging.symm).trans hd)
  obtain ⟨w', hw'⟩ := Call.ends_of_failed hroomy hreaches (.of_ok (hrun.trans hverdict))
  rw [failureIssue_failureOf] at hw'
  exact ⟨w', hw'⟩

/-- The same for an issue that the inner invocation ends with. -/
theorem Nested.ends (hroomy : Roomy host (c.program host) w) {inner : Call κ} {w' w₁ : World κ}
    {issue : Issue κ} (h : Nested host c w inner w')
    (hinner : Ends (execute host · (inner.program host)) w' (.error (.issue issue) w₁)) :
    ∃ w₂, Ends (execute host · (c.program host)) w
      (.error (.issue (issue.prepend "Tactic failed")) w₂) := by
  obtain ⟨e, he, hpass⟩ := h
  exact Raises.ends hroomy ⟨e, he, hpass issue w₁ hinner⟩

end

/-- Native code that does something, runs the inner invocation, and goes on only if that ends with a
value. -/
theorem EndsWith.nested {host : Host κ} {c : Call κ} {w : World κ} {β : Type} {e : Entry κ}
    (he : EndsWith host c w e) (inner : Call κ)
    {before : Program κ β} (after : β → List (Goal κ) × inner.result.Val →
      Program κ (Outcome κ e.result.Val))
    (hprogram : e.program host = before >>= fun b => inner.program host >>= after b) {b : β}
    {w' : World κ} (hbefore : Ends (execute host · before) e.world (.ok b w')) :
    Nested host c w inner w' := by
  refine ⟨e, he, fun issue w₁ hinner => ?_⟩
  obtain ⟨N, hN⟩ := hbefore.eventually fun n => lasts_execute host n _
  obtain ⟨M, hM⟩ := hinner.eventually fun n => lasts_execute host n _
  refine ⟨w₁, Ends.of_issue (n := max N M) ?_⟩
  have hrun : (e.program host).run (evaluate host (max N M)) e.world =
      .error (.issue issue) w₁ := by
    rw [hprogram, Program.run_bind_of_ok (hN (max N M) (by omega)),
      Program.run_bind_of_error (hM (max N M) (by omega))]
  exact hrun

/-- A metaprogram that is a native step ends with what the step gives, in both evaluations. -/
theorem endsWith_native (host : Host κ) (c : Call κ) {w : World κ} {id : Nat} {name : String}
    {r : Codec κ} {f : NativeTactic κ}
    (htactic : c.invocation.tactic = .native (tacticStep id name [c.arg] r f))
    (harg : c.arg.BuiltFrom Basic) (hfits : c.arg.Fits c.value) {w₁ : World κ}
    (hreaches : c.Reaches host w w₁) (hdump : w₁.debugging = true → Dumpable c.state) :
    EndsWith host c w ⟨[c.arg], r, f, (c.value, ()), c.invocation.prepare c.state,
      callbackWorld c.engine (tacticStep id name [c.arg] r f) [c.arg] (c.value, ())
        (c.invocation.prepare c.state) w₁⟩ := by
  have hcodecs : ∀ d ∈ [c.arg], d.BuiltFrom Basic := by simpa using harg
  refine ⟨w₁, callTerms [c.arg] (c.value, ()) (c.invocation.prepare c.state) w₁, hreaches,
    Codec.decodeCall_encodeAll hcodecs ⟨hfits, trivial⟩ _ _ _, hdump, fun t w₂ ht hinterp => ?_⟩
  obtain ⟨N, hN⟩ := hinterp.eventually fun n => lasts_interp host n _ _ _
  obtain ⟨M, hM⟩ := evaluate_native (tacticStep id name [c.arg] r f) host rfl
    (inert_callTerms hcodecs (c.value, ()) (c.invocation.prepare c.state) w₁)
    (callTerms_ne_nil w₁) (length_callTerms w₁) ht
  refine ⟨w₂, Ends.of_ok (n := max N M + 1) ?_⟩
  rw [Call.reduction, Engine.reduction, htactic]
  exact hM (max N M) (by omega) _ _ _ _ _ (hN (max N M) (by omega))

/-! ## All levels -/

/-- Paragraphs put before those of a message, one on each level. -/
theorem iterate_prepend_message (paragraph : String) (k : Nat) (m : Message) :
    (Issue.prepend paragraph)^[k] (.message m : Issue κ) =
      .message { m with paragraphs := List.replicate k paragraph ++ m.paragraphs } := by
  induction k with
  | zero => rfl
  | succ k ih => rw [Function.iterate_succ_apply', ih, Issue.prepend, List.replicate_succ]; rfl

theorem iterate_prepend_of_fixed {paragraph : String} {issue : Issue κ}
    (h : issue.prepend paragraph = issue) (k : Nat) :
    (Issue.prepend paragraph)^[k] issue = issue :=
  Function.iterate_fixed h k

section

variable {host : Host κ} {inner outer : Call κ} {w w' : World κ} {n : Nat}

/-- An issue that the innermost invocation ends with gets one paragraph for each of the others. -/
theorem Stack.ends (h : Stack host inner w' n outer w) : ∃ k, n = k + 1 ∧ ∀ issue w₁,
    Ends (execute host · (inner.program host)) w' (.error (.issue issue) w₁) →
      ∃ w₂, Ends (execute host · (outer.program host)) w
        (.error (.issue ((Issue.prepend "Tactic failed")^[k] issue)) w₂) := by
  induction h with
  | one => exact ⟨0, rfl, fun issue w₁ hinner => ⟨w₁, hinner⟩⟩
  | around hroomy hnested _ ih =>
      obtain ⟨k, rfl, hrest⟩ := ih
      refine ⟨k + 1, rfl, fun issue w₁ hinner => ?_⟩
      obtain ⟨w₂, hmid⟩ := hrest issue w₁ hinner
      rw [Function.iterate_succ_apply']
      exact hnested.ends hroomy hmid

theorem Stack.roomy (h : Stack host inner w' n outer w) : Roomy host (inner.program host) w' := by
  induction h with
  | one hroomy => exact hroomy
  | around _ _ _ ih => exact ih

end

/-- Where a failure is reported. -/
theorem failurePos_eq (i : Invocation κ) (t : ProofState κ) : i.failurePos t =
    if i.background then (t.openGoals.head?.map t.goalRange).getD i.callRange else t.entryRange := by
  rw [Invocation.failurePos]
  cases i.background with
  | false => rfl
  | true => cases t.openGoals <;> rfl

/-- In a stack of `n` invocations, what the innermost metaprogram ends with reaches the caller of the
outermost one: a message that native code raises, with `n` paragraphs before its own and all else
unchanged; a failure on purpose or an exception, as a message with `n` paragraphs before its own, at the
position that the innermost invocation gives it; a value of the host, as it is; and the aggregate that
some inner invocation ends with, as it is. -/
theorem failures_survive_nesting {host : Host κ} {inner outer : Call κ} {w w' : World κ} {n : Nat}
    (h : Stack host inner w' n outer w) :
    (∀ m, Raises host inner w' (.message m) → ∃ w₂,
      Ends (execute host · (outer.program host)) w (.error (.issue (.message
        { m with paragraphs := List.replicate n "Tactic failed" ++ m.paragraphs })) w₂)) ∧
    (∀ w₁ reason t w₂ text, inner.Reaches host w' w₁ →
      Ends (execute host · (inner.metaprogram host)) w₁ (.ok (.failed reason t) w₂) →
      (reason = .message text ∨ ∃ u, reason = .exception u ∧
        text = "Uncaught exception: " ++ u.display) → ∃ w₃,
      Ends (execute host · (outer.program host)) w (.error (.issue (.message
        { pos := some (if inner.invocation.background then
            (t.openGoals.head?.map t.goalRange).getD inner.invocation.callRange else t.entryRange)
          severity := .error
          code := .userTacticFailure
          paragraphs := List.replicate n "Tactic failed" ++ [text]
          context := [] })) w₃)) ∧
    (∀ payload, (Raises host inner w' (.foreign payload) ∨ ∃ w₁ t w₂, inner.Reaches host w' w₁ ∧
        Ends (execute host · (inner.metaprogram host)) w₁ (.ok (.failed (.foreign payload) t) w₂)) →
      ∃ w₂, Ends (execute host · (outer.program host)) w (.error (.issue (.foreign payload)) w₂)) ∧
    ∀ issues w₁, Ends (execute host · (inner.program host)) w' (.error (.issue (.reported issues)) w₁) →
      ∃ w₂, Ends (execute host · (outer.program host)) w
        (.error (.issue (.reported issues)) w₂) := by
  obtain ⟨k, rfl, hends⟩ := h.ends
  have hroomy := h.roomy
  refine ⟨fun m hraises => ?_, fun w₁ reason t w₂ text hreaches hcall hreason => ?_,
    fun payload hpayload => ?_, fun issues w₁ hinner => ?_⟩
  · obtain ⟨w₁, hinner⟩ := hraises.ends hroomy
    obtain ⟨w₂, houter⟩ := hends _ w₁ hinner
    rw [← Function.iterate_succ_apply, iterate_prepend_message] at houter
    exact ⟨w₂, houter⟩
  · obtain ⟨w₃, hinner⟩ := Call.ends_of_failed hroomy hreaches hcall
    have hissue : inner.invocation.failureIssue t reason =
        (Issue.error (some (inner.invocation.failurePos t)) .userTacticFailure [text]).prepend
          "Tactic failed" := by
      rcases hreason with rfl | ⟨u, rfl, rfl⟩ <;> rfl
    rw [hissue] at hinner
    obtain ⟨w₄, houter⟩ := hends _ w₃ hinner
    rw [← Function.iterate_succ_apply, Issue.error, Issue.ofParagraphs, iterate_prepend_message,
      failurePos_eq] at houter
    exact ⟨w₄, houter⟩
  · have hinner : ∃ w₁, Ends (execute host · (inner.program host)) w'
        (.error (.issue (.foreign payload)) w₁) := by
      rcases hpayload with hraises | ⟨w₁, t, w₂, hreaches, hcall⟩
      · exact hraises.ends hroomy
      · exact Call.ends_of_failed hroomy hreaches hcall
    obtain ⟨w₁, hinner⟩ := hinner
    obtain ⟨w₂, houter⟩ := hends _ w₁ hinner
    rw [iterate_prepend_of_fixed rfl] at houter
    exact ⟨w₂, houter⟩
  · obtain ⟨w₂, houter⟩ := hends _ w₁ hinner
    rw [iterate_prepend_of_fixed rfl] at houter
    exact ⟨w₂, houter⟩

/-! ## Two levels -/

/-- An invocation, known to have its type, of the native step with the given label. -/
def stepCall (backend : Backend) (label : Bool) : Call Bool where
  invocation :=
    { tactic := .native (tacticStep 0 "step" [.unit] .unit (.host label))
      callRange := {}
      goalRange := {}
      background := false
      alreadyTyped := true }
  checker := Checker.granting Bool
  engine := ⟨backend, label⟩
  arg := .unit
  result := .unit
  value := ()
  state := { mainContext := { moduleName := "Nested" }, entryRange := {} }

/-- A host with two native tactics: the one invokes the other, which raises an issue. -/
def relaying : Host Bool :=
  { Host.silent Bool with
    tactic := fun label _ _ _ s =>
      if label then do
        let _ ← (stepCall .reduce false).program (Host.silent Bool)
        return .fail "not reached" s
      else .fail (.error none (.other 1) ["no proof"]) }

theorem failures_survive_nesting_twice : ∃ w',
    Ends (execute relaying · ((stepCall .compiled true).program relaying)) {}
      (.error (.issue (.message ⟨none, .error, .other 1,
        ["Tactic failed", "Tactic failed", "no proof"], []⟩)) w') := by
  have hreaches (backend : Backend) (label : Bool) {w : World Bool} (hw : w.debugging = false) :
      (stepCall backend label).Reaches relaying w w.enteredSpan.enteredSpan := by
    cases w
    cases hw
    exact ⟨_, .of_ok (n := 0) rfl, rfl⟩
  have hends (backend : Backend) (label : Bool) {w : World Bool} (hw : w.debugging = false) :=
    endsWith_native relaying (stepCall backend label) rfl (.basic trivial) trivial
      (hreaches backend label hw) (fun hd => absurd (hw.symm.trans hd) Bool.false_ne_true)
  have hnested := (hends .compiled true (w := {}) rfl).nested (stepCall .reduce false)
    (fun _ _ => return .fail "not reached" _) rfl (.of_ok (n := 0) rfl)
  have hstack := Stack.around (roomy_of_uncounted ⟨rfl, by decide⟩) hnested
    (.one (roomy_of_uncounted ⟨rfl, by decide⟩))
  exact (failures_survive_nesting hstack).1 _
    ⟨_, hends .reduce false rfl, _, .of_issue (n := 0) rfl⟩

end TacticEngine.Native
