/-
# TacticEngine.Native.Invocation -- running a metaprogram on behalf of the type checker.

An invocation checks the metaprogram unless it is known to have its type, runs it, and settles the
outcome with the caller.  After a success the goals that are left over are handed back, the irrelevant
ones solved by the unit value, and every other placeholder of the final state must resolve.  After a
failure the caller gets an issue: one raised inside is passed on, with a paragraph that says that the
metaprogram failed; a failure on purpose or an exception is reported at a position that depends on who
invoked the metaprogram; a value of the host is raised again as it is.
-/
import TacticEngine.Native.Checker
import TacticEngine.Native.Engine

namespace TacticEngine.Native

open Source

variable {κ : Type}

/-- A metaprogram with the circumstances in which it is run. -/
structure Invocation (κ : Type) where
  /-- The metaprogram. -/
  tactic : Term κ
  /-- Where it was invoked. -/
  callRange : FileSpan
  /-- Where the goal comes from. -/
  goalRange : FileSpan
  /-- Nobody waits for it: failures are reported at the first goal that is left. -/
  background : Bool
  /-- It is known to have its type. -/
  alreadyTyped : Bool

namespace Invocation

/-- The state that the metaprogram starts in: its context says that a metaprogram runs. -/
def prepare (i : Invocation κ) (s : ProofState κ) : ProofState κ :=
  { s with mainContext :=
      { s.mainContext with range := i.goalRange, inTactic := true, enableDefer := false } }

/-- Where a failure in state `s` is reported. -/
def failurePos (i : Invocation κ) (s : ProofState κ) : FileSpan :=
  if i.background then
    match s.openGoals with
    | g :: _ => s.goalRange g
    | [] => i.callRange
  else s.entryRange

/-- The issue that a failure in state `s` becomes for the caller. -/
def failureIssue (i : Invocation κ) (s : ProofState κ) : Failure κ → Issue κ
  | .issue e => e.prepend "Tactic failed"
  | .message text =>
    .error (some (i.failurePos s)) .userTacticFailure ["Tactic failed", text]
  | .exception t =>
    .error (some (i.failurePos s)) .userTacticFailure
      ["Tactic failed", "Uncaught exception: " ++ t.display]
  | .foreign payload => .foreign payload

/-- Settle the goals that are left: irrelevant ones are solved by the unit value, and no solution of
a witness has to be checked again. -/
def settleGoals (checker : Checker κ) :
    List (Goal κ) → ProofState κ → Program κ (ProofState κ)
  | [], s => return s
  | g :: gs, s => do
    if g.irrelevant then
      let (solved, s) ← checker.solveByUnit g.env s g.witness
      if solved then settleGoals checker gs (s.markChecked g.witness)
      else
        .fail (.internal (some (s.goalRange g))
          ("irrelevant goal " ++ displayUVar g.witness ++ " could not be solved with ()"))
    else settleGoals checker gs (s.markChecked g.witness)

/-- The implicits of a state that are no witnesses of the given goals. -/
def otherImplicits (goals : List (Goal κ)) (s : ProofState κ) : List Implicit :=
  s.implicits.filter fun i => !goals.any (·.witness == i.uvar)

/-- Settle a success in state `s` of a run in `env`; the answer is the goals left over. -/
def settle (i : Invocation κ) (checker : Checker κ) (env : Env κ) (s : ProofState κ) :
    Program κ (List (Goal κ)) := do
  if !s.wellFormed then
    .fail (.internal (some i.goalRange)
      "metaprogram returned a goal whose witness is not an implicit of its state")
  else
    Program.debug fun _ => s.dump? "Metaprogram succeeded"
    let goals := s.openGoals
    let s ← settleGoals checker goals s
    let (problems, s) ← checker.unresolved env s (otherImplicits goals s)
    reportImplicits i.goalRange s problems
    return goals

/-- Run the metaprogram on an argument and a state: the goals left over, and the value. -/
def run (i : Invocation κ) (host : Host κ) (checker : Checker κ) (engine : Engine κ)
    (arg result : Codec κ) (a : arg.Val) (s : ProofState κ) :
    Program κ (List (Goal κ) × result.Val) :=
  Program.span (some s.mainContext.moduleName) "tacrun::interpreter::run_tactic_on_ps" do
    let s := i.prepare s
    let env := s.mainContext
    if !i.alreadyTyped then
      checker.accept env arg.type result.type i.tactic
    Program.debug fun _ => (s.dump? "Initial state").map fun dump =>
      "Running metaprogram with goal location " ++ i.goalRange.display ++ "\n" ++ dump
    let o ← Program.span (some env.moduleName) "tacrun::interpreter::run_safe"
      (engine.call host [arg] result i.tactic (a, ()) s)
    match o with
    | .success v s => return (← i.settle checker env s, v)
    | .failed reason s =>
      Program.debug fun _ => s.dump? "Metaprogram failed"
      .fail (i.failureIssue s reason)

end Invocation

/-- What runs invocations with a given engine, as it is shown. -/
def displayInterpreter (engine : Engine κ) : String :=
  "Interpreter \x7b driver: " ++ engine.display ++ ", .. \x7d"

end TacticEngine.Native
