/-
# TacticEngine.Diagnosis -- issues that a user can act on.

When a metaprogram stops before it has a result, the subterm at which it stopped is named; when it
leaves placeholders behind, each is described.
-/
import TacticEngine.Issue
import TacticEngine.Native.Codec

namespace TacticEngine

open Source

variable {β σ : Type}

/-- The subterm at which an evaluation stopped.  An application is to blame as a whole if its head is
a constant, constructor, variable, literal or native step; otherwise its head is looked into, and of
a case distinction the scrutinee. -/
def Term.blame : Term β σ → Term β σ
  | .annotated t _ => t.blame
  | .ascribed t _ => t.blame
  | .app h args =>
    match h.strip with
    | .const _ | .ctor _ | .bvar _ | .free _ | .lit _ | .native _ => .app h args
    | _ => h.blame
  | .case s _ => s.blame
  | t => t

/-- Whether the constant that stands for an unfinished proof occurs. -/
def Term.mentionsUnfinished (t : Term β σ) : Bool :=
  t.anySubterm fun
    | .const c => c == Native.Names.unfinished
    | _ => false

/-- The issue that a metaprogram's evaluation stopped at `result`. -/
def stuckIssue (env : Env β σ) (result : Term β σ) : Issue β :=
  let culprit := result.blame
  let hint := if culprit.mentionsUnfinished then
      ["The term contains `" ++ Native.Names.unfinished ++ "`, which does not reduce. "
        ++ "A metaprogram that gives up should fail explicitly."]
    else []
  .error (some env.range) .tacticGotStuck
    (["Tactic got stuck!", "Reduction stopped at: " ++ culprit.display] ++ hint)

/-- What is wrong with an implicit after a metaprogram has run. -/
inductive ImplicitTag (β σ : Type) where
  /-- It has no solution. -/
  | unresolved
  /-- Its check waits for a universe constraint. -/
  | defersUniverse
  /-- It has the solution `t : type`, whose check left a side condition. -/
  | hasTypingGuard (t type : Term β σ)

/-- The paragraphs that describe an implicit. -/
def describeImplicit (s : ProofState β σ) (i : Implicit) : ImplicitTag β σ → List String :=
  let type := match s.uvar? i.uvar with
    | some d => d.type.display
    | none => "<unknown>"
  let name := displayUVar i.uvar
  fun
    | .unresolved =>
      ["Tactic left uninstantiated unification variable " ++ name,
        "Type: " ++ type, "Reason: " ++ i.reason]
    | .defersUniverse =>
      ["Tactic left uninstantiated unification variable " ++ name
          ++ " (checking it is blocked on a universe constraint)",
        "Type: " ++ type, "Reason: " ++ i.reason]
    | .hasTypingGuard t ty =>
      ["Tactic solved goal " ++ name ++ " of type " ++ type,
        "To the term " ++ t.display ++ " : " ++ ty.display,
        "But it has a non-trivial typing guard. "
          ++ "Use an explicit guard inspection primitive to see and prove these goals."]

/-- The issue about an implicit. -/
def implicitIssue (range : FileSpan) (s : ProofState β σ)
    (problem : Implicit × ImplicitTag β σ) : Issue β :=
  .error (some range) .uninstantiatedUVarInTactic (describeImplicit s problem.1 problem.2)

/-- Write an issue about each implicit into the log, and fail with all of them if there are any. -/
def reportImplicits (range : FileSpan) (s : ProofState β σ)
    (problems : List (Implicit × ImplicitTag β σ)) : Program β σ Unit :=
  if problems.isEmpty then return ()
  else do
    let issues := problems.map (implicitIssue range s)
    for e in issues do
      Program.log .error e.display
    .fail (.reported issues)

end TacticEngine
