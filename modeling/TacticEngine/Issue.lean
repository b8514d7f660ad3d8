/-
# TacticEngine.Issue -- what went wrong, for the user.

An issue is a message with a position, a severity and a code; or a value of the host that is passed
on as it is; or the aggregate of issues that have been reported already.  Only messages have a
position, severity and code of their own: the others have fixed ones, save that an aggregate stands
at the first position among its issues.
-/
import TacticEngine.Term.Basic

namespace TacticEngine

open Source

variable {β : Type}

/-- How severe an issue is. -/
inductive Severity where
  /-- For information only. -/
  | info
  /-- Something to look at; the run goes on. -/
  | warning
  /-- The current call is over. -/
  | error
  deriving Repr, DecidableEq

/-- The printed name of a severity. -/
def Severity.display : Severity → String
  | .info => "Info"
  | .warning => "Warning"
  | .error => "Error"

/-- Severities grow from information to error. -/
def Severity.rank : Severity → Nat
  | .info => 0
  | .warning => 1
  | .error => 2

/-- Whether `a` is at most as severe as `b`. -/
def Severity.le (a b : Severity) : Bool := a.rank ≤ b.rank

/-- What class of issue it is. -/
inductive IssueCode where
  /-- A metaprogram ran to a failure. -/
  | userTacticFailure
  /-- A metaprogram stopped before it reached a result. -/
  | tacticGotStuck
  /-- A metaprogram succeeded and left a placeholder without checked solution. -/
  | uninstantiatedUVarInTactic
  /-- A metaprogram has not the expected type. -/
  | illTypedTactic
  /-- Issues have been reported. -/
  | stop
  /-- An invariant of the engine is broken. -/
  | internalError
  /-- A class of the host's own. -/
  | other (n : Nat)
  deriving Repr, DecidableEq

/-- The printed name of a class. -/
def IssueCode.display : IssueCode → String
  | .userTacticFailure => "UserTacticFailure"
  | .tacticGotStuck => "TacticGotStuck"
  | .uninstantiatedUVarInTactic => "UninstantiatedUVarInTactic"
  | .illTypedTactic => "IllTypedTactic"
  | .stop => "Stop"
  | .internalError => "InternalError"
  | .other n => "Other:" ++ toString n

/-- A message with its position, severity and code. -/
structure Message where
  /-- Where it is reported. -/
  pos : Option FileSpan
  /-- How severe it is. -/
  severity : Severity
  /-- What class it belongs to. -/
  code : IssueCode
  /-- The paragraphs of the message. -/
  paragraphs : List String
  /-- What was going on, outermost first. -/
  context : List String

/-- What went wrong. -/
inductive Issue (β : Type) where
  /-- A message. -/
  | message (m : Message)
  /-- A value of the host. -/
  | foreign (payload : Object β)
  /-- Issues reported already. -/
  | reported (issues : List (Issue β))

namespace Issue

/-! ## Construction -/

/-- A message. -/
def ofParagraphs (severity : Severity) (pos : Option FileSpan) (code : IssueCode)
    (paragraphs : List String) : Issue β :=
  .message ⟨pos, severity, code, paragraphs, []⟩

/-- An error with the given paragraphs. -/
def error (pos : Option FileSpan) (code : IssueCode) (paragraphs : List String) : Issue β :=
  ofParagraphs .error pos code paragraphs

/-- An invariant of the engine is broken. -/
def internal (pos : Option FileSpan) (text : String) : Issue β :=
  error pos .internalError [text]

/-- Add a context line behind the others. -/
def withContext (line : String) : Issue β → Issue β
  | .message m => .message { m with context := m.context ++ [line] }
  | e => e

/-- Put a paragraph before the others. -/
def prepend (paragraph : String) : Issue β → Issue β
  | .message m => .message { m with paragraphs := paragraph :: m.paragraphs }
  | e => e

/-! ## Parts -/

mutual
/-- Where an issue stands. -/
def pos : Issue β → Option FileSpan
  | .message m => m.pos
  | .foreign _ => none
  | .reported es => firstPos es

/-- The first position among issues. -/
def firstPos : List (Issue β) → Option FileSpan
  | [] => none
  | e :: es =>
    match e.pos with
    | some p => some p
    | none => firstPos es
end

/-- How severe an issue is. -/
def severity : Issue β → Severity
  | .message m => m.severity
  | _ => .error

/-- The class of an issue. -/
def code : Issue β → IssueCode
  | .message m => m.code
  | .foreign _ => .internalError
  | .reported _ => .stop

/-- The paragraphs of a message. -/
def paragraphs : Issue β → List String
  | .message m => m.paragraphs
  | _ => []

/-- The value of the host. -/
def payload? : Issue β → Option (Object β)
  | .foreign p => some p
  | _ => none

/-- The issues of an aggregate. -/
def issues : Issue β → List (Issue β)
  | .reported es => es
  | _ => []

/-! ## Display -/

/-- Context lines as they are shown. -/
def displayContext (lines : List String) : String :=
  String.join (lines.map fun c => "\n  (in " ++ c ++ ")")

/-- A text behind its position, if it has one. -/
def displayAt (pos : Option FileSpan) (text : String) : String :=
  match pos with
  | some p => p.display ++ ": " ++ text
  | none => text

mutual
/-- An issue as it is shown: its position, then the message with its context, or the reported
issues one after the other. -/
def display : Issue β → String
  | .message m =>
    displayAt m.pos (String.intercalate "\n" m.paragraphs ++ displayContext m.context)
  | .foreign _ => "uncaught native exception <opaque>"
  | .reported es =>
    displayAt (firstPos es) (toString es.length ++ " error(s) reported" ++ displayAll es)

/-- Issues, each on a line of its own. -/
def displayAll : List (Issue β) → String
  | [] => ""
  | e :: es => "\n" ++ e.display ++ displayAll es
end

end Issue

end TacticEngine
