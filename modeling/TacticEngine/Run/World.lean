/-
# TacticEngine.Run.World -- the state of the process around a run.

What outlives a single term is kept here: the supply of identities, the registry of steps, two
switches and what they switch on, and the journal.  `Act` is the type of everything that runs in a
world.  An act that breaks off, for whatever reason, leaves the world as it was at that moment.
-/
import TacticEngine.Issue
import TacticEngine.Run.Event

namespace TacticEngine

variable {β σ α : Type}

/-! ## Logging and span counts -/

/-- How important a log record is. -/
inductive LogLevel where
  /-- The finest details. -/
  | trace
  /-- Details for debugging. -/
  | debug
  /-- For information. -/
  | info
  /-- Something odd. -/
  | warn
  /-- Something wrong. -/
  | error
  deriving Repr, DecidableEq

/-- The printed name of a level. -/
def LogLevel.display : LogLevel → String
  | .trace => "TRACE"
  | .debug => "DEBUG"
  | .info => "INFO"
  | .warn => "WARN"
  | .error => "ERROR"

/-- A line of the log. -/
structure LogRecord where
  /-- How important it is. -/
  level : LogLevel
  /-- What it says. -/
  text : String
  deriving Repr, DecidableEq

/-- How often each span was passed, in the order of the spans' names.  Counts fit in a machine word of 32
bits.  How long the spans took is not kept. -/
abbrev SpanCounts := List (String × Nat)

/-- Counts are below this bound. -/
def SpanCounts.limit : Nat := UInt32.size

/-- Count a span once more, if the count then still fits. -/
def SpanCounts.count? (key : String) : SpanCounts → Option SpanCounts
  | [] => some [(key, 1)]
  | (k, n) :: rest =>
    if key = k then (if n + 1 < SpanCounts.limit then some ((k, n + 1) :: rest) else none)
    else if key < k then some ((key, 1) :: (k, n) :: rest)
    else (SpanCounts.count? key rest).map ((k, n) :: ·)

/-- The name under which a span is counted: its own, and the module that it is attributed to. -/
def spanKey (moduleName : Option String) (name : String) : String :=
  match moduleName with
  | some m => name ++ " [" ++ m ++ "]"
  | none => name

/-! ## Worlds -/

/-- The state of the process around a run. -/
structure World (β σ : Type) where
  /-- The next identity to give out. -/
  supply : Nat := 0
  /-- The registered steps, the latest first. -/
  registry : List (Step σ) := []
  /-- Debugging output is wanted. -/
  debugging : Bool := false
  /-- Spans are to be counted. -/
  profiling : Bool := false
  /-- The spans entered and not yet left, the innermost first: whether each is to be counted. -/
  openSpans : List Bool := []
  /-- The log, the latest record first. -/
  log : List LogRecord := []
  /-- The spans counted so far. -/
  spans : SpanCounts := []
  /-- A count did not fit once; since then no span can be counted. -/
  jammed : Bool := false
  /-- What happened, the latest first. -/
  journal : List (Event β σ) := []

namespace World

/-- Give out the identities from the next one up to `next` of it. -/
def drawn (next : Nat → Nat) (w : World β σ) : Nat × World β σ :=
  (w.supply, { w with supply := next w.supply })

/-- Write a record into the log. -/
def logged (r : LogRecord) (w : World β σ) : World β σ := { w with log := r :: w.log }

/-- Write an event into the journal. -/
def noted (e : Event β σ) (w : World β σ) : World β σ := { w with journal := e :: w.journal }

/-- Put a step in front of the registry.  A step of that name is shadowed from now on, which the
log warns about. -/
def registered (s : Step σ) (w : World β σ) : World β σ :=
  let w := w.logged ⟨.debug, "registering primitive step " ++ s.name⟩
  let w :=
    if w.registry.any (·.name == s.name) then
      w.logged ⟨.warn, "primitive step " ++ s.name
        ++ " registered again, the new one shadows the old"⟩
    else w
  { w with registry := s :: w.registry }

/-- Enter a span.  Whether it is counted is settled now. -/
def enteredSpan (w : World β σ) : World β σ :=
  { w with openSpans := w.profiling :: w.openSpans }

/-- The innermost span can be left: it is not to be counted under `key`, or it can be and the count then still
fits. -/
def hasRoom (key : String) (w : World β σ) : Bool :=
  match w.openSpans with
  | true :: _ => !w.jammed && (w.spans.count? key).isSome
  | _ => true

/-- Leave the innermost span, counting it under `key` if it is to be counted.  A count that would not fit
stays as it is, and so do all from then on. -/
def leftSpan (key : String) (w : World β σ) : World β σ :=
  match w.openSpans with
  | [] => w
  | false :: rest => { w with openSpans := rest }
  | true :: rest =>
    let jammed := !w.hasRoom key
    { w.logged ⟨.trace, key⟩ with
      openSpans := rest
      spans := if jammed then w.spans else (w.spans.count? key).getD w.spans
      jammed }

/-- The names of the native code entered, in order. -/
def trace (w : World β σ) : List String :=
  w.journal.reverse.filterMap fun
    | .entered name => some name
    | _ => none

/-- The calls to a type checker, in order. -/
def consultations (checker : Nat) (w : World β σ) : List (Consultation β σ) :=
  w.journal.reverse.filterMap fun
    | .consulted c call => if c = checker then some call else none
    | _ => none

/-- Forget what was logged, counted and journalled. -/
def cleared (w : World β σ) : World β σ := { w with log := [], spans := [], journal := [] }

end World

/-! ## Acts -/

/-- Why an act breaks off. -/
inductive Halt (β : Type) where
  /-- An issue came up. -/
  | issue (e : Issue β)
  /-- A machine word was too small. -/
  | overflow
  /-- The fuel was used up. -/
  | exhausted

/-- Whatever runs in a world and gives an `α`. -/
abbrev Act (β σ α : Type) := EStateM (Halt β) (World β σ) α

namespace Act

/-- Break off with an issue. -/
def fail (e : Issue β) : Act β σ α := throw (.issue e)

/-- The value, or break off because a machine word was too small. -/
def bounded (a? : Option α) : Act β σ α :=
  match a? with
  | some a => pure a
  | none => throw .overflow

/-- Write an event into the journal. -/
def note (e : Event β σ) : Act β σ Unit := modify (·.noted e)

/-- Leave the innermost span.  If it is to be counted and that is not possible any more, the act breaks off. -/
def leaveSpan (key : String) : Act β σ Unit := do
  let w ← get
  set (w.leftSpan key)
  bounded (if w.hasRoom key then some () else none)

/-- Write into the log if debugging output is wanted.  Only then is the text built at all, and one
that cannot be built breaks the act off. -/
def debug (level : LogLevel) (text? : Unit → Option String) : Act β σ Unit := do
  if (← get).debugging then
    let text ← bounded (text? ())
    modify (·.logged ⟨level, text⟩)

end Act

end TacticEngine
