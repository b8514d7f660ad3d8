/-
# TacticEngine.Run.Program -- what native code may do.

Native code is a program: it ends with a value or an issue, or it asks the world for something and
goes on with the answer.  The requests are few.  In particular there is none that tells whether
debugging or profiling is on, so no program can make its outcome depend on that, as long as machine words
are large enough for what is shown and counted; and none that tells whether fuel is short, so a run that
uses up its fuel cannot be mistaken for one that does not.

`Program.run` carries a program out.  How reductions are carried out is its parameter, since the
steps fired by a reduction are programs again.
-/
import TacticEngine.Run.World
import TacticEngine.StepTable

namespace TacticEngine

variable {β σ α γ : Type}

/-- How terms are evaluated. -/
inductive Backend where
  /-- By reducing the term itself. -/
  | reduce
  /-- By compiling them first. -/
  | compiled
  deriving Repr, DecidableEq

/-- The printed name of a backend. -/
def Backend.display : Backend → String
  | .reduce => "Rewrite"
  | .compiled => "Compiled"

/-- The application of a metaprogram to arguments, to be brought into normal form. -/
structure Reduction (β σ : Type) where
  /-- How to evaluate. -/
  backend : Backend
  /-- The steps in force. -/
  steps : StepTable σ
  /-- The definitions in scope. -/
  env : Env β σ
  /-- The metaprogram. -/
  tactic : Term β σ
  /-- Its arguments. -/
  args : List (Term β σ)

/-- Something that a program may ask for. -/
inductive Request (β σ : Type) where
  /-- Identities: the first one free; those up to `next` of it are taken then. -/
  | draw (next : Nat → Nat)
  /-- The registered steps, the latest first. -/
  | registry
  /-- Register a step. -/
  | register (s : Step σ)
  /-- Write an event into the journal. -/
  | note (e : Event β σ)
  /-- Write a record into the log. -/
  | log (r : LogRecord)
  /-- Write a text into the log if debugging output is wanted; it is built only then, and it is an
  overflow then if it cannot be built. -/
  | debug (text? : Unit → Option String)
  /-- Enter a span. -/
  | enterSpan
  /-- Leave the innermost span, which is counted under the key if it is to be counted; it is an overflow if
  the count does not fit any more. -/
  | leaveSpan (key : String)
  /-- The normal form, or the issue that came up on the way. -/
  | reduce (r : Reduction β σ)

/-- What a request is answered with. -/
def Request.Answer : Request β σ → Type
  | .draw _ => Nat
  | .registry => List (Step σ)
  | .reduce _ => Except (Issue β) (Term β σ)
  | .register _ | .note _ | .log _ | .debug _ | .enterSpan | .leaveSpan _ => Unit

/-- A native program that gives an `α`. -/
inductive Program (β σ α : Type) where
  /-- The end, with a value. -/
  | pure (a : α)
  /-- The end, with an issue. -/
  | fail (e : Issue β)
  /-- The end, because a machine word is too small. -/
  | overflow
  /-- Ask for something and go on with the answer. -/
  | ask (r : Request β σ) (k : r.Answer → Program β σ α)

namespace Program

/-! ## Composition -/

/-- Run a program and go on with its value. -/
def bind : Program β σ α → (α → Program β σ γ) → Program β σ γ
  | .pure a, f => f a
  | .fail e, _ => .fail e
  | .overflow, _ => .overflow
  | .ask r k, f => .ask r fun a => (k a).bind f

instance : Monad (Program β σ) where
  pure := .pure
  bind := bind

theorem bind_pure (p : Program β σ α) : p.bind .pure = p := by
  induction p with
  | pure | fail | overflow => rfl
  | ask r k ih => simp only [bind, ih]

theorem bind_assoc {δ : Type} (p : Program β σ α) (f : α → Program β σ γ)
    (g : γ → Program β σ δ) : (p.bind f).bind g = p.bind fun a => (f a).bind g := by
  induction p with
  | pure | fail | overflow => rfl
  | ask r k ih => simp only [bind, ih]

instance : LawfulMonad (Program β σ) where
  map_const := rfl
  id_map := bind_pure
  seqLeft_eq p q := by
    show p.bind _ = (p.bind _).bind _
    rw [bind_assoc]
    rfl
  seqRight_eq p q := by
    show p.bind _ = (p.bind _).bind _
    rw [bind_assoc]
    exact congrArg p.bind (funext fun _ => (bind_pure q).symm)
  pure_seq f p := rfl
  bind_pure_comp f p := rfl
  bind_map f p := rfl
  pure_bind a f := rfl
  bind_assoc := bind_assoc

/-- Run a program; an issue it ends with becomes part of the value. -/
def attempt : Program β σ α → Program β σ (Except (Issue β) α)
  | .pure a => .pure (.ok a)
  | .fail e => .pure (.error e)
  | .overflow => .overflow
  | .ask r k => .ask r fun a => (k a).attempt

/-- The value, or the issue. -/
def ofExcept : Except (Issue β) α → Program β σ α
  | .ok a => .pure a
  | .error e => .fail e

/-- The value, or an overflow. -/
def ofOption : Option α → Program β σ α
  | some a => .pure a
  | none => .overflow

/-- Ask for something; the answer is the value. -/
def request (r : Request β σ) : Program β σ r.Answer := .ask r .pure

/-- Build something that takes identities. -/
def allocate (m : StateM Nat α) : Program β σ α :=
  .ask (.draw fun n => (m n).2) fun n => .pure (m n).1

/-- The registered steps, the latest first. -/
def registry : Program β σ (List (Step σ)) := request .registry

/-- Register a step. -/
def register (s : Step σ) : Program β σ Unit := request (.register s)

/-- Write an event into the journal. -/
def note (e : Event β σ) : Program β σ Unit := request (.note e)

/-- Write a record into the log. -/
def log (level : LogLevel) (text : String) : Program β σ Unit := request (.log ⟨level, text⟩)

/-- Write a text into the log if debugging output is wanted. -/
def debug (text? : Unit → Option String) : Program β σ Unit := request (.debug text?)

/-- Bring an application into normal form. -/
def reduce (r : Reduction β σ) : Program β σ (Term β σ) :=
  .ask (.reduce r) ofExcept

/-- Run a program inside a span.  The span is left, and counted, also if the program ends with an
issue. -/
def span (moduleName : Option String) (name : String) (p : Program β σ α) : Program β σ α := do
  let _ ← request .enterSpan
  let result ← p.attempt
  let _ ← request (.leaveSpan (spanKey moduleName name))
  ofExcept result

/-! ## Execution -/

/-- Answer a request in a world, with `reduce` for reductions. -/
def answer (reduce : Reduction β σ → Act β σ (Term β σ)) : (r : Request β σ) → Act β σ r.Answer
  | .draw next => modifyGet (World.drawn next)
  | .registry => return (← get).registry
  | .register s => modify (·.registered s)
  | .note e => modify (·.noted e)
  | .log r => modify (·.logged r)
  | .debug text? => Act.debug .debug text?
  | .enterSpan => modify (·.enteredSpan)
  | .leaveSpan key => Act.leaveSpan key
  | .reduce r => fun w =>
    match reduce r w with
    | .ok t w => .ok (.ok t) w
    | .error (.issue e) w => .ok (.error e) w
    | .error .overflow w => .error .overflow w
    | .error .exhausted w => .error .exhausted w

/-- Carry a program out, with `reduce` for reductions. -/
def run (reduce : Reduction β σ → Act β σ (Term β σ)) : Program β σ α → Act β σ α
  | .pure a => Pure.pure a
  | .fail e => throw (.issue e)
  | .overflow => throw .overflow
  | .ask r k => answer reduce r >>= fun a => (k a).run reduce

end Program

end TacticEngine
