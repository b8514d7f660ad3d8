/-
# TacticEngine.Native.Content -- what native values are.

Terms are about contents of objects and bodies of steps in general.  Here both are settled.  An
object holds a proof state, a goal, an environment, an issue, or a text of the host.  A step is a
rule on terms, a pure function on decoded values, or a native tactic on decoded values and the proof
state; the host's own code is referred to by labels from a type `κ`, and only `Host` says what they
stand for.  A native tactic may also be a metaprogram that was handed to native code, together with
the engine to run it with.

So native functions are data, and the circle from terms through steps and states back to terms is
closed by one inductive definition.
-/
import TacticEngine.Outcome
import TacticEngine.Run.Program

namespace TacticEngine.Native

variable {κ : Type}

/-- How a metaprogram is run: by which evaluation and with which steps of the host. -/
structure Engine (κ : Type) where
  /-- How terms are evaluated. -/
  backend : Backend
  /-- The label of the host's list of steps. -/
  native : κ
  deriving DecidableEq

/-- A way to write native values of one sort as terms. -/
inductive Codec (κ : Type) where
  /-- The unit value. -/
  | unit
  /-- Truth values. -/
  | bool
  /-- Integers. -/
  | int
  /-- Natural numbers that fit in a machine word. -/
  | size
  /-- Strings. -/
  | string
  /-- Terms, as they are. -/
  | term
  /-- Proof states. -/
  | state
  /-- Goals. -/
  | goal
  /-- Environments. -/
  | env
  /-- Reasons of failure. -/
  | failure
  /-- Lists. -/
  | list (c : Codec κ)
  /-- A value or none. -/
  | option (c : Codec κ)
  /-- Pairs. -/
  | pair (a b : Codec κ)
  /-- Outcomes of metaprograms. -/
  | outcome (c : Codec κ)
  /-- Metaprograms of one argument, run with the given engine. -/
  | function (a r : Codec κ) (engine : Engine κ)
  /-- Metaprograms without argument, run with the given engine. -/
  | thunk (r : Codec κ) (engine : Engine κ)
  deriving DecidableEq

mutual
/-- What an object holds. -/
inductive Content (κ : Type) where
  /-- A proof state. -/
  | state (s : ProofState (Content κ) (Body κ))
  /-- A goal. -/
  | goal (g : Goal (Content κ) (Body κ))
  /-- An environment. -/
  | env (e : Env (Content κ) (Body κ))
  /-- An issue. -/
  | issue (e : Issue (Content κ))
  /-- A text of the host. -/
  | text (s : String)
  /-- Something that nobody asks for. -/
  | other

/-- What a step does. -/
inductive Body (κ : Type) where
  /-- A rule of the host on terms. -/
  | rule (label : κ)
  /-- A pure function of the host on decoded arguments. -/
  | total (args : List (Codec κ)) (result : Codec κ) (label : κ)
  /-- A native tactic on decoded arguments and the proof state. -/
  | tactic (args : List (Codec κ)) (result : Codec κ) (f : NativeTactic κ)

/-- A native tactic: native code, or a metaprogram made callable. -/
inductive NativeTactic (κ : Type) where
  /-- Code of the host. -/
  | host (label : κ)
  /-- A metaprogram with the engine to run it. -/
  | metaprogram (engine : Engine κ) (t : Term (Content κ) (Body κ))
end

/-! ## The general notions, at these contents -/

/-- Terms with native values of a host. -/
abbrev Term (κ : Type) := TacticEngine.Term (Content κ) (Body κ)

/-- Steps of a host. -/
abbrev Step (κ : Type) := TacticEngine.Step (Body κ)

/-- Environments with native values of a host. -/
abbrev Env (κ : Type) := TacticEngine.Env (Content κ) (Body κ)

/-- Goals with native values of a host. -/
abbrev Goal (κ : Type) := TacticEngine.Goal (Content κ) (Body κ)

/-- Proof states with native values of a host. -/
abbrev ProofState (κ : Type) := TacticEngine.ProofState (Content κ) (Body κ)

/-- Issues with native values of a host. -/
abbrev Issue (κ : Type) := TacticEngine.Issue (Content κ)

/-- Failures with native values of a host. -/
abbrev Failure (κ : Type) := TacticEngine.Failure (Content κ) (Body κ)

/-- Outcomes with native values of a host. -/
abbrev Outcome (κ : Type) (α : Type) := TacticEngine.Outcome (Content κ) (Body κ) α

/-- Programs with native values of a host. -/
abbrev Program (κ : Type) (α : Type) := TacticEngine.Program (Content κ) (Body κ) α

/-- Acts with native values of a host. -/
abbrev Act (κ : Type) (α : Type) := TacticEngine.Act (Content κ) (Body κ) α

/-- Worlds with native values of a host. -/
abbrev World (κ : Type) := TacticEngine.World (Content κ) (Body κ)

end TacticEngine.Native
