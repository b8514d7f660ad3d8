/-
# TacticEngine.Outcome -- how a metaprogram ends.

A metaprogram succeeds with a value or fails for a reason, and either way leaves a proof state.
Apart from both, the native code around it may break off with an issue.
-/
import TacticEngine.Issue
import TacticEngine.Proof.State

namespace TacticEngine

variable {β σ α γ : Type}

/-- Why a metaprogram failed. -/
inductive Failure (β σ : Type) where
  /-- An issue came up inside. -/
  | issue (e : Issue β)
  /-- It failed on purpose, with a message. -/
  | message (text : String)
  /-- It raised a term as an exception. -/
  | exception (t : Term β σ)
  /-- A value of the host, to be raised again as it is. -/
  | foreign (payload : Object β)

/-- A failure as it is shown. -/
def Failure.display : Failure β σ → String
  | .issue e => e.display
  | .message text => text
  | .exception t => t.display
  | .foreign _ => "<opaque>"

/-- How a metaprogram ended, with the state it left. -/
inductive Outcome (β σ α : Type) where
  /-- With a value. -/
  | success (value : α) (state : ProofState β σ)
  /-- With a failure. -/
  | failed (reason : Failure β σ) (state : ProofState β σ)

namespace Outcome

/-- A failure with a message. -/
def fail (text : String) (s : ProofState β σ) : Outcome β σ α := .failed (.message text) s

/-- Whether the metaprogram succeeded. -/
def isSuccess : Outcome β σ α → Bool
  | .success .. => true
  | .failed .. => false

/-- The state that was left. -/
def state : Outcome β σ α → ProofState β σ
  | .success _ s => s
  | .failed _ s => s

/-- The value of a success. -/
def value? : Outcome β σ α → Option α
  | .success v _ => some v
  | .failed .. => none

/-- A function applied to the value of a success. -/
def map (f : α → γ) : Outcome β σ α → Outcome β σ γ
  | .success v s => .success (f v) s
  | .failed e s => .failed e s

end Outcome

end TacticEngine
