/-
# TacticEngine.Proof.Operation -- what may be done to a proof state.

A host works on a proof state by the operations below, in any order.  It may also reorder its goals, that is
take one out of the goals to work on and put it anywhere among those left to a solver, or the other way
round.  A run of operations breaks off where a counter leaves its range.
-/
import TacticEngine.Proof.State

namespace TacticEngine

open Source

variable {β σ : Type}

/-- An operation on a proof state. -/
inductive Operation (β σ : Type) where
  /-- Introduce a placeholder. -/
  | newUVar (type : Term β σ) (reason : String) (range : FileSpan)
  /-- Introduce a goal, in any environment. -/
  | newGoal (env : Env β σ) (type : Term β σ) (label : String) (irrelevant : Bool)
  /-- Give a placeholder its solution. -/
  | solve (u : Nat) (t : Term β σ)
  /-- Note that a solution need not be checked again. -/
  | markChecked (u : Nat)
  /-- Take a fresh number. -/
  | fresh
  /-- Add a definition to the main context. -/
  | define (name : String) (body : Option (Term β σ)) (recursive : Bool)
  /-- Drop the focused goal. -/
  | dismiss
  /-- Leave goal `i` to a solver, at place `j` among those left to it. -/
  | postpone (i j : Nat)
  /-- Take goal `i` back from the solver, to place `j` among those to work on. -/
  | reclaim (i j : Nat)

/-- What an operation gives back. -/
inductive Answer where
  /-- Nothing. -/
  | done
  /-- The placeholder that was introduced. -/
  | placeholder (u : Nat)
  /-- Whether the placeholder has that solution. -/
  | verdict (solved : Bool)
  /-- A fresh number. -/
  | number (n : Nat)
  deriving DecidableEq

/-- The number that is given back. -/
def Answer.number? : Answer → Option Nat
  | .number n => some n
  | _ => none

/-- The fresh numbers among what was given back. -/
def freshNumbers (as : List Answer) : List Nat := as.filterMap Answer.number?

/-- Take item `i` out of the first list and put it at place `j` of the second, or behind its items if there
are fewer.  Without such an item nothing happens. -/
def moveItem {α : Type} (i j : Nat) (l m : List α) : List α × List α :=
  match l[i]? with
  | none => (l, m)
  | some a => (l.eraseIdx i, m.take j ++ a :: m.drop j)

namespace ProofState

/-- The state at the entry of a metaprogram. -/
def initial (mainContext : Env β σ) (entryRange : FileSpan) : ProofState β σ :=
  { mainContext, entryRange }

/-- Leave goal `i` to a solver. -/
def postpone (s : ProofState β σ) (i j : Nat) : ProofState β σ :=
  let (goals, smtGoals) := moveItem i j s.goals s.smtGoals
  { s with goals, smtGoals }

/-- Take goal `i` back from the solver. -/
def reclaim (s : ProofState β σ) (i j : Nat) : ProofState β σ :=
  let (smtGoals, goals) := moveItem i j s.smtGoals s.goals
  { s with goals, smtGoals }

/-- The answer and the state that an operation gives, unless a counter leaves its range. -/
def perform? (s : ProofState β σ) : Operation β σ → Option (Answer × ProofState β σ)
  | .newUVar type reason range =>
    let (u, s) := s.newUVar type reason range
    some (.placeholder u, s)
  | .newGoal env type label irrelevant =>
    let (u, s) := s.newGoal env type label irrelevant
    some (.placeholder u, s)
  | .solve u t =>
    let (solved, s) := s.solve u t
    some (.verdict solved, s)
  | .markChecked u => some (.done, s.markChecked u)
  | .fresh => s.fresh?.map fun (n, s) => (.number n, s)
  | .define name body recursive => some (.done, s.define name body recursive)
  | .dismiss => some (.done, s.dismiss)
  | .postpone i j => some (.done, s.postpone i j)
  | .reclaim i j => some (.done, s.reclaim i j)

/-- The answers and the state that operations give, one after the other. -/
def performAll? (s : ProofState β σ) : List (Operation β σ) → Option (List Answer × ProofState β σ)
  | [] => some ([], s)
  | o :: os => do
    let (a, s) ← s.perform? o
    let (as, s) ← s.performAll? os
    return (a :: as, s)

end ProofState

end TacticEngine
