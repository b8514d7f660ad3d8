/-
# TacticEngine.Proof.State -- what a metaprogram works on.

A proof state holds the environment, a table of placeholders, the goals and the list of all
placeholders introduced so far.  A goal is open until the placeholder that stands for its proof, its
witness, has a solution.  Solutions are written once.

The counters of a state fit in a machine word of 64 bits; an operation that would leave that range
has no result.
-/
import TacticEngine.Proof.Env
import TacticEngine.Term.Printer

namespace TacticEngine

open Source

variable {β σ : Type}

/-- The entry of a placeholder in the table. -/
structure UVarDecl (β σ : Type) where
  /-- The type of its solution. -/
  type : Term β σ
  /-- Why it was introduced. -/
  reason : String
  /-- Where it was introduced. -/
  range : FileSpan
  /-- Its solution, once there is one. -/
  solution : Option (Term β σ) := none
  /-- The solution need not be checked again. -/
  checked : Bool := false

/-- An open obligation. -/
structure Goal (β σ : Type) where
  /-- Where the obligation is to be met. -/
  env : Env β σ
  /-- The placeholder that stands for the proof. -/
  witness : Nat
  /-- Any proof will do, so the unit value has to. -/
  irrelevant : Bool
  /-- A name for the user; may be empty. -/
  label : String

/-- The record that a placeholder has to be resolved some time. -/
structure Implicit where
  /-- The placeholder. -/
  uvar : Nat
  /-- Why it was introduced. -/
  reason : String
  /-- Where it was introduced. -/
  range : FileSpan

/-- The state that a metaprogram works on. -/
structure ProofState (β σ : Type) where
  /-- The environment of the enclosing declaration. -/
  mainContext : Env β σ
  /-- The goals to work on, the focused one first. -/
  goals : List (Goal β σ) := []
  /-- The goals left to a solver. -/
  smtGoals : List (Goal β σ) := []
  /-- All placeholders introduced so far, witnesses included, oldest first. -/
  implicits : List Implicit := []
  /-- The table of placeholders. -/
  uvars : UVarTable (UVarDecl β σ) := {}
  /-- Where the metaprogram was entered. -/
  entryRange : FileSpan
  /-- How deep dumps are indented. -/
  depth : Nat := 0
  /-- The last fresh number handed out. -/
  freshness : Nat := 0
  /-- Debug this state at length. -/
  verbose : Bool := false

/-- Counters are below this bound. -/
def counterLimit : Nat := UInt64.size

namespace ProofState

/-! ## Placeholders -/

/-- The entry of a placeholder. -/
def uvar? (s : ProofState β σ) (u : Nat) : Option (UVarDecl β σ) := s.uvars.get? u

/-- The solution of a placeholder. -/
def solution? (s : ProofState β σ) (u : Nat) : Option (Term β σ) := (s.uvar? u).bind (·.solution)

/-- Introduce a placeholder and record it among the implicits. -/
def newUVar (s : ProofState β σ) (type : Term β σ) (reason : String) (range : FileSpan) :
    Nat × ProofState β σ :=
  let (u, uvars) := s.uvars.push { type, reason, range }
  (u, { s with uvars, implicits := s.implicits ++ [⟨u, reason, range⟩] })

/-- Give a placeholder its solution.  The answer is whether it has that solution afterwards: an
unknown placeholder has none, and a solved one keeps the solution it has. -/
def solve (s : ProofState β σ) (u : Nat) (t : Term β σ) : Bool × ProofState β σ :=
  match s.uvar? u with
  | none => (false, s)
  | some d =>
    match d.solution with
    | some old => (old.same t, s)
    | none => (true, { s with uvars := s.uvars.modify u ({ · with solution := some t }) })

/-- A known placeholder without solution gets the one it is given. -/
theorem solution?_solve {s : ProofState β σ} {u : Nat} {t : Term β σ}
    (unsolved : s.solution? u = none) (known : (s.uvar? u).isSome) :
    (s.solve u t).2.solution? u = some t := by
  obtain ⟨d, hd⟩ := Option.isSome_iff_exists.mp known
  have hs : d.solution = none := by simpa [solution?, hd] using unsolved
  simp only [solve, hd, hs, solution?]
  rw [uvar?, UVarTable.get?_modify_self]
  rw [uvar?] at hd
  simp [hd]

/-- Note that the solution of a placeholder need not be checked again. -/
def markChecked (s : ProofState β σ) (u : Nat) : ProofState β σ :=
  { s with uvars := s.uvars.modify u ({ · with checked := true }) }

/-! ## Goals -/

/-- All open goals: those to work on, then those left to a solver. -/
def openGoals (s : ProofState β σ) : List (Goal β σ) := s.goals ++ s.smtGoals

/-- Introduce a goal behind the others, with a placeholder as its witness. -/
def newGoal (s : ProofState β σ) (env : Env β σ) (type : Term β σ) (label : String)
    (irrelevant : Bool) : Nat × ProofState β σ :=
  let (witness, s) := s.newUVar type ("goal " ++ label) env.range
  (witness, { s with goals := s.goals ++ [{ env, witness, irrelevant, label }] })

/-- Where a goal was introduced; for an unknown witness, where its environment is. -/
def goalRange (s : ProofState β σ) (g : Goal β σ) : FileSpan :=
  match s.uvar? g.witness with
  | some d => d.range
  | none => g.env.range

/-- The type of a goal, if its witness is known. -/
def goalType? (s : ProofState β σ) (g : Goal β σ) : Option (Term β σ) :=
  (s.uvar? g.witness).map (·.type)

/-- Drop the focused goal. -/
def dismiss (s : ProofState β σ) : ProofState β σ := { s with goals := s.goals.drop 1 }

/-- Leave the focused goal to a solver. -/
def defer (s : ProofState β σ) : ProofState β σ :=
  { s with goals := s.goals.drop 1, smtGoals := s.smtGoals ++ s.goals.take 1 }

/-- The witness of every open goal is in the table and among the implicits. -/
def wellFormed (s : ProofState β σ) : Bool :=
  s.openGoals.all fun g =>
    (s.uvar? g.witness).isSome && s.implicits.any (·.uvar == g.witness)

/-! ## Numbers -/

/-- A number that this state has not handed out before, unless all have been. -/
def fresh? (s : ProofState β σ) : Option (Nat × ProofState β σ) :=
  if s.freshness + 1 < counterLimit then
    some (s.freshness + 1, { s with freshness := s.freshness + 1 })
  else none

/-- Add a definition to the main context. -/
def define (s : ProofState β σ) (name : String) (body : Option (Term β σ)) (recursive : Bool) :
    ProofState β σ :=
  { s with mainContext := s.mainContext.define name body recursive }

/-! ## Display -/

/-- The lines of goal number `i`, counted from zero, of `n`. -/
def displayGoal (s : ProofState β σ) (i n : Nat) (g : Goal β σ) : String :=
  let title := "Goal " ++ toString (i + 1) ++ "/" ++ toString n
  let label := if g.label.isEmpty then "" else " (" ++ g.label ++ ")"
  let type := match s.goalType? g with
    | some ty => ty.display
    | none => "<unknown>"
  title ++ label ++ "\n  " ++ displayUVar g.witness ++ " : " ++ type ++ "\n"

/-- A proof state as it is shown: a heading, the goals with their types, and the witnesses of the
goals left to a solver. -/
def display (s : ProofState β σ) : String :=
  let n := s.goals.length
  let heading := "ProofState at " ++ s.entryRange.display ++ " (" ++ toString n ++ " goals, "
    ++ toString s.smtGoals.length ++ " smt goals)\n"
  let goals := (s.goals.zipIdx.map fun (g, i) => s.displayGoal i n g)
  let smt := if s.smtGoals.isEmpty then "" else
    "SMT goals: " ++ String.intercalate ", " (s.smtGoals.map (displayUVar ·.witness)) ++ "\n"
  heading ++ String.join goals ++ smt

/-- A text of more bytes than this cannot be built. -/
def textLimit : Nat := UInt64.size / 2 - 1

/-- The state as it is shown in a dump, under a message that is indented by two blanks for each
level of depth; none if the indentation alone is too long a text. -/
def dump? (s : ProofState β σ) (message : String) : Option String :=
  if 2 * s.depth ≤ textLimit then
    some ("".pushn ' ' (2 * s.depth) ++ message ++ "\n" ++ s.display)
  else none

end ProofState

end TacticEngine
