/-
# TacticEngine.Native.Script -- native tactics written down as data.

A script is a list of actions, run one after the other on a proof state and a result, which is the
unit value in the beginning.  Actions read and change the state, compute, call native tactics that are
among the arguments, start metaprograms of their own, fail or break off.  The first failure or issue
ends the script.
-/
import TacticEngine.Native.Dynamic
import TacticEngine.Native.Invocation

namespace TacticEngine.Native

open Source

variable {κ : Type}

/-! ## Pure functions -/

/-- Pure functions by name, on the values they are meant for. -/
def pureFunction (name : String) (args : List (Dyn κ)) : Option (Dyn κ) :=
  match name, args with
  | "neg", [⟨.int, n⟩] => some ⟨.int, (-n : Int)⟩
  | "not", [⟨.bool, b⟩] => some ⟨.bool, !b⟩
  | "len", [⟨.string, s⟩] => some ⟨.size, (String.length s : Nat)⟩
  | "show", [⟨.term, t⟩] => some ⟨.string, TacticEngine.Term.display t⟩
  | "rev", [⟨.list c, vs⟩] => some ⟨.list c, List.reverse vs⟩
  | "id", [d] => some d
  | "some", [⟨c, v⟩] => some ⟨.option c, some v⟩
  | "add", [⟨.int, a⟩, ⟨.int, b⟩] => some ⟨.int, (a + b : Int)⟩
  | "sub", [⟨.int, a⟩, ⟨.int, b⟩] => some ⟨.int, (a - b : Int)⟩
  | "mul", [⟨.int, a⟩, ⟨.int, b⟩] => some ⟨.int, (a * b : Int)⟩
  | "eq", [⟨.int, a⟩, ⟨.int, b⟩] => some ⟨.bool, decide ((a : Int) = b)⟩
  | "lt", [⟨.int, a⟩, ⟨.int, b⟩] => some ⟨.bool, decide ((a : Int) < b)⟩
  | "same", [⟨.term, a⟩, ⟨.term, b⟩] => some ⟨.bool, TacticEngine.Term.same a b⟩
  | "cat", [⟨.string, a⟩, ⟨.string, b⟩] => some ⟨.string, (a ++ b : String)⟩
  | "pair", [⟨a, x⟩, ⟨b, y⟩] => some ⟨.pair a b, (x, y)⟩
  | "fst", [d, _] => some d
  | _, _ => none

/-! ## Rules -/

namespace NativeCode

/-- A rule that applies a lambda with the given body. -/
def unfolding (name : String) (body : Term κ) : NativeCode κ :=
  { name, rule := fun _ ts => some <$> Program.ofOption (body.beta? ts) }

/-- A rule that ends every evaluation with an issue. -/
def failing (name : String) (e : Issue κ) : NativeCode κ :=
  { name, rule := fun _ _ => .fail e }

/-- A rule that gives back one of its arguments.  Compiled evaluation passes the value on without
looking at it. -/
def projection (name : String) (i : Nat) : NativeCode κ :=
  { name, rule := fun _ ts => return ts[i]?, direct := some fun vs => vs[i]? }

/-- A rule that gives the body of the definition that a string names, and the unit value where there
is no such body. -/
def definition (name : String) : NativeCode κ :=
  { name
    rule := fun env ts => return do
      let [t] := ts | none
      let .string s ← t.asLit? | none
      some (((env.lookup s).bind (·.body)).getD .unit) }

end NativeCode

/-! ## Actions on the state -/

/-- Something that is done to a proof state. -/
inductive StateAction (κ : Type) where
  /-- Take a fresh number. -/
  | fresh
  /-- Introduce a placeholder. -/
  | newUVar (type : Term κ) (reason : String) (range : FileSpan)
  /-- Introduce a goal, in the main context unless an environment is given. -/
  | newGoal (type : Term κ) (label : String) (irrelevant : Bool) (env : Option (Env κ))
  /-- Put a goal behind the others without further ado. -/
  | addGoal (g : Goal κ)
  /-- Drop the focused goal. -/
  | dismiss
  /-- Leave the focused goal to a solver. -/
  | defer
  /-- Strike a placeholder from the implicits. -/
  | forget (u : Nat)
  /-- Give a placeholder its solution. -/
  | solve (u : Nat) (t : Term κ)
  /-- Note that a solution need not be checked again. -/
  | markChecked (u : Nat)
  /-- Move the place of entry. -/
  | setEntry (range : FileSpan)
  /-- Set the depth of dumps. -/
  | setDepth (n : Nat)
  /-- Set the last fresh number. -/
  | setFreshness (n : Nat)
  /-- Add a definition to the main context. -/
  | define (name : String) (body : Option (Term κ)) (recursive : Bool)

/-- The value and the state that an action gives, unless a machine word is too small. -/
def StateAction.perform (s : ProofState κ) : StateAction κ → Option (Dyn κ × ProofState κ)
  | .fresh => s.fresh?.map fun (n, s) => (⟨.size, n⟩, s)
  | .newUVar type reason range =>
    let (u, s) := s.newUVar type reason range
    some (⟨.size, u⟩, s)
  | .newGoal type label irrelevant env =>
    let (u, s) := s.newGoal (env.getD s.mainContext) type label irrelevant
    some (⟨.size, u⟩, s)
  | .addGoal g => some (.unit, { s with goals := s.goals ++ [g] })
  | .dismiss => some (.unit, s.dismiss)
  | .defer => some (.unit, s.defer)
  | .forget u => some (.unit, { s with implicits := s.implicits.filter (·.uvar != u) })
  | .solve u t =>
    let (ok, s) := s.solve u t
    some (⟨.bool, ok⟩, s)
  | .markChecked u => some (.unit, s.markChecked u)
  | .setEntry range => some (.unit, { s with entryRange := range })
  | .setDepth n => some (.unit, { s with depth := n })
  | .setFreshness n => some (.unit, { s with freshness := n })
  | .define name body recursive => some (.unit, s.define name body recursive)

/-! ## Scripts -/

/-- An action of a script.  Arguments are referred to by number. -/
inductive Action (κ : Type) where
  /-- Do something to the state and keep the result. -/
  | state (a : StateAction κ)
  /-- Do something to the state; its value is the result. -/
  | yield (a : StateAction κ)
  /-- Give a placeholder an argument as its solution; the result is whether it has it. -/
  | solveArg (u i : Nat)
  /-- The result is the given value. -/
  | ret (d : Dyn κ)
  /-- The result is an argument. -/
  | arg (i : Nat)
  /-- The result is that of a pure function on arguments. -/
  | apply (f : String) (is : List Nat)
  /-- The result is the state. -/
  | get
  /-- Go on in the state that is an argument. -/
  | set (i : Nat)
  /-- The result is the main context. -/
  | env
  /-- The result is the focused goal; without one the script fails. -/
  | firstGoal
  /-- Fail. -/
  | fail (reason : Failure κ)
  /-- Break off with an issue. -/
  | raiseIssue (e : Issue κ)
  /-- Break off with a value of the host. -/
  | raise (text : String)
  /-- Call a native tactic among the arguments, on another argument if it takes one. -/
  | call (i : Nat) (j : Option Nat)
  /-- The same; a failure does not end the script but gives the old state and no value. -/
  | attempt (i : Nat) (j : Option Nat)
  /-- Run a metaprogram on an argument; the result is its value, the state is kept. -/
  | invoke (i : Nat) (invocation : Invocation κ) (checker : Checker κ) (engine : Engine κ)
      (arg result : Codec κ)

/-- An argument by number. -/
def argument (args : List (Dyn κ)) (i : Nat) : Dyn κ := args[i]?.getD .unit

/-- Call the native tactic that is argument `i`, on argument `j` if it takes one. -/
def callArgument [DecidableEq κ] (host : Host κ) (args : List (Dyn κ)) (i : Nat) (j : Option Nat)
    (s : ProofState κ) : Program κ (Outcome κ (Dyn κ)) :=
  match argument args i, j with
  | ⟨.thunk r _, f⟩, _ => do
    let o ← NativeTactic.call host [] r f () s
    return o.map fun v => ⟨r, v⟩
  | ⟨.function a r _, f⟩, some j => do
    let o ← NativeTactic.call host [a] r f ((argument args j).as a, ()) s
    return o.map fun v => ⟨r, v⟩
  | _, _ => return .fail "not callable" s

/-- The codec of what the native tactic that is argument `i` gives. -/
def resultCodec (args : List (Dyn κ)) (i : Nat) : Codec κ :=
  match (argument args i).codec with
  | .thunk r _ => r
  | .function _ r _ => r
  | _ => .unit

/-- Run an action on the result and the state so far. -/
def Action.run [DecidableEq κ] (host : Host κ) (args : List (Dyn κ)) (d : Dyn κ)
    (s : ProofState κ) : Action κ → Program κ (Outcome κ (Dyn κ))
  | .state a => do
    let (_, s) ← Program.ofOption (a.perform s)
    return .success d s
  | .yield a => do
    let (d, s) ← Program.ofOption (a.perform s)
    return .success d s
  | .solveArg u i =>
    let (ok, s) := s.solve u ((argument args i).as .term)
    return .success ⟨.bool, ok⟩ s
  | .ret d => return .success d s
  | .arg i => return .success (argument args i) s
  | .apply f is => return .success ((pureFunction f (is.map (argument args))).getD d) s
  | .get => return .success ⟨.state, s⟩ s
  | .set i => return .success d ((argument args i).as .state)
  | .env => return .success ⟨.env, s.mainContext⟩ s
  | .firstGoal =>
    match s.goals with
    | g :: _ => return .success ⟨.goal, g⟩ s
    | [] => return .fail "no goals" s
  | .fail reason => return .failed reason s
  | .raiseIssue e => .fail e
  | .raise text => do
    let id ← Program.allocate Codec.newId
    .fail (.foreign ⟨id, .text text⟩)
  | .call i j => callArgument host args i j s
  | .attempt i j => do
    let c := resultCodec args i
    match ← callArgument host args i j s with
    | .success d s => return .success ⟨.option c, some (d.as c)⟩ s
    | .failed _ _ => return .success ⟨.option c, none⟩ s
  | .invoke i invocation checker engine a r => do
    let (_, v) ← invocation.run host checker engine a r ((argument args i).as a) s
    return .success ⟨r, v⟩ s

/-- Run a script from a result and a state. -/
def runScript [DecidableEq κ] (host : Host κ) (args : List (Dyn κ)) :
    List (Action κ) → Dyn κ → ProofState κ → Program κ (Outcome κ (Dyn κ))
  | [], d, s => return .success d s
  | a :: rest, d, s => do
    match ← a.run host args d s with
    | .success d s => runScript host args rest d s
    | .failed reason s => return .failed reason s

/-- A script as native code. -/
def NativeCode.ofScript [DecidableEq κ] (name : String) (script : List (Action κ)) :
    NativeCode κ :=
  { name, tactic := fun host args s => runScript host args script .unit s }

/-! ## A type checker that answers as told -/

/-- What a type checker is told to answer. -/
structure Answers (κ : Type) where
  /-- Refuse every metaprogram with this issue. -/
  refusal : Option (Issue κ)
  /-- The side condition of every metaprogram. -/
  guard : Option (Term κ)
  /-- Unify nothing. -/
  noUnify : Bool
  /-- Solutions found when implicits are resolved. -/
  solutions : List (Nat × Term κ)
  /-- Tags of implicits that stay without solution. -/
  tags : List (Nat × ImplicitTag κ)

/-- The type checker that answers as told. -/
def Checker.ofAnswers (id : Nat) (told : Answers κ) : Checker κ :=
  { id
    typecheck := fun _ _ _ _ =>
      match told.refusal, told.guard with
      | some e, _ => .error e
      | none, some t => .ok (.nontrivial t)
      | none, none => .ok .trivial
    discharge := fun env g =>
      match g with
      | .trivial | .nontrivial (.const "True") => .ok ()
      | .nontrivial t =>
        .error (.error (some env.range) .illTypedTactic
          ["guard " ++ t.display ++ " is not trivial"])
    unify := fun _ s a b =>
      match told.noUnify, a with
      | true, _ => (false, s)
      | false, .uvar u => s.solve u b
      | false, _ => (a.same b, s)
    resolve := fun _ s is =>
      let s := told.solutions.foldl (fun s (u, t) => (s.solve u t).2) s
      (is.filterMap fun i =>
        if (s.solution? i.uvar).isSome then none
        else some (i, (told.tags.lookup i.uvar).getD .unresolved), s) }

end TacticEngine.Native
