/-
# TacticEngine.Native.Engine -- running an applied metaprogram to completion.

An engine applies a metaprogram to arguments and to the proof state, has the application reduced with
the steps that are in force at that moment, and reads the outcome off the normal form.  A normal form
that is no outcome means that evaluation got stuck.

Steps in turn run native tactics, and a native tactic may be a metaprogram with an engine.  So `interpret`,
which says what a step does, and `evaluate`, which carries reductions out, refer to each other; fuel
bounds both the length of evaluations and the depth to which they are nested.
-/
import TacticEngine.Diagnosis
import TacticEngine.Machine.Eval
import TacticEngine.Native.Host

namespace TacticEngine.Native

open Codec (Vals decodeAll decodeCall encodeAll embed)

variable {κ : Type}

/-! ## Engines and native tactics as programs -/

/-- An engine as it is shown. -/
def Engine.display (engine : Engine κ) : String :=
  "Driver \x7b backend: " ++ engine.backend.display ++ ", .. \x7d"

/-- The steps in force now: those of the host, then the registered ones. -/
def Engine.steps (host : Host κ) (engine : Engine κ) : Program κ (StepTable (Body κ)) := do
  return StepTable.snapshot (host.natives engine.native) (← Program.registry)

/-- Run a metaprogram on arguments that are terms and on a proof state. -/
def Engine.run (host : Host κ) (engine : Engine κ) (result : Codec κ) (tactic : Term κ)
    (args : List (Term κ)) (s : ProofState κ) : Program κ (Outcome κ result.Val) := do
  let env := s.mainContext
  let steps ← engine.steps host
  let state ← Program.allocate (embed .proofState (.state s))
  let normal ← Program.span (some env.moduleName) "tacrun::driver::run"
    (Program.reduce { backend := engine.backend, steps, env, tactic, args := args ++ [state] })
  match (Codec.outcome result).decode normal with
  | some o =>
    let verdict := if o.isSuccess then "succeeded" else "failed"
    Program.debug fun _ => (o.state.dump? "").map fun dump =>
      "metaprogram " ++ verdict ++ " with " ++ dump
    return o
  | none =>
    Program.debug fun _ => some ("stuck result: " ++ normal.display)
    .fail (stuckIssue env normal)

/-- Run a metaprogram on values and on a proof state. -/
def Engine.call (host : Host κ) (engine : Engine κ) (args : List (Codec κ)) (result : Codec κ)
    (tactic : Term κ) (vs : Vals args) (s : ProofState κ) :
    Program κ (Outcome κ result.Val) := do
  let terms ← Program.allocate (encodeAll args vs)
  engine.run host result tactic terms s

/-- Call a native tactic. -/
def NativeTactic.call (host : Host κ) (args : List (Codec κ)) (result : Codec κ) :
    NativeTactic κ → Vals args → ProofState κ → Program κ (Outcome κ result.Val)
  | .host label, vs, s => do
    Program.note (.entered (host.name label))
    host.tactic label args result vs s
  | .metaprogram engine t, vs, s => engine.call host args result t vs s

/-- What a step does to terms. -/
def interpret (host : Host κ) : Body κ → Env κ → List (Term κ) → Program κ (Option (Term κ))
  | .rule label, env, ts => do
    Program.note (.entered (host.name label))
    host.rule label env ts
  | .total args result label, _, ts =>
    match decodeAll args ts with
    | none => return none
    | some vs => do
      Program.note (.entered (host.name label))
      return some (← Program.allocate (result.encode (host.total label args result vs)))
  | .tactic args result f, _, ts =>
    match decodeCall args ts with
    | none => return none
    | some (vs, s) => do
      let o ← contain s (f.call host args result vs s)
      return some (← Program.allocate ((Codec.outcome result).encode o))

/-- What a step does to values, if it leaves them alone. -/
def interpretDirect (host : Host κ) : Machine.DirectInterp (Content κ) (Body κ)
  | .rule label => (host.direct label).map fun f vs => do
    Act.note (.entered (host.name label))
    return f vs
  | _ => none

/-! ## Carrying reductions out -/

/-- What a metaprogram's application is reduced with, given what steps do. -/
def reduceSetting (interp : Interp (Content κ) (Body κ)) (steps : StepTable (Body κ))
    (env : Env κ) : Reduce.Setting (Content κ) (Body κ) :=
  { steps, flags := .tactic, env, interp }

/-- What a compiled evaluation runs with, given what steps do to terms. -/
def machineSetting (host : Host κ) (interp : Interp (Content κ) (Body κ))
    (steps : StepTable (Body κ)) (env : Env κ) : Machine.Setting (Content κ) (Body κ) :=
  { steps, env, interp, direct := interpretDirect host }

/-- Compiled evaluation of an application: the metaprogram is evaluated, its value is applied to the
suspended arguments, and what comes out is read back. -/
def applyCompiled (cfg : Machine.Setting (Content κ) (Body κ)) (fuel : Nat) (tactic : Term κ)
    (args : List (Term κ)) : Machine.Eval (Content κ) (Body κ) (Term κ) := do
  let f ← Machine.eval cfg fuel tactic
  let vs ← args.mapM Machine.ofTerm
  let v ← Machine.apply cfg fuel f vs
  Machine.readback cfg fuel v

/-- Run a compiled evaluation with a heap of its own. -/
def withHeap {α : Type} (m : Machine.Eval (Content κ) (Body κ) α) : Act κ α := fun world =>
  match m { world } with
  | .ok a memory => .ok a memory.world
  | .error e memory => .error e memory.world

mutual
/-- What steps do, given fuel. -/
def interp (host : Host κ) : Nat → Interp (Content κ) (Body κ)
  | 0, _, _, _ => throw .exhausted
  | fuel + 1, body, env, ts => (interpret host body env ts).run (evaluate host fuel)

/-- The normal form of an application, given fuel. -/
def evaluate (host : Host κ) : Nat → Reduction (Content κ) (Body κ) → Act κ (Term κ)
  | 0, _ => throw .exhausted
  | fuel + 1, r =>
    match r.backend with
    | .reduce =>
      Reduce.norm (reduceSetting (interp host fuel) r.steps r.env) fuel (r.tactic.apps r.args)
    | .compiled =>
      withHeap (applyCompiled (machineSetting host (interp host fuel) r.steps r.env)
        fuel r.tactic r.args)
end

/-- Carry a program of the host out. -/
def execute {α : Type} (host : Host κ) (fuel : Nat) (p : Program κ α) : Act κ α :=
  p.run (evaluate host fuel)

end TacticEngine.Native
