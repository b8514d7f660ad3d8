/-
# TacticEngine.Reduce -- evaluation by reducing the term itself.

`whnf` reduces a term at its head until nothing applies there: wrappers are dropped, definitions
unfolded, lambdas applied, branches taken and steps fired.  `norm` then normalizes the arguments
of the application that is left.  Nothing under a binder is reduced.  A step is fired on normalized
arguments; if it declines them, the application stays as it is, with those arguments.

What a step does is the parameter `interp` of a `Setting`.  The recursion is on fuel, since terms
need not have a normal form; a run that uses up its fuel says so.
-/
import TacticEngine.Run.World
import TacticEngine.StepTable
import TacticEngine.Term.Bounded

namespace TacticEngine

variable {β σ α : Type}

/-- What a reduction may do. -/
structure Flags where
  /-- Look through reification. -/
  reify : Bool := false
  /-- Unfold definitions. -/
  delta : Bool := false
  /-- Fire steps. -/
  primops : Bool := false
  /-- Drop ascriptions at the head. -/
  unascribe : Bool := false
  /-- Leave the arguments of the head application alone. -/
  hnf : Bool := false
  deriving Repr, DecidableEq

namespace Flags

/-- What running a metaprogram may do. -/
def tactic : Flags := { reify := true, delta := true, primops := true, unascribe := true }

/-- The flags as bits, the first declared one being the lowest. -/
def bits (f : Flags) : Nat :=
  f.reify.toNat + 2 * f.delta.toNat + 4 * f.primops.toNat + 8 * f.unascribe.toNat
    + 16 * f.hnf.toNat

/-- The flags as they are shown. -/
def display (f : Flags) : String :=
  let names := [(f.reify, "REIFY"), (f.delta, "DELTA"), (f.primops, "PRIMOPS"),
    (f.unascribe, "UNASCRIBE"), (f.hnf, "HNF")].filterMap fun (set, name) =>
      if set then some name else none
  "Flags(" ++ (if names.isEmpty then "0x0" else String.intercalate " | " names) ++ ")"

/-- Every flag of `g` is set in `f`. -/
def contains (f g : Flags) : Bool :=
  (f.reify || !g.reify) && (f.delta || !g.delta) && (f.primops || !g.primops)
    && (f.unascribe || !g.unascribe) && (f.hnf || !g.hnf)

end Flags

/-- What a step does to arguments in normal form, given the environment; `none` if it does not
apply to them. -/
abbrev Interp (β σ : Type) := σ → Env β σ → List (Term β σ) → Act β σ (Option (Term β σ))

namespace Reduce

/-- What is fixed throughout a reduction. -/
structure Setting (β σ : Type) where
  /-- The steps in force. -/
  steps : StepTable σ
  /-- What may be done. -/
  flags : Flags
  /-- The definitions in scope. -/
  env : Env β σ
  /-- What steps do. -/
  interp : Interp β σ

/-- The branch taken for a scrutinee in weak head normal form, with the values it binds put in.
There is none if no pattern matches, or if a pattern is met that cannot be told to match or
not. -/
def select (s : Term β σ) : List (Branch (Term β σ)) → Option (Option (Term β σ))
  | [] => none
  | ⟨.wild, body⟩ :: _ => some (some body)
  | ⟨.var, body⟩ :: _ => some (body.beta? [s])
  | ⟨.lit l, body⟩ :: rest =>
    match s.asLit? with
    | none => none
    | some l' => if l = l' then some (some body) else select s rest
  | ⟨.ctor c n, body⟩ :: rest =>
    match s.asCtorApp? with
    | none => none
    | some (c', args) =>
      if c = c' ∧ args.length = n then some (body.beta? args) else select s rest

/-- The step that a head stands for. -/
def stepOf (cfg : Setting β σ) (head : Term β σ) : Option (Step σ) :=
  if cfg.flags.primops then
    match head with
    | .const c => cfg.steps.lookup c
    | .native s => some s
    | _ => none
  else none

/-- What a constant may be replaced by: its body, unless it is the name of a step. -/
def bodyOf? (cfg : Setting β σ) (name : String) : Option (Term β σ) :=
  if cfg.flags.delta && (cfg.steps.lookup name).isNone then cfg.env.unfoldable name else none

/-- Fire a step on the first arguments, which `norm` normalizes.  The answer is what the
application becomes, and whether that is a result of the step or what is left of the application
because the step declined. -/
def fire (cfg : Setting β σ) (norm : Term β σ → Act β σ (Term β σ)) (step : Step σ)
    (head : Term β σ) (args : List (Term β σ)) : Act β σ (Bool × Term β σ) := do
  let now ← (args.take step.arity).mapM norm
  let later := args.drop step.arity
  Act.debug .trace fun _ =>
    some ("firing " ++ step.name ++ " on " ++ toString now.length ++ " arguments")
  Act.note (.fired step now)
  match ← cfg.interp step.body cfg.env now with
  | some result => return (true, result.apps later)
  | none => return (false, head.apps (now ++ later))

mutual
/-- Weak head normal form. -/
def whnf (cfg : Setting β σ) : Nat → Term β σ → Act β σ (Term β σ)
  | 0, _ => throw .exhausted
  | fuel + 1, t =>
    match t with
    | .annotated e _ => whnf cfg fuel e
    | .ascribed e _ => if cfg.flags.unascribe then whnf cfg fuel e else pure t
    | .reify e => if cfg.flags.reify then whnf cfg fuel e else pure t
    | .const c =>
      match stepOf cfg t with
      | some step => fireConstant cfg fuel step t
      | none =>
        match bodyOf? cfg c with
        | some body => whnf cfg fuel body
        | none => pure t
    | .native _ =>
      match stepOf cfg t with
      | some step => fireConstant cfg fuel step t
      | none => pure t
    | .app h args => do
      let h' ← whnf cfg fuel h
      whnfApp cfg fuel h' args
    | .case s brs => do
      let s' ← whnf cfg fuel s
      match select s' brs with
      | some body? => do
        let body ← Act.bounded body?
        whnf cfg fuel body
      | none => pure (.case s' brs)
    | _ => pure t

/-- Fire a step that is met without arguments, if it takes none. -/
def fireConstant (cfg : Setting β σ) : Nat → Step σ → Term β σ → Act β σ (Term β σ)
  | 0, _, _ => throw .exhausted
  | fuel + 1, step, t =>
    if step.arity ≠ 0 then pure t
    else do
      match ← fire cfg (norm cfg fuel) step t [] with
      | (true, result) => whnf cfg fuel result
      | (false, _) => pure t

/-- Weak head normal form of an application whose head is in weak head normal form. -/
def whnfApp (cfg : Setting β σ) : Nat → Term β σ → List (Term β σ) → Act β σ (Term β σ)
  | 0, _, _ => throw .exhausted
  | fuel + 1, h, args =>
    match h with
    | .app .. => whnf cfg fuel (h.apps args)
    | .lam n body =>
      if n ≤ args.length then do
        let body ← Act.bounded (body.beta? (args.take n))
        whnf cfg fuel (body.apps (args.drop n))
      else pure (h.apps args)
    | _ =>
      match stepOf cfg h with
      | none => pure (h.apps args)
      | some step =>
        if step.arity ≤ args.length then do
          match ← fire cfg (norm cfg fuel) step h args with
          | (true, result) => whnf cfg fuel result
          | (false, stuck) => pure stuck
        else pure (h.apps args)

/-- Weak head normal form, with the arguments of the head application normalized too unless
only the head is wanted. -/
def norm (cfg : Setting β σ) : Nat → Term β σ → Act β σ (Term β σ)
  | 0, _ => throw .exhausted
  | fuel + 1, t => do
    let t ← whnf cfg fuel t
    if cfg.flags.hnf then return t
    match t with
    | .app h args => return h.apps (← args.mapM (norm cfg fuel))
    | _ => return t
end

end Reduce

end TacticEngine
