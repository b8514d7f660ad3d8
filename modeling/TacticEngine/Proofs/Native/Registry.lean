/-
# TacticEngine.Proofs.Native.Registry -- what a registry comes to.

Registering steps one after the other leaves a registry in which the latest come first, so a snapshot of it
resolves a name to the first native step of that name, and else to the one registered last
(`lookup_snapshot_after`).  Tables are searched through an index; that is built by going through the table
once and keeping the first place of each name, and finds what a search of the table finds (`lookup_index`).

Programs may register steps too.  `Program.unregistering` takes some of that away from a program, and
`Host.unregistering` from all of a host's code, so that one can say what difference it makes.
-/
import Std.Data.HashMap.Lemmas
import TacticEngine.Native.Engine
import TacticEngine.Proofs.Run.Akin

namespace TacticEngine

variable {β σ α γ : Type}

/-! ## Tables and their indices -/

namespace StepTable

/-- Enter the steps of a table into an index, counting places from `i`; a name that is there already keeps
its place. -/
def indexed (index : Std.HashMap String Nat) : Nat → StepTable σ → Std.HashMap String Nat
  | _, [] => index
  | i, s :: steps => indexed (index.insertIfNew s.name i) (i + 1) steps

/-- The first place of each name in a table. -/
def index (steps : StepTable σ) : Std.HashMap String Nat := indexed {} 0 steps

theorem getElem?_indexed (steps : StepTable σ) (index : Std.HashMap String Nat) (i : Nat)
    (name : String) : (indexed index i steps)[name]? =
      index[name]?.or ((steps.findIdx? fun s => s.name == name).map (· + i)) := by
  induction steps generalizing index i with
  | nil => simp [indexed]
  | cons s steps ih =>
      rw [indexed, ih, Std.HashMap.getElem?_insertIfNew, List.findIdx?_cons]
      -- Only the first step of that name which the index does not have yet makes a difference.
      by_cases hname : s.name = name
      · subst hname
        by_cases hmem : s.name ∈ index
        · simp [hmem]
        · simp [hmem]
      · simp only [beq_iff_eq, hname, false_and, ↓reduceIte, Option.map_map]
        refine congrArg _ (congrArg (Option.map · _) (funext fun j => ?_))
        show j + (i + 1) = j + 1 + i
        omega

/-- Going by the index finds the step that is meant. -/
theorem lookup_index (steps : StepTable σ) (name : String) :
    (index steps)[name]?.bind (fun i => steps[i]?) = lookup steps name := by
  rw [index, getElem?_indexed, lookup, List.find?_eq_bind_findIdx?_getElem?]
  simp

end StepTable

/-! ## Histories of registrations -/

/-- The step registered last under a name. -/
def latest (history : List (Step σ)) (name : String) : Option (Step σ) :=
  StepTable.lookup history.reverse name

namespace World

/-- The world after steps were registered, one after the other. -/
def after (w : World β σ) (history : List (Step σ)) : World β σ :=
  history.foldl (fun w s => w.registered s) w

theorem after_eq (w : World β σ) (history : List (Step σ)) :
    ∃ log, w.after history = { w with registry := history.reverse ++ w.registry, log } := by
  induction history generalizing w with
  | nil => exact ⟨w.log, rfl⟩
  | cons s history ih =>
      obtain ⟨log, hs⟩ := w.registered_eq s
      obtain ⟨log', hrest⟩ := ih (w.registered s)
      refine ⟨log', ?_⟩
      show (w.registered s).after history = _
      rw [hrest, hs, List.reverse_cons, List.append_assoc]
      rfl

theorem lookup_after (w : World β σ) (history : List (Step σ)) (name : String) :
    StepTable.lookup (w.after history).registry name =
      (latest history name).or (StepTable.lookup w.registry name) := by
  obtain ⟨log, hw⟩ := w.after_eq history
  rw [hw]
  exact StepTable.lookup_snapshot _ _ _

end World

/-- Registered steps do not shadow native ones, and shadow each other in the order of registration. -/
theorem StepTable.lookup_snapshot_after (native : List (Step σ)) (w : World β σ)
    (history : List (Step σ)) (name : String) :
    lookup (snapshot native (w.after history).registry) name =
      (lookup native name).or ((latest history name).or (lookup w.registry name)) := by
  rw [lookup_snapshot, World.lookup_after]

/-! ## Programs that do not register steps -/

namespace Program

/-- The program without its registrations of steps with these names. -/
def unregistering (names : String → Bool) : Program β σ α → Program β σ α
  | .pure a => .pure a
  | .fail e => .fail e
  | .overflow => .overflow
  | .ask (.register s) k =>
    if names s.name then (k ()).unregistering names
    else .ask (.register s) fun a => (k a).unregistering names
  | .ask r k => .ask r fun a => (k a).unregistering names

variable {names : String → Bool}

/-- Only registrations are left out. -/
theorem unregistering_ask {r : Request β σ} (hr : ∀ s, r ≠ .register s)
    (k : r.Answer → Program β σ α) :
    (Program.ask r k).unregistering names = .ask r fun a => (k a).unregistering names := by
  cases r with
  | register s => exact absurd rfl (hr s)
  | _ => rfl

theorem unregistering_register (s : Step σ) :
    (register s : Program β σ Unit).unregistering names =
      if names s.name then .pure () else register s := rfl

theorem unregistering_bind (p : Program β σ α) (f : α → Program β σ γ) :
    (p >>= f).unregistering names =
      p.unregistering names >>= fun a => (f a).unregistering names := by
  show (p.bind f).unregistering names = (p.unregistering names).bind _
  induction p with
  | pure | fail | overflow => rfl
  | ask r k ih =>
      -- A registration that is left out leaves its continuation.
      cases r with
      | register s =>
          simp only [bind, unregistering]
          split
          · exact ih ()
          · simp only [bind, ih]
      | _ => simp only [bind, unregistering, ih]

theorem unregistering_attempt (p : Program β σ α) :
    p.attempt.unregistering names = (p.unregistering names).attempt := by
  induction p with
  | pure | fail | overflow => rfl
  | ask r k ih =>
      cases r with
      | register s =>
          simp only [attempt, unregistering]
          split
          · exact ih ()
          · simp only [attempt, ih]
      | _ => simp only [attempt, unregistering, ih]

theorem unregistering_ofExcept (x : Except (Issue β) α) :
    (ofExcept x : Program β σ α).unregistering names = ofExcept x := by
  cases x <;> rfl

theorem unregistering_reduce (r : Reduction β σ) :
    (reduce r).unregistering names = reduce r :=
  congrArg (Program.ask (.reduce r)) (funext unregistering_ofExcept)

theorem unregistering_span (m : Option String) (name : String) (p : Program β σ α) :
    (p.span m name).unregistering names = (p.unregistering names).span m name := by
  simp only [span, unregistering_bind, unregistering_attempt, unregistering_ofExcept]
  rfl

/-- Leaving out no registration changes nothing. -/
theorem unregistering_none (p : Program β σ α) : p.unregistering (fun _ => false) = p := by
  induction p with
  | pure | fail | overflow => rfl
  | ask r k ih =>
      cases r with
      | _ => simp only [unregistering, ih, Bool.false_eq_true, ↓reduceIte]

end Program

namespace Native

variable {κ : Type}

/-- The host without the registrations, in its code, of steps with these names. -/
def Host.unregistering (host : Host κ) (names : String → Bool) : Host κ :=
  { host with
    rule := fun label env ts => (host.rule label env ts).unregistering names
    tactic := fun label args result vs s => (host.tactic label args result vs s).unregistering names }

variable {names : String → Bool}

theorem Host.unregistering_none (host : Host κ) : host.unregistering (fun _ => false) = host := by
  simp only [Host.unregistering, Program.unregistering_none]

/-- Run a metaprogram with given steps. -/
def Engine.runOn (engine : Engine κ) (result : Codec κ) (tactic : Term κ) (args : List (Term κ))
    (s : ProofState κ) (steps : StepTable (Body κ)) : Program κ (Outcome κ result.Val) := do
  let env := s.mainContext
  let state ← Program.allocate (Codec.embed .proofState (.state s))
  let normal ← Program.span (some env.moduleName) "tacrun::driver::run"
    (Program.reduce { backend := engine.backend, steps, env, tactic, args := args ++ [state] })
  match (Codec.outcome result).decode normal with
  | some o =>
    let verdict := if o.isSuccess then "succeeded" else "failed"
    Program.debug fun _ => (o.state.dump? "").map fun dump =>
      "metaprogram " ++ verdict ++ " with " ++ dump
    return o
  | none =>
    Program.debug fun _ => some ("stuck result: " ++ normal.display)
    .fail (stuckIssue env normal)

/-- To run a metaprogram is to take a snapshot of the steps in force and to run it with those. -/
theorem Engine.run_eq (host : Host κ) (engine : Engine κ) (result : Codec κ) (tactic : Term κ)
    (args : List (Term κ)) (s : ProofState κ) : engine.run host result tactic args s =
      engine.steps host >>= engine.runOn result tactic args s := rfl

theorem Engine.unregistering_runOn (engine : Engine κ) (result : Codec κ) (tactic : Term κ)
    (args : List (Term κ)) (s : ProofState κ) (steps : StepTable (Body κ)) :
    (engine.runOn result tactic args s steps).unregistering names =
      engine.runOn result tactic args s steps := by
  unfold runOn
  rw [Program.unregistering_bind]
  refine bind_congr fun state => ?_
  rw [Program.unregistering_bind, Program.unregistering_span, Program.unregistering_reduce]
  refine bind_congr fun normal => ?_
  split <;> rfl

/-- Running a metaprogram registers nothing by itself. -/
theorem unregistering_run (host : Host κ) (engine : Engine κ) (result : Codec κ) (tactic : Term κ)
    (args : List (Term κ)) (s : ProofState κ) :
    (engine.run host result tactic args s).unregistering names =
      engine.run host result tactic args s := by
  rw [Engine.run_eq, Program.unregistering_bind]
  exact bind_congr fun steps => engine.unregistering_runOn result tactic args s steps

theorem unregistering_contain {α : Type} (old : ProofState κ) (p : Program κ (Outcome κ α)) :
    (contain old p).unregistering names = contain old (p.unregistering names) := by
  unfold contain
  rw [Program.unregistering_bind, Program.unregistering_attempt]
  refine bind_congr fun x => ?_
  cases x with
  | ok o => rfl
  | error e =>
      dsimp only
      split <;> rfl

theorem unregistering_call (host : Host κ) (args : List (Codec κ)) (result : Codec κ)
    (f : NativeTactic κ) (vs : Codec.Vals args) (s : ProofState κ) :
    f.call (host.unregistering names) args result vs s =
      (f.call host args result vs s).unregistering names := by
  cases f with
  | host label => rfl
  | metaprogram engine t =>
      show _ = (Program.allocate _ >>= fun terms => engine.run host result t terms s).unregistering names
      rw [Program.unregistering_bind]
      exact bind_congr fun terms => (unregistering_run host engine result t terms s).symm

/-- What a step does is what it does by the host's code, without registrations in that. -/
theorem interpret_unregistering (host : Host κ) (body : Body κ) (env : Env κ) (ts : List (Term κ)) :
    interpret (host.unregistering names) body env ts =
      (interpret host body env ts).unregistering names := by
  cases body with
  | rule label => rfl
  | total args result label =>
      simp only [interpret]
      split <;> rfl
  | tactic args result f =>
      simp only [interpret]
      split
      · rfl
      next vs s _ =>
        rw [Program.unregistering_bind, unregistering_contain, unregistering_call]
        rfl

end Native

end TacticEngine
