/-
# TacticEngine.Machine.Eval -- evaluation of compiled terms.

Arguments are passed as suspended computations, each evaluated at most once: its value is kept in a
slot of the heap.  A computation is forced when a case distinction, a step or the final read back
needs it.  `readback` turns a value into a term again and normalizes the arguments of its head; the
bodies of closures and the branches of stuck case distinctions come back as they were written.

Values outlive a computation that breaks off, so the heap is part of the state and survives errors.
The recursion is on fuel.
-/
import TacticEngine.Machine.Value
import TacticEngine.Reduce

namespace TacticEngine.Machine

variable {β σ α : Type}

/-! ## The heap -/

/-- Values of suspended computations and of constants, as far as they are known. -/
structure Heap (β σ : Type) where
  /-- The slots, each with its value once there is one. -/
  slots : Array (Option (Value β σ)) := #[]

namespace Heap

/-- The value in a slot. -/
def read (h : Heap β σ) (slot : Nat) : Option (Value β σ) := (h.slots[slot]?).join

/-- Keep a value in a slot, unless there is one already; the answer is the value that is there
now. -/
def fill (slot : Nat) (v : Value β σ) (h : Heap β σ) : Value β σ × Heap β σ :=
  match h.read slot with
  | some old => (old, h)
  | none => (v, { h with slots := h.slots.setIfInBounds slot (some v) })

/-- Do something that takes slots. -/
def reserve (m : Slots α) (h : Heap β σ) : α × Heap β σ :=
  let (a, next) := m h.slots.size
  (a, { h with slots := h.slots ++ Array.replicate (next - h.slots.size) none })

end Heap

/-- What a compiled evaluation changes. -/
structure Memory (β σ : Type) where
  /-- Known values. -/
  heap : Heap β σ := {}
  /-- The world around. -/
  world : World β σ

/-- A compiled evaluation. -/
abbrev Eval (β σ α : Type) := EStateM (Halt β) (Memory β σ) α

/-- Do something in the world around. -/
def inWorld (act : Act β σ α) : Eval β σ α := fun ⟨heap, world⟩ =>
  match act world with
  | .ok a world => .ok a ⟨heap, world⟩
  | .error e world => .error e ⟨heap, world⟩

/-- Do something with the heap. -/
def inHeap (f : Heap β σ → α × Heap β σ) : Eval β σ α := fun ⟨heap, world⟩ =>
  let (a, heap) := f heap
  .ok a ⟨heap, world⟩

/-- The value, or break off because a machine word was too small. -/
def bounded (a? : Option α) : Eval β σ α := inWorld (Act.bounded a?)

/-! ## Evaluation -/

/-- What a step does to values, for the few that do not want them read back. -/
abbrev DirectInterp (β σ : Type) :=
  σ → Option (List (Value β σ) → Act β σ (Option (Value β σ)))

/-- What is fixed throughout an evaluation. -/
structure Setting (β σ : Type) where
  /-- The steps in force. -/
  steps : StepTable σ
  /-- The definitions in scope. -/
  env : Env β σ
  /-- What steps do to terms. -/
  interp : Interp β σ
  /-- What steps do to values, where that is not what they do to terms. -/
  direct : DirectInterp β σ

/-- A variable that the frame does not bind. -/
def unbound (i : Nat) : Issue β := .internal none ("unbound variable #" ++ toString i)

/-- The value of a variable. -/
def lookup (frame : List (Value β σ)) (i : Nat) : Eval β σ (Value β σ) :=
  match frame[i]? with
  | some v => pure v
  | none => throw (.issue (unbound i))

/-- Suspend a closed term.  Literals and native values are values already. -/
def ofTerm (t : Term β σ) : Eval β σ (Value β σ) :=
  match t with
  | .lit l => pure (.lit l)
  | .blob b => pure (.blob b)
  | _ => return .thunk (← inHeap (·.reserve newSlot)) t [] none

/-- An argument as it is passed. -/
def delayed (frame : List (Value β σ)) : Delayed β σ → Eval β σ (Value β σ)
  | .var i => lookup frame i
  | .lit l => pure (.lit l)
  | .blob b => pure (.blob b)
  | .thunk src code => return .thunk (← inHeap (·.reserve newSlot)) src frame (some code)

/-- Fire a step on as many values as it takes, which `readback` turns into terms. -/
def fire (cfg : Setting β σ) (readback : Value β σ → Eval β σ (Term β σ)) (s : Step σ)
    (args : List (Value β σ)) : Eval β σ (Option (Value β σ)) :=
  match cfg.direct s.body with
  | some f => inWorld (f args)
  | none => do
    let terms ← args.mapM readback
    inWorld (Act.note (.fired s terms))
    match ← inWorld (cfg.interp s.body cfg.env terms) with
    | some t => return some (← ofTerm t)
    | none => return none

mutual
/-- Run code in a frame. -/
def run (cfg : Setting β σ) :
    Nat → Code β σ → List (Value β σ) → Eval β σ (Value β σ)
  | 0, _, _ => throw .exhausted
  | fuel + 1, code, frame =>
    match code with
    | .var i => do
      let v ← lookup frame i
      force cfg fuel v
    | .const c slot => do
      match (← get).heap.read slot with
      | some v => pure v
      | none => do
        let v ← unfold cfg fuel c
        inHeap (·.fill slot v)
    | .step t s => apply cfg fuel (.step t s []) []
    | .ctor c => pure (.ctor c [])
    | .neutral t => pure (.neutral t [])
    | .lit l => pure (.lit l)
    | .blob b => pure (.blob b)
    | .app h args => do
      let f ← run cfg fuel h frame
      let vs ← args.mapM (delayed frame)
      apply cfg fuel f vs
    | .lam n src body => pure (.lam n src body frame [])
    | .case s brs => do
      let v ← run cfg fuel s frame
      match select v brs with
      | some ((_, body), bound) => run cfg fuel body (bound.reverse ++ frame)
      | none => pure (.stuck v (branchSources brs) frame [])

/-- The value of a constant that names no step. -/
def unfold (cfg : Setting β σ) : Nat → String → Eval β σ (Value β σ)
  | 0, _ => throw .exhausted
  | fuel + 1, c =>
    match cfg.env.unfoldable c with
    | none => pure (.neutral (.const c) [])
    | some body => do
      let code ← inHeap (·.reserve (compile cfg.steps body))
      run cfg fuel code []

/-- The value of a suspended computation, which is kept; any other value is its own. -/
def force (cfg : Setting β σ) : Nat → Value β σ → Eval β σ (Value β σ)
  | 0, _ => throw .exhausted
  | fuel + 1, v =>
    match v with
    | .thunk slot src frame code? => do
      match (← get).heap.read slot with
      | some v => pure v
      | none => do
        let code ← match code? with
          | some code => pure code
          | none => inHeap (·.reserve (compile cfg.steps src))
        let v ← run cfg fuel code frame
        inHeap (·.fill slot v)
    | _ => pure v

/-- Apply a value to arguments. -/
def apply (cfg : Setting β σ) :
    Nat → Value β σ → List (Value β σ) → Eval β σ (Value β σ)
  | 0, _, _ => throw .exhausted
  | fuel + 1, f, args => do
    let f ← force cfg fuel f
    applyForced cfg fuel f args

/-- Apply a value that has been forced. -/
def applyForced (cfg : Setting β σ) :
    Nat → Value β σ → List (Value β σ) → Eval β σ (Value β σ)
  | 0, _, _ => throw .exhausted
  | fuel + 1, f, args =>
    match f with
    | .lam n src body frame held =>
      let held := held ++ args
      if held.length < n then pure (.lam n src body frame held)
      else do
        let v ← run cfg fuel body ((held.take n).reverse ++ frame)
        applyRest cfg fuel v (held.drop n)
    | .step t s held =>
      let held := held ++ args
      if held.length < s.arity then pure (.step t s held)
      else do
        let now := held.take s.arity
        let later := held.drop s.arity
        match ← fire cfg (readback cfg fuel) s now with
        | some v => do
          let v ← force cfg fuel v
          applyRest cfg fuel v later
        | none => do
          let terms ← now.mapM (readback cfg fuel)
          return .neutral (t.apps terms) later
    | .ctor c held => pure (.ctor c (held ++ args))
    | .neutral t held => pure (.neutral t (held ++ args))
    | .stuck s brs frame held => pure (.stuck s brs frame (held ++ args))
    | .lit l => pure (if args.isEmpty then .lit l else .neutral (.lit l) args)
    | .blob b => pure (if args.isEmpty then .blob b else .neutral (.blob b) args)
    | .thunk .. => do
      let v ← force cfg fuel f
      applyRest cfg fuel v args

/-- Apply the result of an application to the arguments that are left, if any are. -/
def applyRest (cfg : Setting β σ) :
    Nat → Value β σ → List (Value β σ) → Eval β σ (Value β σ)
  | 0, _, _ => throw .exhausted
  | fuel + 1, v, rest => if rest.isEmpty then pure v else applyForced cfg fuel v rest

/-- The term of a value, forced, with the arguments of its head normalized. -/
def readback (cfg : Setting β σ) : Nat → Value β σ → Eval β σ (Term β σ)
  | 0, _ => throw .exhausted
  | fuel + 1, v => do
    match ← force cfg fuel v with
    | .ctor c args => return (Term.ctor c).apps (← args.mapM (readback cfg fuel))
    | .lit l => return .lit l
    | .blob b => return .blob b
    | .lam _ src _ frame held => do
      let f ← bounded (do src.instantiate? 0 (← sources? frame))
      return f.apps (← held.mapM (readback cfg fuel))
    | .step t _ held => return t.apps (← held.mapM (readback cfg fuel))
    | .neutral t args => return t.apps (← args.mapM (readback cfg fuel))
    | .stuck s brs frame args => do
      let h ← bounded (Value.stuck s brs frame []).source?
      return h.apps (← args.mapM (readback cfg fuel))
    | .thunk .. => throw (.issue (.internal none "forcing left a thunk"))
end

/-- Evaluate a closed term. -/
def eval (cfg : Setting β σ) (fuel : Nat) (t : Term β σ) : Eval β σ (Value β σ) := do
  let code ← inHeap (·.reserve (compile cfg.steps t))
  run cfg fuel code []

end TacticEngine.Machine
