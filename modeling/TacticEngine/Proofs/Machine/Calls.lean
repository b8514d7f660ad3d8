/-
# TacticEngine.Proofs.Machine.Calls -- what an evaluation goes through.

The machine recurs through seven functions.  A `Call` is one of them with its arguments, and together with the
memory that it starts from it is all there is to a configuration of the machine.  `Calls` says which calls a
call makes.  A host suspends and evaluates closed terms, and forces, applies and reads back the values that it
gets, in one memory and for as long as it likes (`Session`); the calls that are made in the course of that are
`Reached`.
-/
import TacticEngine.Machine.Eval
import TacticEngine.Proofs.Reduction.Invariant

namespace TacticEngine

variable {β σ : Type}

/-- The term is closed, and every native step in it is allowed. -/
def Term.ClosedAmong (allowed : Step σ → Prop) (t : Term β σ) : Prop :=
  t.Closed ∧ t.StepsAmong allowed

namespace Machine

/-! ## Calls -/

/-- A call of one of the machine's functions. -/
inductive Call (β σ : Type) where
  | run (code : Code β σ) (frame : List (Value β σ))
  | unfold (name : String)
  | force (v : Value β σ)
  | apply (f : Value β σ) (args : List (Value β σ))
  | applyForced (f : Value β σ) (args : List (Value β σ))
  | applyRest (v : Value β σ) (rest : List (Value β σ))
  | readback (v : Value β σ)

/-- What a call gives. -/
inductive Reply (β σ : Type) where
  | value (v : Value β σ)
  | term (t : Term β σ)

/-- Make a call. -/
def Call.perform (cfg : Setting β σ) (fuel : Nat) : Call β σ → Eval β σ (Reply β σ)
  | .run code frame => return .value (← Machine.run cfg fuel code frame)
  | .unfold c => return .value (← Machine.unfold cfg fuel c)
  | .force v => return .value (← Machine.force cfg fuel v)
  | .apply f args => return .value (← Machine.apply cfg fuel f args)
  | .applyForced f args => return .value (← Machine.applyForced cfg fuel f args)
  | .applyRest v rest => return .value (← Machine.applyRest cfg fuel v rest)
  | .readback v => return .term (← Machine.readback cfg fuel v)

/-- The values that the head of a value is applied to. -/
def Value.held : Value β σ → List (Value β σ)
  | .ctor _ args | .lam _ _ _ _ args | .step _ _ args | .neutral _ args | .stuck _ _ _ args => args
  | .lit _ | .blob _ | .thunk .. => []

/-- The calls that a call may make, with `fuel` for each of them, and the memory from which it makes them. -/
inductive Calls (cfg : Setting β σ) (fuel : Nat) :
    Call β σ → Memory β σ → Call β σ → Memory β σ → Prop where
  | var {i frame v m m'} : lookup frame i m = .ok v m' →
      Calls cfg fuel (.run (.var i) frame) m (.force v) m'
  | const {c slot frame m} : m.heap.read slot = none →
      Calls cfg fuel (.run (.const c slot) frame) m (.unfold c) m
  | step {t s frame m} :
      Calls cfg fuel (.run (.step t s) frame) m (.apply (.step t s []) []) m
  | head {h as frame m} : Calls cfg fuel (.run (.app h as) frame) m (.run h frame) m
  | app {h as frame f vs m m₁ m₂} : run cfg fuel h frame m = .ok f m₁ →
      as.mapM (delayed frame) m₁ = .ok vs m₂ →
      Calls cfg fuel (.run (.app h as) frame) m (.apply f vs) m₂
  | scrutinee {s brs frame m} : Calls cfg fuel (.run (.case s brs) frame) m (.run s frame) m
  | branch {s brs frame v src body bound m m₁} : run cfg fuel s frame m = .ok v m₁ →
      select v brs = some ((src, body), bound) →
      Calls cfg fuel (.run (.case s brs) frame) m (.run body (bound.reverse ++ frame)) m₁
  | definition {c body code m m₁} : cfg.env.unfoldable c = some body →
      inHeap (·.reserve (compile cfg.steps body)) m = .ok code m₁ →
      Calls cfg fuel (.unfold c) m (.run code []) m₁
  | compiled {slot src frame code m} : m.heap.read slot = none →
      Calls cfg fuel (.force (.thunk slot src frame (some code))) m (.run code frame) m
  | uncompiled {slot src frame code m m₁} : m.heap.read slot = none →
      inHeap (·.reserve (compile cfg.steps src)) m = .ok code m₁ →
      Calls cfg fuel (.force (.thunk slot src frame none)) m (.run code frame) m₁
  | function {f args m} : Calls cfg fuel (.apply f args) m (.force f) m
  | applied {f args g m m₁} : force cfg fuel f m = .ok g m₁ →
      Calls cfg fuel (.apply f args) m (.applyForced g args) m₁
  | body {n src body frame held args m} : n ≤ (held ++ args).length →
      Calls cfg fuel (.applyForced (.lam n src body frame held) args) m
        (.run body (((held ++ args).take n).reverse ++ frame)) m
  | surplus {n src body frame held args v m m₁} : n ≤ (held ++ args).length →
      run cfg fuel body (((held ++ args).take n).reverse ++ frame) m = .ok v m₁ →
      Calls cfg fuel (.applyForced (.lam n src body frame held) args) m
        (.applyRest v ((held ++ args).drop n)) m₁
  | argument {t s held args before v after ts m m₁} : s.arity ≤ (held ++ args).length →
      cfg.direct s.body = none → (held ++ args).take s.arity = before ++ v :: after →
      before.mapM (readback cfg fuel) m = .ok ts m₁ →
      Calls cfg fuel (.applyForced (.step t s held) args) m (.readback v) m₁
  | result {t s held args v m m₁} : s.arity ≤ (held ++ args).length →
      fire cfg (readback cfg fuel) s ((held ++ args).take s.arity) m = .ok (some v) m₁ →
      Calls cfg fuel (.applyForced (.step t s held) args) m (.force v) m₁
  | fired {t s held args v u m m₁ m₂} : s.arity ≤ (held ++ args).length →
      fire cfg (readback cfg fuel) s ((held ++ args).take s.arity) m = .ok (some v) m₁ →
      force cfg fuel v m₁ = .ok u m₂ →
      Calls cfg fuel (.applyForced (.step t s held) args) m
        (.applyRest u ((held ++ args).drop s.arity)) m₂
  | declined {t s held args before v after ts m m₁ m₂} : s.arity ≤ (held ++ args).length →
      fire cfg (readback cfg fuel) s ((held ++ args).take s.arity) m = .ok none m₁ →
      (held ++ args).take s.arity = before ++ v :: after →
      before.mapM (readback cfg fuel) m₁ = .ok ts m₂ →
      Calls cfg fuel (.applyForced (.step t s held) args) m (.readback v) m₂
  | suspended {slot src frame code? args m} :
      Calls cfg fuel (.applyForced (.thunk slot src frame code?) args) m
        (.force (.thunk slot src frame code?)) m
  | resumed {slot src frame code? args v m m₁} :
      force cfg fuel (.thunk slot src frame code?) m = .ok v m₁ →
      Calls cfg fuel (.applyForced (.thunk slot src frame code?) args) m (.applyRest v args) m₁
  | rest {v rest m} : rest.isEmpty = false →
      Calls cfg fuel (.applyRest v rest) m (.applyForced v rest) m
  | forced {v m} : Calls cfg fuel (.readback v) m (.force v) m
  | held {v u before a after ts m m₁ m₂} : force cfg fuel v m = .ok u m₁ →
      u.held = before ++ a :: after → before.mapM (readback cfg fuel) m₁ = .ok ts m₂ →
      Calls cfg fuel (.readback v) m (.readback a) m₂

/-! ## Sessions -/

section

variable (cfg : Setting β σ) (allowed : Step σ → Prop)

/-- How a host that holds values may enter the machine: from which memory it makes which call, in the memory
that this leaves. -/
inductive Entry (vs : List (Value β σ)) : Memory β σ → Call β σ → Memory β σ → Prop where
  /-- It evaluates a closed term. -/
  | eval {t code m m'} : t.ClosedAmong allowed → inHeap (·.reserve (compile cfg.steps t)) m = .ok code m' →
      Entry vs m (.run code []) m'
  | force {v m} : v ∈ vs → Entry vs m (.force v) m
  | apply {f args m} : f ∈ vs → (∀ a ∈ args, a ∈ vs) → Entry vs m (.apply f args) m
  | readback {v m} : v ∈ vs → Entry vs m (.readback v) m

/-- The memory and the values that a host may have after any number of entries.  An entry that broke off
leaves its memory behind, unless it only used up its fuel. -/
inductive Session : Memory β σ → List (Value β σ) → Prop where
  | start (w) : Session { world := w } []
  /-- The host does something else. -/
  | elsewhere {m vs} (w) : Session m vs → Session { m with world := w } vs
  | suspended {m vs t v m'} : Session m vs → t.ClosedAmong allowed → ofTerm t m = .ok v m' →
      Session m' (v :: vs)
  | returned {m vs c m₁ fuel v m'} : Session m vs → Entry cfg allowed vs m c m₁ →
      c.perform cfg fuel m₁ = .ok (.value v) m' → Session m' (v :: vs)
  | read {m vs c m₁ fuel t m'} : Session m vs → Entry cfg allowed vs m c m₁ →
      c.perform cfg fuel m₁ = .ok (.term t) m' → Session m' vs
  | brokeOff {m vs c m₁ fuel e m'} : Session m vs → Entry cfg allowed vs m c m₁ →
      c.perform cfg fuel m₁ = .error e m' → e ≠ .exhausted → Session m' vs

/-- The configurations that a session goes through. -/
inductive Reached : Nat → Call β σ → Memory β σ → Prop where
  | entry {vs m c m' fuel} : Session cfg allowed m vs → Entry cfg allowed vs m c m' →
      Reached fuel c m'
  | call {fuel c m c' m'} : Reached (fuel + 1) c m → Calls cfg fuel c m c' m' → Reached fuel c' m'

end

end Machine

end TacticEngine
