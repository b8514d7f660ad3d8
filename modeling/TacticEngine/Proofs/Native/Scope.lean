/-
# TacticEngine.Proofs.Native.Scope -- which names a run may look up.

A `Scope` bounds what may come up in a run: constants, objects, steps, issues, and the engines that native
code runs metaprograms with.  A program is `Local` to a scope if what it hands to a run of a metaprogram is
within the scope, and what it ends with too, provided that nested runs and reductions give it nothing else.
It may register steps, but it has no look at the registry itself.

So the registry is only looked at when an engine takes a snapshot, and of that only the names matter which
are in the scope and are not names of native steps.  Two worlds are `Beside` each other if their registries
agree on these names, whatever else is registered or logged.
-/
import TacticEngine.Proofs.Native.Registry
import TacticEngine.Proofs.Native.Upheld

namespace TacticEngine.Native

open Codec (Vals)

variable {κ α γ : Type}

/-! ## Scopes -/

/-- What may come up in a run. -/
structure Scope (κ : Type) where
  /-- Constants. -/
  const : String → Prop
  /-- Objects. -/
  blob : Blob (Content κ) → Prop
  /-- Steps. -/
  step : Step κ → Prop
  /-- Issues. -/
  issue : Issue κ → Prop
  /-- Engines that native code runs metaprograms with. -/
  engine : Engine κ → Prop

namespace Scope

variable (S : Scope κ)

/-- Everything in the term is within the scope. -/
def Covers (t : Term κ) : Prop :=
  ∀ u ∈ t.subterms, match u with
    | .const c => S.const c
    | .blob b => S.blob b
    | .native s => S.step s
    | _ => True

/-- The value can be read off a term within the scope. -/
def Conveys (c : Codec κ) (v : c.Val) : Prop := ∃ t, S.Covers t ∧ c.decode t = some v

/-- Everything in the definitions is. -/
def CoversEnv (e : Env κ) : Prop :=
  ∀ c d t, e.lookup c = some d → d.body = some t → S.Covers t

/-- So is the state, and everything in the definitions of its context. -/
def CoversState (s : ProofState κ) : Prop :=
  S.CoversEnv s.mainContext ∧ ∀ id, S.blob ⟨.proofState, id, .state s⟩

/-- The names in the table that may come up are names of steps that may. -/
def CoversTable (steps : StepTable (Body κ)) : Prop :=
  ∀ c s, S.const c → steps.lookup c = some s → S.step s

/-- Everything that goes into the reduction is within the scope. -/
structure CoversReduction (r : Reduction (Content κ) (Body κ)) : Prop where
  steps : S.CoversTable r.steps
  env : S.CoversEnv r.env
  tactic : S.Covers r.tactic
  args : ∀ t ∈ r.args, S.Covers t

/-- An engine looks this name up in the registry, if it comes up. -/
def Consults (host : Host κ) (engine : Engine κ) (c : String) : Prop :=
  S.const c ∧ StepTable.lookup (host.natives engine.native) c = none

/-- Some engine looks it up that native code runs metaprograms with. -/
def Consulted (host : Host κ) (c : String) : Prop :=
  ∃ engine, S.engine engine ∧ S.Consults host engine c

/-- The engine looks the name up, or one does that native code runs metaprograms with. -/
def Relevant (host : Host κ) (engine : Engine κ) (c : String) : Prop :=
  S.Consults host engine c ∨ S.Consulted host c

/-- The likeness that stands for the scope. -/
def likeness : Likeness (Content κ) (Body κ) where
  closed := False
  canonical := False
  const := S.const
  blob b b' := b = b' ∧ S.blob b
  step s s' := s = s' ∧ S.step s

variable {S}

theorem likeness_strict : S.likeness.Strict := ⟨And.left, And.left⟩

theorem keepsArity : S.likeness.KeepsArity := by
  rintro s _ ⟨rfl, -⟩
  exact ⟨rfl, rfl⟩

theorem covers_iff {t : Term κ} : S.Covers t ↔ S.likeness.Alike 0 t t := by
  constructor
  · intro h
    refine Term.alike_self False.elim False.elim fun u hu => ?_
    have hu := h u hu
    cases u with
    | const c => exact hu
    | blob b => exact ⟨rfl, hu⟩
    | native s => exact ⟨rfl, hu⟩
    | _ => trivial
  · intro h u hu
    have hu := h.fits u hu
    cases u with
    | const c => exact hu
    | blob b => exact hu.2
    | native s => exact hu.2
    | _ => trivial

theorem covers_args_iff {ts : List (Term κ)} :
    (∀ t ∈ ts, S.Covers t) ↔ S.likeness.AlikeArgs 0 ts ts := by
  rw [Term.alikeArgs_iff_forall₂, List.forall₂_same]
  exact forall₂_congr fun t _ => covers_iff

theorem CoversEnv.unfoldable {e : Env κ} (he : S.CoversEnv e) {c : String} {t : Term κ}
    (ht : e.unfoldable c = some t) : S.Covers t := by
  rw [Env.unfoldable] at ht
  split at ht
  next b hd =>
    obtain rfl := Option.some.inj ht
    exact he c _ b hd rfl
  next => cases ht

end Scope

/-! ## Local programs -/

/-- Requests whose answers have nothing to do with steps. -/
def plainRequest : Request (Content κ) (Body κ) → Prop
  | .registry | .register _ | .reduce _ => False
  | _ => True

/-- What an attempt ends with: a value with the property, or an issue that may come up. -/
def Attempted (S : Scope κ) (V : α → Prop) : Except (Issue κ) α → Prop
  | .ok a => V a
  | .error e => S.issue e

/-- Programs that stay within the scope and end with values that have the property, provided that nested
runs and reductions do. -/
inductive Local (host : Host κ) (S : Scope κ) : {α : Type} → (α → Prop) → Program κ α → Prop where
  | pure {α V a} : V a → Local host S V (.pure a : Program κ α)
  | fail {α V e} : S.issue e → Local host S V (.fail e : Program κ α)
  | overflow {α V} : Local host S V (.overflow : Program κ α)
  | request {r} : plainRequest r → Local host S (fun _ => True) (Program.request r)
  | register {s} : (S.Consulted host s.name → S.step s) →
      Local host S (fun _ => True) (Program.register s)
  | reduce {r} : S.CoversReduction r → Local host S S.Covers (Program.reduce r)
  | run {engine result tactic args s} : S.engine engine → S.Covers tactic →
      (∀ t ∈ args, S.Covers t) → S.CoversState s →
      Local host S (S.Conveys (.outcome result)) (engine.run host result tactic args s)
  | bind {α γ V U p f} : Local host S V p → (∀ a, V a → Local host S U (f a)) →
      Local (α := γ) host S U ((p : Program κ α) >>= f)
  | attempt {α V p} : Local host S V (p : Program κ α) →
      Local host S (Attempted S V) p.attempt

namespace Local

variable {host : Host κ} {S : Scope κ}

theorem allocate (m : StateM Nat α) :
    Local host S (fun a => ∃ n, a = (m n).1) (Program.allocate m) :=
  .bind (.request (r := .draw fun n => (m n).2) trivial) fun n _ => .pure ⟨n, rfl⟩

/-- Native code that is local stays so if its issues become failures. -/
theorem contain {V : Outcome κ α → Prop} {p : Program κ (Outcome κ α)} (hp : Local host S V p)
    (old : ProofState κ) :
    Local host S (fun o => V o ∨ ∃ e, S.issue e ∧ o = .failed (failureOf e) old) (contain old p) := by
  refine .bind (.attempt hp) fun x hx => ?_
  cases x with
  | ok o => exact .pure (.inl hx)
  | error e =>
      cases e with
      | foreign payload => exact .pure (.inr ⟨.foreign payload, hx, rfl⟩)
      | _ => exact .pure (.inr ⟨_, hx, rfl⟩)

/-- The step of a native tactic is local if the tactic is, and if the outcomes it may have are written as
terms within the scope. -/
theorem interpret_tactic {args : List (Codec κ)} {result : Codec κ} {f : NativeTactic κ} {env : Env κ}
    {ts : List (Term κ)} {V : Vals args → ProofState κ → Outcome κ result.Val → Prop}
    (hcall : ∀ vs s, Codec.decodeCall args ts = some (vs, s) →
      Local host S (V vs s) (f.call host args result vs s))
    (hencode : ∀ vs s o n, Codec.decodeCall args ts = some (vs, s) →
      (V vs s o ∨ ∃ e, S.issue e ∧ o = .failed (failureOf e) s) →
        S.Covers ((Codec.outcome result).encode o n).1) :
    Local host S (fun t? => ∀ t ∈ t?, S.Covers t) (interpret host (.tactic args result f) env ts) := by
  rw [interpret]
  split
  next => exact .pure (by simp)
  next vs s hdecode =>
    refine .bind ((hcall vs s hdecode).contain s) fun o ho => .bind (allocate _) ?_
    rintro _ ⟨n, rfl⟩
    refine .pure fun t ht => ?_
    obtain rfl := Option.some.inj ht
    exact hencode vs s o n hdecode ho

end Local

/-- What a run brings in is within the scope. -/
structure Scope.Closed (S : Scope κ) (host : Host κ) : Prop where
  /-- Names of native steps. -/
  natives : ∀ engine, S.engine engine → S.CoversTable (host.natives engine.native)
  /-- What steps do to terms. -/
  interp : ∀ s env ts, S.step s → S.CoversEnv env → (∀ t ∈ ts, S.Covers t) →
    Local host S (fun t? => ∀ t ∈ t?, S.Covers t) (interpret host s.body env ts)
  /-- What they do to values. -/
  direct : ∀ s label f vs v, S.step s → s.body = .rule label → host.direct label = some f →
    Machine.Value.AlikeArgs S.likeness S.const vs vs → f vs = some v →
      Machine.Value.Alike S.likeness S.const v v
  /-- Issues about variables without value. -/
  unbound : ∀ i, S.issue (Machine.unbound i)
  /-- Issues about metaprograms that get stuck. -/
  stuck : ∀ env t, S.Covers t → S.issue (stuckIssue env t)

/-! ## Worlds beside each other -/

/-- The worlds differ in their logs, and in their registries but for the names that are looked up; the
steps found there may come up. -/
inductive Scope.Beside (S : Scope κ) (host : Host κ) (w : World κ) : World κ → Prop where
  | mk (registry : List (Step κ)) (log : List LogRecord) :
      (∀ c, S.Consulted host c → StepTable.lookup w.registry c = StepTable.lookup registry c) →
      (∀ c s, S.Consulted host c → StepTable.lookup w.registry c = some s → S.step s) →
      Scope.Beside S host w { w with registry := registry, log := log }

namespace Scope.Beside

variable {S : Scope κ} {host : Host κ} {w w' : World κ}

theorem symm (h : S.Beside host w w') : S.Beside host w' w := by
  cases h with
  | mk registry log hsame hstep =>
      refine .mk w.registry w.log (fun c hc => (hsame c hc).symm) fun c s hc hs => ?_
      exact hstep c s hc ((hsame c hc).trans hs)

theorem noted (h : S.Beside host w w') (e : Event (Content κ) (Body κ)) :
    S.Beside host (w.noted e) (w'.noted e) := by
  cases h with
  | mk registry log hsame hstep => exact .mk registry log hsame hstep

theorem logged (h : S.Beside host w w') (r : LogRecord) :
    S.Beside host (w.logged r) (w'.logged r) := by
  cases h with
  | mk registry log hsame hstep => exact .mk registry (r :: log) hsame hstep

theorem enteredSpan (h : S.Beside host w w') : S.Beside host w.enteredSpan w'.enteredSpan := by
  cases h with
  | mk registry log hsame hstep => exact .mk registry log hsame hstep

theorem leftSpan (h : S.Beside host w w') (key : String) :
    S.Beside host (w.leftSpan key) (w'.leftSpan key) := by
  cases h with
  | mk registry log hsame hstep =>
      -- Only a span in which something was logged logs that it is left.
      obtain ⟨_, _, _, _, _ | ⟨_ | _, rest⟩, _, _, _, _⟩ := w
      · exact .mk registry log hsame hstep
      · exact .mk registry log hsame hstep
      · exact .mk registry (⟨.trace, key⟩ :: log) hsame hstep

/-- Registering a step on one side only makes no difference if its name is not looked up. -/
theorem registered_left (h : S.Beside host w w') {s : Step κ} (hs : ¬ S.Consulted host s.name) :
    S.Beside host (w.registered s) w' := by
  obtain ⟨log', hw⟩ := w.registered_eq s
  have hlookup : ∀ c, S.Consulted host c →
      StepTable.lookup (s :: w.registry) c = StepTable.lookup w.registry c := by
    intro c hc
    have hne : s.name ≠ c := by
      rintro rfl
      exact hs hc
    simp [StepTable.lookup, hne]
  cases h with
  | mk registry log hsame hstep =>
      rw [hw]
      refine .mk registry log (fun c hc => ?_) fun c st hc hst => ?_
      · exact (hlookup c hc).trans (hsame c hc)
      · exact hstep c st hc ((hlookup c hc).symm.trans hst)

theorem registered (h : S.Beside host w w') {s : Step κ} (hs : S.Consulted host s.name → S.step s) :
    S.Beside host (w.registered s) (w'.registered s) := by
  obtain ⟨log₁, hw⟩ := w.registered_eq s
  obtain ⟨log₂, hw'⟩ := w'.registered_eq s
  rw [hw, hw']
  cases h with
  | mk registry log hsame hstep =>
      refine .mk (s :: registry) log₂ (fun c hc => ?_) fun c st hc hst => ?_
      · have := hsame c hc
        simp only [StepTable.lookup, List.find?_cons] at this ⊢
        split
        · rfl
        · exact this
      · simp only [StepTable.lookup, List.find?_cons] at hst
        split at hst
        next hname =>
          obtain rfl := Option.some.inj hst
          exact hs (eq_of_beq hname ▸ hc)
        next => exact hstep c st hc hst

end Scope.Beside

/-- Two histories in which the same was registered last under the names that are looked up. -/
theorem Scope.beside_after {S : Scope κ} {host : Host κ} {w : World κ} {history history' : List (Step κ)}
    (hsame : ∀ c, S.Consulted host c → latest history c = latest history' c)
    (hstep : ∀ c s, S.Consulted host c →
      StepTable.lookup (w.after history).registry c = some s → S.step s) :
    S.Beside host (w.after history) (w.after history') := by
  have hlookup := w.lookup_after
  obtain ⟨log, hw⟩ := w.after_eq history
  obtain ⟨log', hw'⟩ := w.after_eq history'
  have hagree : ∀ c, S.Consulted host c → StepTable.lookup (w.after history).registry c =
      StepTable.lookup (w.after history').registry c := by
    intro c hc
    rw [hlookup, hlookup, hsame c hc]
  rw [hw, hw'] at hagree
  rw [hw] at hstep
  rw [hw, hw']
  exact .mk (history'.reverse ++ w.registry) log' hagree hstep

end TacticEngine.Native
