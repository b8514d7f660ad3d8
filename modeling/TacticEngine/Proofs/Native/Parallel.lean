/-
# TacticEngine.Proofs.Native.Parallel -- native code that cannot tell one engine from another.

Two programs are `Parallel` if, step by step, they ask for the same kind of thing: they take identities, write
into journal and log, or run alike metaprograms with engines that may stand for each other, and they go on in
parallel if the answers are alike.  Such programs learn nothing of identities, of the registry or of the
engine in use.  A host `Heeds` a leeway if alike steps are parallel programs on alike arguments.
-/
import TacticEngine.Native.Engine
import TacticEngine.Proofs.Native.Conveyed

namespace TacticEngine.Native

open Codec (Vals encodeAll embed decodeAll decodeCall)

variable {κ : Type}

/-! ## Parallel programs -/

/-- Requests whose answers say nothing. -/
inductive Aside : Request (Content κ) (Body κ) → Request (Content κ) (Body κ) → Prop where
  | draw (f g : Nat → Nat) : Aside (.draw f) (.draw g)
  | note (e e' : Event (Content κ) (Body κ)) : Aside (.note e) (.note e')
  | log (r r' : LogRecord) : Aside (.log r) (.log r')
  | debug {text? text?' : Unit → Option String} : (text? ()).isSome = (text?' ()).isSome →
      Aside (.debug text?) (.debug text?')
  | enterSpan : Aside .enterSpan .enterSpan
  | leaveSpan (key key' : String) : Aside (.leaveSpan key) (.leaveSpan key')

/-- What attempts end with: related values, or issues that are alike. -/
inductive Leeway.Attempted (Λ : Leeway κ) {α α' : Type} (V : α → α' → Prop) :
    Except (Issue κ) α → Except (Issue κ) α' → Prop where
  | ok {a a'} : V a a' → Attempted Λ V (.ok a) (.ok a')
  | error {e e'} : Λ.issue e e' → Attempted Λ V (.error e) (.error e')

/-- Programs that do the same, as far as the leeway permits, and end with related values. -/
inductive Parallel (host : Host κ) (Λ : Leeway κ) :
    {α α' : Type} → (α → α' → Prop) → Program κ α → Program κ α' → Prop where
  | pure {α α' V a a'} : V a a' →
      Parallel host Λ V (.pure a : Program κ α) (.pure a' : Program κ α')
  | fail {α α' V e e'} : Λ.issue e e' →
      Parallel host Λ V (.fail e : Program κ α) (.fail e' : Program κ α')
  | overflow {α α' V} : Parallel host Λ V (.overflow : Program κ α) (.overflow : Program κ α')
  | aside {r r'} : Aside r r' →
      Parallel host Λ (fun _ _ => True) (Program.request r) (Program.request r')
  | run {engine engine' result result' t t' as as' s s'} : Λ.engine engine engine' →
      Λ.codec result result' → Λ.likeness.Alike 0 t t' → Λ.likeness.AlikeArgs 0 as as' → Λ.state s s' →
      Parallel host Λ (Λ.outcome result result') (engine.run host result t as s)
        (engine'.run host result' t' as' s')
  | bind {α α' γ γ' V U} {p : Program κ α} {p' : Program κ α'} {f : α → Program κ γ}
      {f' : α' → Program κ γ'} : Parallel host Λ V p p' →
      (∀ a a', V a a' → Parallel host Λ U (f a) (f' a')) → Parallel host Λ U (p >>= f) (p' >>= f')
  | attempt {α α' V p p'} : Parallel host Λ V (p : Program κ α) (p' : Program κ α') →
      Parallel host Λ (Λ.Attempted V) p.attempt p'.attempt

/-- Native code that leaves no more to the engine in use than the leeway permits. -/
structure Host.Heeds (host : Host κ) (Λ : Leeway κ) : Prop where
  /-- Lists of steps. -/
  natives : ∀ {l l'}, Λ.label l l' → List.Forall₂ Λ.likeness.step (host.natives l) (host.natives l')
  /-- Rules on terms. -/
  rule : ∀ {l l' env env' ts ts'}, Λ.label l l' → Λ.env env env' → Λ.likeness.AlikeArgs 0 ts ts' →
    Parallel host Λ (Option.Rel (Λ.likeness.Alike 0)) (host.rule l env ts) (host.rule l' env' ts')
  /-- There are no rules on values. -/
  direct : ∀ {l l'}, Λ.label l l' → host.direct l = none
  /-- Pure functions. -/
  total : ∀ {l l' as as' r r' vs vs'}, Λ.label l l' → List.Forall₂ Λ.codec as as' → Λ.codec r r' →
    Λ.values as as' vs vs' → Λ.value r r' (host.total l as r vs) (host.total l' as' r' vs')
  /-- Native tactics. -/
  tactic : ∀ {l l' as as' r r' vs vs' s s'}, Λ.label l l' → List.Forall₂ Λ.codec as as' → Λ.codec r r' →
    Λ.values as as' vs vs' → Λ.state s s' →
    Parallel host Λ (Λ.outcome r r') (host.tactic l as r vs s) (host.tactic l' as' r' vs' s')

/-- Native code for which it makes no difference what the leeway permits, nor what the identities are. -/
structure Host.Indifferent (host : Host κ) (Λ : Leeway κ) : Prop where
  /-- The leeway works in both directions. -/
  symm : Λ.Symmetric
  /-- It adds up to no more. -/
  trans : Λ.Transitive
  /-- Engines that may stand for each other are not told apart. -/
  heeds : host.Heeds Λ
  /-- Identities are not told apart. -/
  exact : host.Heeds Λ.exact

namespace Parallel

variable {host : Host κ} {Λ : Leeway κ} {α α' : Type}

theorem note (e e' : Event (Content κ) (Body κ)) :
    Parallel host Λ (fun _ _ => True) (Program.note e) (Program.note e') := .aside (.note e e')

/-- What is built is alike if it is so with any identities. -/
theorem allocate_of {V : α → α' → Prop} {m : StateM Nat α} {m' : StateM Nat α'}
    (h : ∀ n n', V (m n).1 (m' n').1) : Parallel host Λ V (Program.allocate m) (Program.allocate m') :=
  .bind (.aside (.draw _ _)) fun n n' _ => .pure (h n n')

/-- Programs that are parallel stay so if their issues become failures. -/
theorem contain {V : α → α' → Prop} {p : Program κ (Outcome κ α)} {p' : Program κ (Outcome κ α')}
    (hp : Parallel host Λ (Outcome.Rel (Λ.likeness.Alike 0) Λ.content V) p p') {s s' : ProofState κ}
    (hs : Λ.state s s') : Parallel host Λ (Outcome.Rel (Λ.likeness.Alike 0) Λ.content V)
      (contain s p) (contain s' p') := by
  refine .bind (.attempt hp) fun x x' hx => ?_
  cases hx with
  | ok ho => exact .pure ho
  | error he =>
      cases he with
      | foreign h => exact .pure (.failed (.foreign h) hs)
      | message m => exact .pure (.failed (.issue (.message m)) hs)
      | nil => exact .pure (.failed (.issue .nil) hs)
      | cons h hs' => exact .pure (.failed (.issue (.cons h hs')) hs)

/-- Calling alike native tactics on alike arguments. -/
theorem call (hhost : host.Heeds Λ) {as as' : List (Codec κ)} {r r' : Codec κ} {f f' : NativeTactic κ}
    (has : List.Forall₂ Λ.codec as as') (hr : Λ.codec r r') (hf : Λ.tactic f f') {vs : Vals as}
    {vs' : Vals as'} (hvs : Λ.values as as' vs vs') {s s' : ProofState κ} (hs : Λ.state s s') :
    Parallel host Λ (Λ.outcome r r') (f.call host as r vs s) (f'.call host as' r' vs' s') := by
  cases hf with
  | host hl => exact .bind (note _ _) fun _ _ _ => hhost.tactic hl has hr hvs hs
  | metaprogram he ht =>
      refine .bind (allocate_of fun n n' => Leeway.alike_encodeAll has hvs n n') fun ts ts' hts => ?_
      exact .run he hr ht hts hs

/-- Alike steps are parallel programs. -/
theorem interpret (hhost : host.Heeds Λ) {b b' : Body κ} (hb : Λ.body b b') {env env' : Env κ}
    (henv : Λ.env env env') {ts ts' : List (Term κ)} (hts : Λ.likeness.AlikeArgs 0 ts ts') :
    Parallel host Λ (Option.Rel (Λ.likeness.Alike 0)) (interpret host b env ts)
      (interpret host b' env' ts') := by
  cases Leeway.body_iff.mp hb with
  | rule hl =>
      rw [Native.interpret, Native.interpret]
      exact .bind (note _ _) fun _ _ _ => hhost.rule hl henv hts
  | @total as as' r r' _ _ has hr hl =>
      have hvs := Leeway.rel_decodeAll has hts
      rw [Native.interpret, Native.interpret]
      generalize decodeAll as ts = x at hvs
      generalize decodeAll as' ts' = x' at hvs
      cases hvs with
      | none => exact .pure .none
      | some hvs =>
          refine .bind (note _ _) fun _ _ _ => .bind (allocate_of fun n n' => ?_) fun _ _ ht =>
            .pure (.some ht)
          exact Leeway.alike_encode hr (hhost.total hl has hr hvs) n n'
  | @tactic as as' r r' f f' has hr hf =>
      have hcall := Leeway.rel_decodeCall has hts
      rw [Native.interpret, Native.interpret]
      generalize decodeCall as ts = x at hcall
      generalize decodeCall as' ts' = x' at hcall
      cases hcall with
      | none => exact .pure .none
      | @some x x' hx =>
          obtain ⟨vs, s⟩ := x
          obtain ⟨vs', s'⟩ := x'
          refine .bind ((call hhost has hr hf hx.1 hx.2).contain hx.2) fun o o' ho =>
            .bind (allocate_of fun n n' => ?_) fun _ _ ht => .pure (.some ht)
          exact Leeway.alike_encode (.outcome hr) ho n n'

end Parallel

end TacticEngine.Native
