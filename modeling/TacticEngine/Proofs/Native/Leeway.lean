/-
# TacticEngine.Proofs.Native.Leeway -- native values that differ in the engines they hold.

Native functions are data, and among this data are engines: a codec of functions holds the engine with which
what it reads is to be run, and a metaprogram made callable holds its own.  A `Leeway` says which engines may
stand for each other.  Contents of objects, and bodies of steps, are then alike if they have the same shape,
if the terms in them are closed and alike, and if their engines may stand for each other; identities do not
count.

Contents hold terms, and terms hold objects and steps.  So likeness of contents and of bodies is defined as
the largest pair of relations that can be justified by looking one level deep.
-/
import Mathlib.Logic.Relation
import TacticEngine.Native.Content
import TacticEngine.Proofs.Likeness.Reduction
import TacticEngine.Proofs.Likeness.State

namespace TacticEngine.Native

open Relation (TransGen)

variable {κ : Type}

/-- What engines may differ in. -/
structure Leeway (κ : Type) where
  /-- Labels of native code that may stand for each other. -/
  label : κ → κ → Prop
  /-- Ways to evaluate that may stand for each other. -/
  backend : Backend → Backend → Prop

/-- Labels that `same` relates may stand for each other, and so may the ways to evaluate. -/
def Leeway.backends (same : κ → κ → Prop) : Leeway κ where
  label := same
  backend _ _ := True

/-! ## One level deep -/

/-- The likeness of closed terms whose objects and steps stand in the given relations, but for their
identities. -/
def likenessOf (content : Content κ → Content κ → Prop) (body : Body κ → Body κ → Prop) :
    Likeness (Content κ) (Body κ) where
  closed := True
  canonical := True
  const _ := True
  blob b b' := b.kind = b'.kind ∧ content b.object.content b'.object.content
  step s s' := s.name = s'.name ∧ s.arity = s'.arity ∧ s.flags = s'.flags ∧ body s.body s'.body

namespace Leeway

section

variable (Λ : Leeway κ)

/-- Engines that may stand for each other. -/
def engine (e e' : Engine κ) : Prop := Λ.backend e.backend e'.backend ∧ Λ.label e.native e'.native

/-- Codecs of the same shape whose engines may stand for each other. -/
inductive codec : Codec κ → Codec κ → Prop where
  | unit : codec .unit .unit
  | bool : codec .bool .bool
  | int : codec .int .int
  | size : codec .size .size
  | string : codec .string .string
  | term : codec .term .term
  | state : codec .state .state
  | goal : codec .goal .goal
  | env : codec .env .env
  | failure : codec .failure .failure
  | list {c c'} : codec c c' → codec (.list c) (.list c')
  | option {c c'} : codec c c' → codec (.option c) (.option c')
  | pair {a a' b b'} : codec a a' → codec b b' → codec (.pair a b) (.pair a' b')
  | outcome {c c'} : codec c c' → codec (.outcome c) (.outcome c')
  | function {a a' r r' e e'} : codec a a' → codec r r' → Λ.engine e e' →
      codec (.function a r e) (.function a' r' e')
  | thunk {r r' e e'} : codec r r' → Λ.engine e e' → codec (.thunk r e) (.thunk r' e')

variable (content : Content κ → Content κ → Prop) (body : Body κ → Body κ → Prop)

/-- Contents that look alike, given what their parts are to be compared by. -/
inductive ContentStep : Content κ → Content κ → Prop where
  | state {s s'} : ProofState.Rel ((likenessOf content body).Alike 0) s s' → ContentStep (.state s) (.state s')
  | goal {g g'} : Goal.Rel ((likenessOf content body).Alike 0) g g' → ContentStep (.goal g) (.goal g')
  | env {e e'} : Env.Rel ((likenessOf content body).Alike 0) e e' → ContentStep (.env e) (.env e')
  | issue {e e'} : Issue.Rel content e e' → ContentStep (.issue e) (.issue e')
  | text (s : String) : ContentStep (.text s) (.text s)
  | other : ContentStep .other .other

/-- Native tactics that look alike. -/
inductive TacticStep : NativeTactic κ → NativeTactic κ → Prop where
  | host {l l'} : Λ.label l l' → TacticStep (.host l) (.host l')
  | metaprogram {e e' t t'} : Λ.engine e e' → (likenessOf content body).Alike 0 t t' →
      TacticStep (.metaprogram e t) (.metaprogram e' t')

/-- Bodies of steps that look alike. -/
inductive BodyStep : Body κ → Body κ → Prop where
  | rule {l l'} : Λ.label l l' → BodyStep (.rule l) (.rule l')
  | total {as as' r r' l l'} : List.Forall₂ Λ.codec as as' → Λ.codec r r' → Λ.label l l' →
      BodyStep (.total as r l) (.total as' r' l')
  | tactic {as as' r r' f f'} : List.Forall₂ Λ.codec as as' → Λ.codec r r' →
      TacticStep Λ content body f f' → BodyStep (.tactic as r f) (.tactic as' r' f')

/-- Relations that hold only of what looks alike, if they are used to compare the parts. -/
structure Bisimulation : Prop where
  contents : ∀ {c c'}, content c c' → ContentStep content body c c'
  bodies : ∀ {b b'}, body b b' → BodyStep Λ content body b b'

end

/-! ## At every depth -/

variable (Λ : Leeway κ)

/-- Contents that are alike. -/
def content (c c' : Content κ) : Prop := ∃ C B, Bisimulation Λ C B ∧ C c c'

/-- Bodies of steps that are alike. -/
def body (b b' : Body κ) : Prop := ∃ C B, Bisimulation Λ C B ∧ B b b'

/-- The likeness of terms that differ in no more than the leeway permits. -/
def likeness : Likeness (Content κ) (Body κ) := likenessOf Λ.content Λ.body

/-- Native tactics that are alike. -/
abbrev tactic : NativeTactic κ → NativeTactic κ → Prop := TacticStep Λ Λ.content Λ.body

/-- Environments that are alike. -/
abbrev env : Env κ → Env κ → Prop := Env.Rel (Λ.likeness.Alike 0)

/-- Proof states that are alike. -/
abbrev state : ProofState κ → ProofState κ → Prop := ProofState.Rel (Λ.likeness.Alike 0)

/-- Issues that are alike. -/
abbrev issue : Issue κ → Issue κ → Prop := Issue.Rel Λ.content

variable {Λ} {C C' : Content κ → Content κ → Prop} {B B' : Body κ → Body κ → Prop}

section

variable (hC : ∀ {c c'}, C c c' → C' c c') (hB : ∀ {b b'}, B b b' → B' b b')

include hC hB

theorem likenessOf_le : (likenessOf C B).Le (likenessOf C' B') where
  closed := id
  canonical := id
  const := id
  blob h := ⟨h.1, hC h.2⟩
  step h := ⟨h.1, h.2.1, h.2.2.1, hB h.2.2.2⟩

theorem ContentStep.mono {c c' : Content κ} (h : ContentStep C B c c') : ContentStep C' B' c c' := by
  have hterm : ∀ t t', (likenessOf C B).Alike 0 t t' → (likenessOf C' B').Alike 0 t t' :=
    fun _ _ h => h.mono (likenessOf_le hC hB)
  cases h with
  | state h => exact .state (h.imp hterm)
  | goal h => exact .goal (h.imp hterm)
  | env h => exact .env (h.imp hterm)
  | issue h => exact .issue (h.imp fun _ _ => hC)
  | text s => exact .text s
  | other => exact .other

theorem TacticStep.mono {f f' : NativeTactic κ} (h : TacticStep Λ C B f f') : TacticStep Λ C' B' f f' := by
  cases h with
  | host h => exact .host h
  | metaprogram he ht => exact .metaprogram he (ht.mono (likenessOf_le hC hB))

theorem BodyStep.mono {b b' : Body κ} (h : BodyStep Λ C B b b') : BodyStep Λ C' B' b b' := by
  cases h with
  | rule h => exact .rule h
  | total has hr h => exact .total has hr h
  | tactic has hr h => exact .tactic has hr (h.mono hC hB)

end

/-- Likeness at every depth is justified. -/
theorem bisimulation : Bisimulation Λ Λ.content Λ.body where
  contents := by
    rintro c c' ⟨C, B, h, hc⟩
    exact (h.contents hc).mono (fun hc => ⟨C, B, h, hc⟩) fun hb => ⟨C, B, h, hb⟩
  bodies := by
    rintro b b' ⟨C, B, h, hb⟩
    exact (h.bodies hb).mono (fun hc => ⟨C, B, h, hc⟩) fun hb => ⟨C, B, h, hb⟩

theorem content_iff {c c' : Content κ} : Λ.content c c' ↔ ContentStep Λ.content Λ.body c c' := by
  refine ⟨bisimulation.contents, fun h => ⟨ContentStep Λ.content Λ.body, BodyStep Λ Λ.content Λ.body, ?_, h⟩⟩
  exact ⟨fun h => h.mono bisimulation.contents bisimulation.bodies,
    fun h => h.mono bisimulation.contents bisimulation.bodies⟩

theorem body_iff {b b' : Body κ} : Λ.body b b' ↔ BodyStep Λ Λ.content Λ.body b b' := by
  refine ⟨bisimulation.bodies, fun h => ⟨ContentStep Λ.content Λ.body, BodyStep Λ Λ.content Λ.body, ?_, h⟩⟩
  exact ⟨fun h => h.mono bisimulation.contents bisimulation.bodies,
    fun h => h.mono bisimulation.contents bisimulation.bodies⟩

theorem keepsArity : Λ.likeness.KeepsArity := fun h => ⟨h.1, h.2.1⟩

/-! ## From right to left -/

/-- What may stand for each other does so in either direction. -/
structure Symmetric (Λ : Leeway κ) : Prop where
  label : ∀ {l l'}, Λ.label l l' → Λ.label l' l
  backend : ∀ {b b'}, Λ.backend b b' → Λ.backend b' b

section

variable (hΛ : Λ.Symmetric)

include hΛ

theorem engine_symm {e e' : Engine κ} (h : Λ.engine e e') : Λ.engine e' e :=
  ⟨hΛ.backend h.1, hΛ.label h.2⟩

theorem codec_symm {c c' : Codec κ} (h : Λ.codec c c') : Λ.codec c' c := by
  induction h with
  | function _ _ he iha ihr => exact .function iha ihr (engine_symm hΛ he)
  | thunk _ he ih => exact .thunk ih (engine_symm hΛ he)
  | _ => constructor <;> assumption

theorem codecs_symm {cs cs' : List (Codec κ)} (h : List.Forall₂ Λ.codec cs cs') :
    List.Forall₂ Λ.codec cs' cs :=
  (forall₂_flip h).imp fun _ _ => codec_symm hΛ

omit hΛ in
theorem likenessOf_flip {t t' : Term κ} (h : (likenessOf C B).Alike 0 t t') :
    (likenessOf (flip C) (flip B)).Alike 0 t' t := by
  have hle : (likenessOf C B).flip.Le (likenessOf (flip C) (flip B)) :=
    { closed := id
      canonical := id
      const := id
      blob := fun h => ⟨h.1.symm, h.2⟩
      step := fun h => ⟨h.1.symm, h.2.1.symm, h.2.2.1.symm, h.2.2.2⟩ }
  exact h.flip.mono hle

omit hΛ in
theorem ContentStep.symm {c c' : Content κ} (h : ContentStep C B c c') :
    ContentStep (flip C) (flip B) c' c := by
  cases h with
  | state h => exact .state (h.symm fun _ _ => likenessOf_flip)
  | goal h => exact .goal (h.symm fun _ _ => likenessOf_flip)
  | env h => exact .env (h.symm fun _ _ => likenessOf_flip)
  | issue h => exact .issue (h.symm fun _ _ => id)
  | text s => exact .text s
  | other => exact .other

theorem TacticStep.symm {f f' : NativeTactic κ} (h : TacticStep Λ C B f f') :
    TacticStep Λ (flip C) (flip B) f' f := by
  cases h with
  | host h => exact .host (hΛ.label h)
  | metaprogram he ht => exact .metaprogram (engine_symm hΛ he) (likenessOf_flip ht)

theorem BodyStep.symm {b b' : Body κ} (h : BodyStep Λ C B b b') :
    BodyStep Λ (flip C) (flip B) b' b := by
  cases h with
  | rule h => exact .rule (hΛ.label h)
  | total has hr h => exact .total (codecs_symm hΛ has) (codec_symm hΛ hr) (hΛ.label h)
  | tactic has hr h => exact .tactic (codecs_symm hΛ has) (codec_symm hΛ hr) (h.symm hΛ)

theorem bisimulation_flip : Bisimulation Λ (flip Λ.content) (flip Λ.body) :=
  ⟨fun h => (bisimulation.contents h).symm, fun h => (bisimulation.bodies h).symm hΛ⟩

theorem content_symm {c c' : Content κ} (h : Λ.content c c') : Λ.content c' c :=
  ⟨_, _, bisimulation_flip hΛ, h⟩

theorem body_symm {b b' : Body κ} (h : Λ.body b b') : Λ.body b' b := ⟨_, _, bisimulation_flip hΛ, h⟩

theorem likeness_symmetric : Λ.likeness.Symmetric where
  blob h := ⟨h.1.symm, content_symm hΛ h.2⟩
  step h := ⟨h.1.symm, h.2.1.symm, h.2.2.1.symm, body_symm hΛ h.2.2.2⟩

theorem state_symm {s s' : ProofState κ} (h : Λ.state s s') : Λ.state s' s :=
  h.symm fun _ _ ht => ht.symm (likeness_symmetric hΛ)

theorem issue_symm {e e' : Issue κ} (h : Λ.issue e e') : Λ.issue e' e :=
  h.symm fun _ _ => content_symm hΛ

end

/-! ## In two steps -/

/-- What may stand for what stands for something may stand for that. -/
structure Transitive (Λ : Leeway κ) : Prop where
  label : ∀ {l m n}, Λ.label l m → Λ.label m n → Λ.label l n
  backend : ∀ {b c d}, Λ.backend b c → Λ.backend c d → Λ.backend b d

section

variable (hΛ : Λ.Transitive)

include hΛ

theorem engine_trans {d e f : Engine κ} (h : Λ.engine d e) (h' : Λ.engine e f) : Λ.engine d f :=
  ⟨hΛ.backend h.1 h'.1, hΛ.label h.2 h'.2⟩

theorem codec_trans {c d e : Codec κ} (h : Λ.codec c d) (h' : Λ.codec d e) : Λ.codec c e := by
  induction h generalizing e with
  | list _ ih => cases h' with | list h' => exact .list (ih h')
  | option _ ih => cases h' with | option h' => exact .option (ih h')
  | pair _ _ iha ihb => cases h' with | pair ha hb => exact .pair (iha ha) (ihb hb)
  | outcome _ ih => cases h' with | outcome h' => exact .outcome (ih h')
  | function _ _ he iha ihr =>
      cases h' with | function ha hr he' => exact .function (iha ha) (ihr hr) (engine_trans hΛ he he')
  | thunk _ he ih => cases h' with | thunk h' he' => exact .thunk (ih h') (engine_trans hΛ he he')
  | _ => exact h'

theorem codecs_trans {cs ds es : List (Codec κ)} (h : List.Forall₂ Λ.codec cs ds)
    (h' : List.Forall₂ Λ.codec ds es) : List.Forall₂ Λ.codec cs es :=
  forall₂_comp (S := Λ.codec) (T := Λ.codec) (fun _ _ _ => codec_trans hΛ) h h'

omit hΛ in
theorem likenessOf_transitive (hC : ∀ c d e, C c d → C d e → C c e)
    (hB : ∀ b c d, B b c → B c d → B b d) : (likenessOf C B).Transitive where
  blob h h' := ⟨h.1.trans h'.1, hC _ _ _ h.2 h'.2⟩
  step h h' :=
    ⟨h.1.trans h'.1, h.2.1.trans h'.2.1, h.2.2.1.trans h'.2.2.1, hB _ _ _ h.2.2.2 h'.2.2.2⟩

section

variable (hC : ∀ c d e, C c d → C d e → C c e) (hB : ∀ b c d, B b c → B c d → B b d)

include hC hB

omit hΛ in
theorem ContentStep.trans {c d e : Content κ} (h : ContentStep C B c d) (h' : ContentStep C B d e) :
    ContentStep C B c e := by
  have hterm : ∀ t u v, (likenessOf C B).Alike 0 t u → (likenessOf C B).Alike 0 u v →
      (likenessOf C B).Alike 0 t v := fun _ _ _ h h' => h.trans (likenessOf_transitive hC hB) h'
  cases h with
  | state h => cases h' with | state h' => exact .state (h.trans hterm h')
  | goal h => cases h' with | goal h' => exact .goal (h.trans hterm h')
  | env h => cases h' with | env h' => exact .env (h.trans hterm h')
  | issue h => cases h' with | issue h' => exact .issue (h.trans hC h')
  | text s => exact h'
  | other => exact h'

theorem TacticStep.trans {f g h : NativeTactic κ} (hfg : TacticStep Λ C B f g)
    (hgh : TacticStep Λ C B g h) : TacticStep Λ C B f h := by
  cases hfg with
  | host hl => cases hgh with | host hl' => exact .host (hΛ.label hl hl')
  | metaprogram he ht =>
      cases hgh with
      | metaprogram he' ht' =>
          exact .metaprogram (engine_trans hΛ he he') (ht.trans (likenessOf_transitive hC hB) ht')

theorem BodyStep.trans {b c d : Body κ} (h : BodyStep Λ C B b c) (h' : BodyStep Λ C B c d) :
    BodyStep Λ C B b d := by
  cases h with
  | rule h => cases h' with | rule h' => exact .rule (hΛ.label h h')
  | total has hr h =>
      cases h' with
      | total has' hr' h' =>
          exact .total (codecs_trans hΛ has has') (codec_trans hΛ hr hr') (hΛ.label h h')
  | tactic has hr h =>
      cases h' with
      | tactic has' hr' h' =>
          exact .tactic (codecs_trans hΛ has has') (codec_trans hΛ hr hr') (h.trans hΛ hC hB h')

end

/-- What is alike in several steps looks alike, if its parts are compared in several steps. -/
theorem bisimulation_transGen : Bisimulation Λ (TransGen Λ.content) (TransGen Λ.body) where
  contents h := by
    induction h with
    | single h => exact (bisimulation.contents h).mono .single .single
    | tail _ h ih =>
        have hlast : ContentStep (TransGen Λ.content) (TransGen Λ.body) _ _ :=
          (bisimulation.contents h).mono .single .single
        exact ih.trans (fun _ _ _ => .trans) (fun _ _ _ => .trans) hlast
  bodies h := by
    induction h with
    | single h => exact (bisimulation.bodies h).mono .single .single
    | tail _ h ih =>
        have hlast : BodyStep Λ (TransGen Λ.content) (TransGen Λ.body) _ _ :=
          (bisimulation.bodies h).mono .single .single
        exact ih.trans hΛ (fun _ _ _ => .trans) (fun _ _ _ => .trans) hlast

theorem content_trans {c d e : Content κ} (h : Λ.content c d) (h' : Λ.content d e) : Λ.content c e :=
  ⟨_, _, bisimulation_transGen hΛ, .tail (.single h) h'⟩

theorem body_trans {b c d : Body κ} (h : Λ.body b c) (h' : Λ.body c d) : Λ.body b d :=
  ⟨_, _, bisimulation_transGen hΛ, .tail (.single h) h'⟩

theorem likeness_transitive : Λ.likeness.Transitive :=
  likenessOf_transitive (fun _ _ _ => content_trans hΛ) fun _ _ _ => body_trans hΛ

theorem issue_trans {d e f : Issue κ} (h : Λ.issue d e) (h' : Λ.issue e f) : Λ.issue d f :=
  Issue.Rel.trans (P := Λ.content) (Q := Λ.content) (fun _ _ _ => content_trans hΛ) h h'

end

/-! ## More leeway -/

/-- The second leeway permits whatever the first one does. -/
structure Le (Λ Λ' : Leeway κ) : Prop where
  label : ∀ {l l'}, Λ.label l l' → Λ'.label l l'
  backend : ∀ {b b'}, Λ.backend b b' → Λ'.backend b b'

section

variable {Λ' : Leeway κ} (hΛ : Λ.Le Λ')

include hΛ

theorem engine_le {e e' : Engine κ} (h : Λ.engine e e') : Λ'.engine e e' :=
  ⟨hΛ.backend h.1, hΛ.label h.2⟩

theorem codec_le {c c' : Codec κ} (h : Λ.codec c c') : Λ'.codec c c' := by
  induction h with
  | function _ _ he iha ihr => exact .function iha ihr (engine_le hΛ he)
  | thunk _ he ih => exact .thunk ih (engine_le hΛ he)
  | _ => constructor <;> assumption

/-- What is justified with some leeway is so with more. -/
theorem Bisimulation.le (h : Bisimulation Λ C B) : Bisimulation Λ' C B where
  contents := h.contents
  bodies hb := by
    have hcodecs : ∀ {cs cs' : List (Codec κ)}, List.Forall₂ Λ.codec cs cs' → List.Forall₂ Λ'.codec cs cs' :=
      fun h => h.imp fun _ _ => codec_le hΛ
    cases h.bodies hb with
    | rule hl => exact .rule (hΛ.label hl)
    | total has hr hl => exact .total (hcodecs has) (codec_le hΛ hr) (hΛ.label hl)
    | tactic has hr hf =>
        refine .tactic (hcodecs has) (codec_le hΛ hr) ?_
        cases hf with
        | host hl => exact .host (hΛ.label hl)
        | metaprogram he ht => exact .metaprogram (engine_le hΛ he) ht

theorem content_le {c c' : Content κ} : Λ.content c c' → Λ'.content c c'
  | ⟨C, B, h, hc⟩ => ⟨C, B, h.le hΛ, hc⟩

theorem likeness_le : Λ.likeness.Le Λ'.likeness :=
  likenessOf_le (content_le hΛ) fun ⟨C, B, h, hb⟩ => ⟨C, B, h.le hΛ, hb⟩

theorem issue_le {e e' : Issue κ} (h : Λ.issue e e') : Λ'.issue e e' :=
  h.imp fun _ _ => content_le hΛ

end

/-! ## No leeway but for identities -/

/-- Engines that may stand for something stand for themselves only. -/
def exact (Λ : Leeway κ) : Leeway κ where
  label l l' := l = l' ∧ Λ.label l l
  backend b b' := b = b' ∧ Λ.backend b b

theorem exact_le : Λ.exact.Le Λ where
  label := by
    rintro l _ ⟨rfl, h⟩
    exact h
  backend := by
    rintro b _ ⟨rfl, h⟩
    exact h

theorem exact_symmetric : Λ.exact.Symmetric where
  label := by
    rintro l _ ⟨rfl, h⟩
    exact ⟨rfl, h⟩
  backend := by
    rintro b _ ⟨rfl, h⟩
    exact ⟨rfl, h⟩

theorem exact_transitive : Λ.exact.Transitive where
  label h h' := ⟨h.1.trans h'.1, h.2⟩
  backend h h' := ⟨h.1.trans h'.1, h.2⟩

theorem engine_exact {e : Engine κ} (h : Λ.engine e e) : Λ.exact.engine e e := ⟨⟨rfl, h.1⟩, rfl, h.2⟩

theorem codec_exact {c : Codec κ} (h : Λ.codec c c) : Λ.exact.codec c c := by
  induction c with
  | list c ih => cases h with | list h => exact .list (ih h)
  | option c ih => cases h with | option h => exact .option (ih h)
  | pair a b iha ihb => cases h with | pair ha hb => exact .pair (iha ha) (ihb hb)
  | outcome c ih => cases h with | outcome h => exact .outcome (ih h)
  | function a r e iha ihr =>
      cases h with | function ha hr he => exact .function (iha ha) (ihr hr) (engine_exact he)
  | thunk r e ih => cases h with | thunk h he => exact .thunk (ih h) (engine_exact he)
  | _ => constructor

/-- What is alike to itself fits a likeness that compares things only with themselves. -/
theorem likenessOf_self {t : Term κ} (h : Λ.likeness.Alike 0 t t) :
    (likenessOf (fun c c' => c = c' ∧ Λ.content c c) fun b b' => b = b' ∧ Λ.body b b).Alike 0 t t := by
  refine Term.alike_self (fun _ => h.closedBelow trivial) (fun _ => h.canonical trivial) fun u hu => ?_
  have hfits := h.fits u hu
  cases u with
  | blob b => exact ⟨rfl, rfl, hfits.2⟩
  | native s => exact ⟨rfl, rfl, rfl, rfl, hfits.2.2.2⟩
  | _ => trivial

/-- To compare things only with themselves is justified without leeway. -/
theorem bisimulation_self : Bisimulation Λ.exact (fun c c' => c = c' ∧ Λ.content c c)
    fun b b' => b = b' ∧ Λ.body b b where
  contents := by
    rintro c _ ⟨rfl, h⟩
    cases bisimulation.contents h with
    | state h => exact .state (h.self fun _ => likenessOf_self)
    | goal h => exact .goal (h.self fun _ => likenessOf_self)
    | env h => exact .env (h.self fun _ => likenessOf_self)
    | issue h => exact .issue (h.self fun _ h => ⟨rfl, h⟩)
    | text s => exact .text s
    | other => exact .other
  bodies := by
    have hcodecs : ∀ {cs : List (Codec κ)}, List.Forall₂ Λ.codec cs cs → List.Forall₂ Λ.exact.codec cs cs :=
      forall₂_self fun _ => codec_exact
    rintro b _ ⟨rfl, h⟩
    cases bisimulation.bodies h with
    | rule h => exact .rule ⟨rfl, h⟩
    | total has hr h => exact .total (hcodecs has) (codec_exact hr) ⟨rfl, h⟩
    | tactic has hr h =>
        refine .tactic (hcodecs has) (codec_exact hr) ?_
        cases h with
        | host h => exact .host ⟨rfl, h⟩
        | metaprogram he ht => exact .metaprogram (engine_exact he) (likenessOf_self ht)

/-- What is alike to itself is so without leeway. -/
theorem alike_exact {t : Term κ} (h : Λ.likeness.Alike 0 t t) : Λ.exact.likeness.Alike 0 t t :=
  (likenessOf_self h).mono (likenessOf_le (fun h => ⟨_, _, bisimulation_self, h⟩)
    fun h => ⟨_, _, bisimulation_self, h⟩)

theorem step_exact {s : Step κ} (h : Λ.likeness.step s s) : Λ.exact.likeness.step s s := by
  cases alike_exact (t := .native s) (.native h) with
  | native h => exact h

end Leeway

end TacticEngine.Native
