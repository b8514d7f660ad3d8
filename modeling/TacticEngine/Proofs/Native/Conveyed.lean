/-
# TacticEngine.Proofs.Native.Conveyed -- alike values are written alike and read off alike terms.

Values of codecs that differ in their engines only are compared part by part, and functions by the native
tactics that they are.  Alike values are written as alike terms; and off alike terms alike values are read, or
none on either side.
-/
import TacticEngine.Native.Codec
import TacticEngine.Proofs.Native.Encoding
import TacticEngine.Proofs.Native.Leeway

namespace TacticEngine.Native

open Codec (Vals encodeAll encodeFailure encodeList embed decodeAll decodeCall decodeState decodeFailure
  decodeList decodeBlob thrown decodeFailure_of_not_blob)

variable {κ : Type}

namespace Leeway

variable (Λ : Leeway κ)

/-- Failures that are alike. -/
abbrev failure : Failure κ → Failure κ → Prop := Failure.Rel (Λ.likeness.Alike 0) Λ.content

/-- Values that are alike; values of codecs of different shapes are not. -/
def value : (c c' : Codec κ) → c.Val → c'.Val → Prop
  | .unit, c' => match c' with | .unit => fun _ _ => True | _ => fun _ _ => False
  | .bool, c' => match c' with | .bool => fun v v' => v = v' | _ => fun _ _ => False
  | .int, c' => match c' with | .int => fun v v' => v = v' | _ => fun _ _ => False
  | .size, c' => match c' with | .size => fun v v' => v = v' | _ => fun _ _ => False
  | .string, c' => match c' with | .string => fun v v' => v = v' | _ => fun _ _ => False
  | .term, c' => match c' with | .term => Λ.likeness.Alike 0 | _ => fun _ _ => False
  | .state, c' => match c' with | .state => Λ.state | _ => fun _ _ => False
  | .goal, c' => match c' with | .goal => Goal.Rel (Λ.likeness.Alike 0) | _ => fun _ _ => False
  | .env, c' => match c' with | .env => Λ.env | _ => fun _ _ => False
  | .failure, c' => match c' with | .failure => Λ.failure | _ => fun _ _ => False
  | .list c, c' => match c' with
    | .list c' => List.Forall₂ (value c c')
    | _ => fun _ _ => False
  | .option c, c' => match c' with
    | .option c' => Option.Rel (value c c')
    | _ => fun _ _ => False
  | .pair a b, c' => match c' with
    | .pair a' b' => fun v v' => value a a' v.1 v'.1 ∧ value b b' v.2 v'.2
    | _ => fun _ _ => False
  | .outcome c, c' => match c' with
    | .outcome c' => Outcome.Rel (Λ.likeness.Alike 0) Λ.content (value c c')
    | _ => fun _ _ => False
  | .function .., c' => match c' with | .function .. => Λ.tactic | _ => fun _ _ => False
  | .thunk .., c' => match c' with | .thunk .. => Λ.tactic | _ => fun _ _ => False

/-- Values that are alike, one for each codec. -/
def values : (cs cs' : List (Codec κ)) → Vals cs → Vals cs' → Prop
  | [], [], _, _ => True
  | c :: cs, c' :: cs', (v, vs), (v', vs') => Λ.value c c' v v' ∧ values cs cs' vs vs'
  | _, _, _, _ => False

/-- Outcomes that are alike. -/
abbrev outcome (c c' : Codec κ) : Outcome κ c.Val → Outcome κ c'.Val → Prop :=
  Outcome.Rel (Λ.likeness.Alike 0) Λ.content (Λ.value c c')

variable {Λ}

/-! ## Writing -/

theorem alike_blob {kind : BlobKind} {c c' : Content κ} (h : ContentStep Λ.content Λ.body c c') (n n' : Nat) :
    Λ.likeness.Alike 0 (embed kind c n).1 (embed kind c' n').1 :=
  .blob ⟨rfl, content_iff.mpr h⟩

theorem alike_encodeFailure {e e' : Failure κ} (h : Λ.failure e e') (n n' : Nat) :
    Λ.likeness.Alike 0 (encodeFailure e n).1 (encodeFailure e' n').1 := by
  cases h with
  | issue h => exact alike_blob (.issue h) n n'
  | message text => exact Term.Alike.ctor.apps (.cons .lit .nil)
  | exception h => exact h
  | foreign h => exact .blob ⟨rfl, h⟩

theorem alike_encodeList {α α' : Type} {V : α → α' → Prop} {element : α → StateM Nat (Term κ)}
    {element' : α' → StateM Nat (Term κ)}
    (helement : ∀ v v', V v v' → ∀ n n', Λ.likeness.Alike 0 (element v n).1 (element' v' n').1)
    {vs : List α} {vs' : List α'} (h : List.Forall₂ V vs vs') (n n' : Nat) :
    Λ.likeness.Alike 0 (encodeList element vs n).1 (encodeList element' vs' n').1 := by
  induction h generalizing n n' with
  | nil => exact .ctor
  | cons hv _ ih => exact Term.Alike.ctor.apps (.cons (helement _ _ hv _ _) (.cons (ih _ _) .nil))

theorem alike_native {s s' : Step κ} (hname : s.name = s'.name) (harity : s.arity = s'.arity)
    (hflags : s.flags = s'.flags) (hbody : BodyStep Λ Λ.content Λ.body s.body s'.body) :
    Λ.likeness.Alike 0 (.native s) (.native s') :=
  .native ⟨hname, harity, hflags, body_iff.mpr hbody⟩

/-- Alike values are written as alike terms. -/
theorem alike_encode {c c' : Codec κ} (hc : Λ.codec c c') {v : c.Val} {v' : c'.Val}
    (hv : Λ.value c c' v v') (n n' : Nat) :
    Λ.likeness.Alike 0 (c.encode v n).1 (c'.encode v' n').1 := by
  induction hc generalizing n n' with
  | unit => exact .lit
  | bool | int | size | string =>
      obtain rfl := hv
      exact .lit
  | term => exact hv
  | state => exact alike_blob (.state hv) n n'
  | goal => exact alike_blob (.goal hv) n n'
  | env => exact alike_blob (.env hv) n n'
  | failure => exact alike_encodeFailure hv n n'
  | @list c c' _ ih => exact alike_encodeList (V := Λ.value c c') (fun _ _ => ih) hv n n'
  | option _ ih =>
      cases hv with
      | none => exact .ctor
      | some hv => exact Term.Alike.ctor.apps (.cons (ih hv _ _) .nil)
  | pair _ _ iha ihb =>
      exact Term.Alike.ctor.apps (.cons (iha hv.1 _ _) (.cons (ihb hv.2 _ _) .nil))
  | outcome _ ih =>
      cases hv with
      | success hv hs =>
          exact Term.Alike.ctor.apps (.cons (ih hv _ _) (.cons (alike_blob (.state hs) _ _) .nil))
      | failed he hs =>
          exact Term.Alike.ctor.apps
            (.cons (alike_encodeFailure he _ _) (.cons (alike_blob (.state hs) _ _) .nil))
  | function ha hr _ => exact alike_native rfl rfl rfl (.tactic (.cons ha .nil) hr hv)
  | thunk hr _ => exact alike_native rfl rfl rfl (.tactic .nil hr hv)

theorem alike_encodeAll {cs cs' : List (Codec κ)} (hcs : List.Forall₂ Λ.codec cs cs') {vs : Vals cs}
    {vs' : Vals cs'} (hvs : Λ.values cs cs' vs vs') (n n' : Nat) :
    Λ.likeness.AlikeArgs 0 (encodeAll cs vs n).1 (encodeAll cs' vs' n').1 := by
  induction hcs generalizing n n' with
  | nil => exact .nil
  | cons hc _ ih =>
      obtain ⟨v, vs⟩ := vs
      obtain ⟨v', vs'⟩ := vs'
      exact .cons (alike_encode hc hvs.1 _ _) (ih hvs.2 _ _)

/-! ## Reading -/

theorem rel_map {α α' γ γ' : Type} {R : α → α' → Prop} {S : γ → γ' → Prop} {f : α → γ} {f' : α' → γ'}
    {a? : Option α} {a?' : Option α'} (h : Option.Rel R a? a?') (hf : ∀ a a', R a a' → S (f a) (f' a')) :
    Option.Rel S (a?.map f) (a?'.map f') := by
  cases h with
  | none => exact .none
  | some h => exact .some (hf _ _ h)

theorem rel_asBlob? {t t' : Term κ} (h : Λ.likeness.Alike 0 t t') (kind : BlobKind) :
    Option.Rel Λ.likeness.blob (t.asBlob? kind) (t'.asBlob? kind) := by
  have hs := h.strip
  simp only [Term.asBlob?]
  generalize t.strip = u at hs
  generalize t'.strip = u' at hs
  cases hs with
  | @blob _ b b' hb =>
      have hkind : b.kind = b'.kind := hb.1
      simp only [hkind]
      split
      · exact .some hb
      · exact .none
  | _ => exact .none

theorem rel_decodeBlob {α α' : Type} {V : α → α' → Prop} {kind : BlobKind} {read : Content κ → Option α}
    {read' : Content κ → Option α'}
    (hread : ∀ c c', ContentStep Λ.content Λ.body c c' → Option.Rel V (read c) (read' c')) {t t' : Term κ}
    (h : Λ.likeness.Alike 0 t t') : Option.Rel V (decodeBlob kind read t) (decodeBlob kind read' t') :=
  Term.rel_bind (rel_asBlob? h kind) fun _ _ hb => hread _ _ (content_iff.mp hb.2)

theorem rel_decodeState {t t' : Term κ} (h : Λ.likeness.Alike 0 t t') :
    Option.Rel Λ.state (decodeState t) (decodeState t') := by
  refine rel_decodeBlob (fun c c' hc => ?_) h
  cases hc with
  | state h => exact .some h
  | _ => exact .none

theorem rel_decodeLit {α : Type} {read : Literal → Option α} {t t' : Term κ}
    (h : Λ.likeness.Alike 0 t t') :
    Option.Rel Eq (Codec.decodeLit read t) (Codec.decodeLit read t') := by
  rw [Codec.decodeLit, Codec.decodeLit, h.asLit?_eq]
  exact rel_self (fun _ => rfl) _

/-- Alike terms are applications of one constructor, or neither is an application of a constructor. -/
theorem asCtorApp?_cases {t t' : Term κ} (h : Λ.likeness.Alike 0 t t') :
    (t.asCtorApp? = none ∧ t'.asCtorApp? = none) ∨ ∃ k as as', t.asCtorApp? = some (k, as) ∧
      t'.asCtorApp? = some (k, as') ∧ Λ.likeness.AlikeArgs 0 as as' := by
  have hctor := h.asCtorApp?
  generalize t.asCtorApp? = x at hctor
  generalize t'.asCtorApp? = x' at hctor
  cases hctor with
  | none => exact .inl ⟨rfl, rfl⟩
  | @some x x' hx =>
      obtain ⟨k, as⟩ := x
      obtain ⟨k', as'⟩ := x'
      obtain ⟨rfl, has⟩ : k = k' ∧ Λ.likeness.AlikeArgs 0 as as' := hx
      exact .inr ⟨k, as, as', rfl, rfl, has⟩

theorem rel_thrown {t t' : Term κ} (h : Λ.likeness.Alike 0 t t') : Λ.failure (thrown t) (thrown t') := by
  unfold thrown
  rcases asCtorApp?_cases h with ⟨hx, hx'⟩ | ⟨k, as, as', hx, hx', has⟩
  · rw [hx, hx']
    exact .exception h
  · rw [hx, hx']
    rcases has with _ | ⟨hm, _ | ⟨_, _⟩⟩
    · exact .exception h
    · dsimp only
      rw [hm.asLit?_eq]
      split
      · split
        · exact .message _
        · exact .exception h
      · exact .exception h
    · exact .exception h

theorem rel_decodeFailure {t t' : Term κ} (h : Λ.likeness.Alike 0 t t') :
    Option.Rel Λ.failure (decodeFailure t) (decodeFailure t') := by
  have hs := h.strip
  by_cases hblob : ∃ b, t.strip = .blob b
  · obtain ⟨b, hb⟩ := hblob
    rw [hb] at hs
    generalize hb' : t'.strip = u' at hs
    cases hs with
    | @blob _ _ b' hbb =>
        obtain ⟨kind, id, c⟩ := b
        obtain ⟨kind', id', c'⟩ := b'
        obtain ⟨rfl, hc⟩ : kind = kind' ∧ Λ.content c c' := hbb
        rw [decodeFailure, decodeFailure, hb, hb']
        cases kind with
        | error =>
            cases content_iff.mp hc with
            | issue h => exact .some (.issue h)
            | _ => exact .none
        | foreign => exact .some (.foreign hc)
        | proofState | goal | env => exact .some (.exception (.blob ⟨rfl, hc⟩))
  · have hblob' : ∀ b, t'.strip ≠ .blob b := by
      intro b' hb'
      rw [hb'] at hs
      generalize hb : t.strip = u at hs
      cases hs with
      | blob => exact hblob ⟨_, hb⟩
    rw [decodeFailure_of_not_blob fun b hb => hblob ⟨b, hb⟩, decodeFailure_of_not_blob hblob']
    exact .some (rel_thrown hs)

theorem rel_decodeList {α α' : Type} {V : α → α' → Prop} {element : Term κ → Option α}
    {element' : Term κ → Option α'}
    (helement : ∀ t t', Λ.likeness.Alike 0 t t' → Option.Rel V (element t) (element' t')) :
    ∀ {t t' : Term κ}, Λ.likeness.Alike 0 t t' →
      Option.Rel (List.Forall₂ V) (decodeList element t) (decodeList element' t')
  | _, _, .annotated h => by
      rw [decodeList, decodeList]
      exact rel_decodeList helement h
  | _, _, .ascribed h _ => by
      rw [decodeList, decodeList]
      exact rel_decodeList helement h
  | _, _, .ctor => by
      rw [decodeList, decodeList]
      split
      · exact .some .nil
      · exact .none
  | _, _, .app hc _ .nil => absurd rfl (hc trivial).2
  | _, _, .app _ _ (.cons _ .nil) => .none
  | _, _, .app _ hh (.cons hhd (.cons htl .nil)) => by
      rw [decodeList, decodeList]
      have hs := hh.strip
      generalize Term.strip _ = u at hs
      generalize Term.strip _ = u' at hs
      cases hs with
      | ctor =>
          dsimp only
          split
          · exact Term.rel_bind (helement _ _ hhd) fun v v' hv =>
              Term.rel_bind (rel_decodeList helement htl) fun vs vs' hvs => .some (.cons hv hvs)
          · exact .none
      | _ => exact .none
  | _, _, .app _ _ (.cons _ (.cons _ (.cons _ _))) => .none
  | _, _, .const _ | _, _, .bvar _ | _, _, .free | _, _, .uvar | _, _, .lit | _, _, .lam _ _
  | _, _, .case _ _ | _, _, .reify _ | _, _, .blob _ | _, _, .native _ => .none

/-- Off alike terms alike values are read, or none on either side. -/
theorem rel_decode {c c' : Codec κ} (hc : Λ.codec c c') {t t' : Term κ}
    (h : Λ.likeness.Alike 0 t t') : Option.Rel (Λ.value c c') (c.decode t) (c'.decode t') := by
  induction hc generalizing t t' with
  | unit => exact rel_imp (fun _ _ _ => trivial) (rel_decodeLit h)
  | bool | int | size | string => exact rel_decodeLit h
  | term => exact .some h.strip
  | state => exact rel_decodeState h
  | goal =>
      refine rel_decodeBlob (fun c c' hc => ?_) h
      cases hc with
      | goal h => exact .some h
      | _ => exact .none
  | env =>
      refine rel_decodeBlob (fun c c' hc => ?_) h
      cases hc with
      | env h => exact .some h
      | _ => exact .none
  | failure => exact rel_decodeFailure h
  | list _ ih => exact rel_decodeList (fun _ _ => ih) h
  | @option c c' _ ih =>
      rcases asCtorApp?_cases h with ⟨hx, hx'⟩ | ⟨k, as, as', hx, hx', has⟩
      · simp only [Codec.decode, hx, hx']
        exact .none
      · simp only [Codec.decode, hx, hx']
        rcases has with _ | ⟨hv, _ | ⟨_, _⟩⟩
        · dsimp only
          split
          · exact .some .none
          · exact .none
        · dsimp only
          split
          · exact rel_map (ih hv) fun _ _ => .some
          · exact .none
        · exact .none
  | pair _ _ iha ihb =>
      rcases asCtorApp?_cases h with ⟨hx, hx'⟩ | ⟨k, as, as', hx, hx', has⟩
      · simp only [Codec.decode, hx, hx']
        exact .none
      · simp only [Codec.decode, hx, hx']
        rcases has with _ | ⟨ha, _ | ⟨hb, _ | ⟨_, _⟩⟩⟩
        · exact .none
        · exact .none
        · dsimp only
          split
          · exact Term.rel_bind (iha ha) fun x x' hx => Term.rel_bind (ihb hb) fun y y' hy =>
              .some ⟨hx, hy⟩
          · exact .none
        · exact .none
  | outcome _ ih =>
      rcases asCtorApp?_cases h with ⟨hx, hx'⟩ | ⟨k, as, as', hx, hx', has⟩
      · simp only [Codec.decode, hx, hx']
        exact .none
      · simp only [Codec.decode, hx, hx']
        rcases has with _ | ⟨hv, _ | ⟨hs, _ | ⟨_, _⟩⟩⟩
        · exact .none
        · exact .none
        · dsimp only
          split
          · exact Term.rel_bind (ih hv) fun v v' hv => Term.rel_bind (rel_decodeState hs)
              fun s s' hs => .some (.success hv hs)
          · split
            · exact Term.rel_bind (rel_decodeFailure hv) fun e e' he =>
                Term.rel_bind (rel_decodeState hs) fun s s' hs => .some (.failed he hs)
            · exact .none
        · exact .none
  | function _ _ he => exact .some (.metaprogram he h.strip)
  | thunk _ he => exact .some (.metaprogram he h.strip)

theorem rel_decodeAll {cs cs' : List (Codec κ)} (hcs : List.Forall₂ Λ.codec cs cs')
    {ts ts' : List (Term κ)} (h : Λ.likeness.AlikeArgs 0 ts ts') :
    Option.Rel (Λ.values cs cs') (decodeAll cs ts) (decodeAll cs' ts') := by
  induction hcs generalizing ts ts' with
  | nil =>
      cases h with
      | nil => exact .some trivial
      | cons => exact .none
  | cons hc _ ih =>
      cases h with
      | nil => exact .none
      | cons ht hts =>
          exact Term.rel_bind (rel_decode hc ht) fun v v' hv => Term.rel_bind (ih hts) fun vs vs' hvs =>
            .some ⟨hv, hvs⟩

/-- Arguments of a call, and the state it is made in, are read off alike terms alike. -/
theorem rel_decodeCall {cs cs' : List (Codec κ)} (hcs : List.Forall₂ Λ.codec cs cs')
    {ts ts' : List (Term κ)} (h : Λ.likeness.AlikeArgs 0 ts ts') :
    Option.Rel (fun x x' => Λ.values cs cs' x.1 x'.1 ∧ Λ.state x.2 x'.2) (decodeCall cs ts)
      (decodeCall cs' ts') := by
  have hlast : Option.Rel (Λ.likeness.Alike 0) ts.getLast? ts'.getLast? := by
    rw [List.getLast?_eq_getElem?, List.getLast?_eq_getElem?, h.length_eq]
    exact h.getElem? _
  have hinit : Λ.likeness.AlikeArgs 0 ts.dropLast ts'.dropLast := by
    rw [List.dropLast_eq_take, List.dropLast_eq_take, h.length_eq]
    exact h.take _
  rw [decodeCall, decodeCall]
  generalize ts.getLast? = t? at hlast
  generalize ts'.getLast? = t?' at hlast
  cases hlast with
  | none => exact .none
  | some ht =>
      exact Term.rel_bind (rel_decodeAll hcs hinit) fun vs vs' hvs =>
        Term.rel_bind (rel_decodeState ht) fun s s' hs => .some ⟨hvs, hs⟩

end Leeway

end TacticEngine.Native
