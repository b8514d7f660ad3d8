/-
# TacticEngine.Proofs.Native.Data -- codecs for data accept the wrapped encodings and nothing else.

Data are literals in lists, optional values and pairs.  A term is read as a piece of data exactly if it is
what the data are written as, with wrappers put around it, around its constructors and around its
parts.  So every piece of data is read back, no two are written alike, and a term of any other form is
not read at all.

The terms are canonical, as all terms are that `apps` and `lams` build: an application to no arguments
would be read as its head.
-/
import TacticEngine.Native.Codec
import TacticEngine.Proofs.Term.Wrapped

namespace TacticEngine.Native.Codec

open Term (Wrapped WrappedDeep)

variable {κ α : Type}

/-! ## Codecs for data -/

/-- The codecs whose values are written as literals. -/
def ForLiterals : Codec κ → Prop
  | unit | bool | int | size | string => True
  | _ => False

/-- Codecs put together from basic ones by lists, optional values and pairs. -/
inductive BuiltFrom (basic : Codec κ → Prop) : Codec κ → Prop where
  /-- A basic codec. -/
  | basic {c : Codec κ} : basic c → BuiltFrom basic c
  /-- Lists. -/
  | list {c : Codec κ} : BuiltFrom basic c → BuiltFrom basic (.list c)
  /-- Optional values. -/
  | option {c : Codec κ} : BuiltFrom basic c → BuiltFrom basic (.option c)
  /-- Pairs. -/
  | pair {a b : Codec κ} : BuiltFrom basic a → BuiltFrom basic b → BuiltFrom basic (.pair a b)

/-- The sizes in a value are within their range. -/
def Fits : (c : Codec κ) → c.Val → Prop
  | size, n => (n : Int) < sizeLimit
  | list c, vs => ∀ v ∈ vs, c.Fits v
  | option c, v? => ∀ v ∈ v?, c.Fits v
  | pair a b, p => a.Fits p.1 ∧ b.Fits p.2
  | outcome c, o => ∀ v ∈ o.value?, c.Fits v
  | _, _ => True

/-! ## Writing -/

section

variable {n : Nat}

theorem encodeList_cons (element : α → StateM Nat (Term κ)) (v : α) (vs : List α) :
    ((encodeList element (v :: vs)) n).1 = .app (.ctor Names.cons)
      [(element v n).1, (encodeList element vs (element v n).2).1] := rfl

theorem encode_some (c : Codec κ) (v : c.Val) :
    ((option c).encode (some v) n).1 = .app (.ctor Names.some) [(c.encode v n).1] := rfl

theorem encode_pair (a b : Codec κ) (x : a.Val) (y : b.Val) :
    ((pair a b).encode (x, y) n).1 = .app (.ctor Names.mkTuple2)
      [(a.encode x n).1, (b.encode y (a.encode x n).2).1] := rfl

end

/-! ### Canonical terms -/

/-- The terms in a value are canonical. -/
def Canonical : (c : Codec κ) → c.Val → Prop
  | term, t => Term.Canonical t
  | failure, e => ∀ t, e = .exception t → Term.Canonical t
  | list c, vs => ∀ v ∈ vs, c.Canonical v
  | option c, v? => ∀ v ∈ v?, c.Canonical v
  | pair a b, p => a.Canonical p.1 ∧ b.Canonical p.2
  | outcome c, o => (∀ v ∈ o.value?, c.Canonical v) ∧
      ∀ e s, o = .failed e s → ∀ t, e = .exception t → Term.Canonical t
  | _, _ => True

theorem canonical_encodeFailure {e : Failure κ} (h : ∀ t, e = .exception t → Term.Canonical t)
    (n : Nat) : Term.Canonical (encodeFailure e n).1 := by
  cases e with
  | exception t => exact h t rfl
  | message text => exact ⟨rfl, List.cons_ne_nil _ _, trivial, trivial, trivial⟩
  | issue e => trivial
  | foreign payload => trivial

theorem canonical_encodeList {element : α → StateM Nat (Term κ)} {vs : List α}
    (h : ∀ v ∈ vs, ∀ n, Term.Canonical (element v n).1) (n : Nat) :
    Term.Canonical (encodeList element vs n).1 := by
  induction vs generalizing n with
  | nil => trivial
  | cons v vs ih =>
      rw [List.forall_mem_cons] at h
      exact ⟨rfl, List.cons_ne_nil _ _, trivial, h.1 n, ih h.2 _, trivial⟩

/-- Values with canonical terms in them are written as canonical terms. -/
theorem canonical_encode (c : Codec κ) {v : c.Val} (hv : c.Canonical v) (n : Nat) :
    Term.Canonical (c.encode v n).1 := by
  induction c generalizing n with
  | term => exact hv
  | failure => exact canonical_encodeFailure hv n
  | list c ih => exact canonical_encodeList (fun v' hv' n => ih (hv v' hv') n) n
  | option c ih =>
      cases v with
      | none => trivial
      | some v => exact ⟨rfl, List.cons_ne_nil _ _, trivial, ih (hv v rfl) n, trivial⟩
  | pair a b iha ihb =>
      exact ⟨rfl, List.cons_ne_nil _ _, trivial, iha hv.1 n, ihb hv.2 _, trivial⟩
  | outcome c ih =>
      cases v with
      | success v s =>
          exact ⟨rfl, List.cons_ne_nil _ _, trivial, ih (hv.1 v rfl) n, trivial, trivial⟩
      | failed e s =>
          have he := canonical_encodeFailure (hv.2 e s rfl) n
          exact ⟨rfl, List.cons_ne_nil _ _, trivial, he, trivial, trivial⟩
  | _ => trivial

/-- There are no terms in data. -/
theorem canonical_of_builtFrom {c : Codec κ} (hc : c.BuiltFrom ForLiterals) (v : c.Val) :
    c.Canonical v := by
  induction hc with
  | @basic c hc =>
      cases c with
      | unit | bool | int | size | string => trivial
      | _ => exact hc.elim
  | list _ ih => exact fun v _ => ih v
  | option _ ih => exact fun v _ => ih v
  | pair _ _ iha ihb => exact ⟨iha v.1, ihb v.2⟩

/-! ## Reading -/

/-- A list is read off its links, each with wrappers around it. -/
theorem decodeList_eq (element : Term κ → Option α) (t : Term κ) :
    decodeList element t =
      match t.asCtorApp? with
      | some (c, []) => if c = Names.nil then some [] else none
      | some (c, [hd, tl]) =>
        if c = Names.cons then do
          let v ← element hd
          let vs ← decodeList element tl
          return v :: vs
        else none
      | _ => none := by
  cases t with
  | annotated t n =>
      rw [decodeList, show (t.annotated n).asCtorApp? = t.asCtorApp? from rfl]
      exact decodeList_eq element t
  | ascribed t type =>
      rw [decodeList, show (t.ascribed type).asCtorApp? = t.asCtorApp? from rfl]
      exact decodeList_eq element t
  | app h as =>
      simp only [Term.asCtorApp?, Term.strip, Term.headArgs]
      rcases as with _ | ⟨hd, _ | ⟨tl, _ | ⟨more, as⟩⟩⟩
      · rw [decodeList]
        cases h.strip <;> rfl
      · show none = _
        cases h.strip <;> rfl
      · rw [decodeList]
        cases h.strip <;> rfl
      · show none = _
        cases h.strip <;> rfl
  | _ => rfl

theorem decodeList_eq_some_nil_iff {element : Term κ → Option α} {t : Term κ} :
    decodeList element t = some [] ↔ t.asCtorApp? = some (Names.nil, []) := by
  rcases ht : t.asCtorApp? with _ | ⟨c, _ | ⟨hd, _ | ⟨tl, _ | ⟨more, as⟩⟩⟩⟩ <;>
    simp [decodeList_eq element t, ht, Option.bind_eq_some_iff]

theorem decodeList_eq_some_cons_iff {element : Term κ → Option α} {t : Term κ} {v : α}
    {vs : List α} :
    decodeList element t = some (v :: vs) ↔ ∃ hd tl, t.asCtorApp? = some (Names.cons, [hd, tl]) ∧
      element hd = some v ∧ decodeList element tl = some vs := by
  rcases ht : t.asCtorApp? with _ | ⟨c, _ | ⟨hd, _ | ⟨tl, _ | ⟨more, as⟩⟩⟩⟩ <;>
    simp [decodeList_eq element t, ht, Option.bind_eq_some_iff]

section

variable {c : Codec κ} {t : Term κ}

theorem decode_option : (option c).decode t =
    match t.asCtorApp? with
    | some (k, []) => if k = Names.none then some none else none
    | some (k, [v]) => if k = Names.some then (c.decode v).map some else none
    | _ => none := rfl

theorem decode_pair {a b : Codec κ} : (pair a b).decode t =
    match t.asCtorApp? with
    | some (k, [x, y]) =>
      if k = Names.mkTuple2 then do
        let x ← a.decode x
        let y ← b.decode y
        return (x, y)
      else none
    | _ => none := rfl

theorem decode_outcome : (outcome c).decode t =
    match t.asCtorApp? with
    | some (k, [v, s]) =>
      if k = Names.success then do
        let v ← c.decode v
        let s ← decodeState s
        return .success v s
      else if k = Names.failed then do
        let e ← decodeFailure v
        let s ← decodeState s
        return .failed e s
      else none
    | _ => none := rfl

theorem decode_option_eq_some_none_iff :
    (option c).decode t = some none ↔ t.asCtorApp? = some (Names.none, []) := by
  rcases ht : t.asCtorApp? with _ | ⟨k, _ | ⟨u, _ | ⟨w, more⟩⟩⟩ <;> simp [decode_option, ht]

theorem decode_option_eq_some_some_iff {v : c.Val} :
    (option c).decode t = some (some v) ↔
      ∃ u, t.asCtorApp? = some (Names.some, [u]) ∧ c.decode u = some v := by
  rcases ht : t.asCtorApp? with _ | ⟨k, _ | ⟨u, _ | ⟨w, more⟩⟩⟩ <;> simp [decode_option, ht]

theorem decode_pair_eq_some_iff {a b : Codec κ} {x : a.Val} {y : b.Val} :
    (pair a b).decode t = some (x, y) ↔ ∃ u v, t.asCtorApp? = some (Names.mkTuple2, [u, v]) ∧
      a.decode u = some x ∧ b.decode v = some y := by
  rcases ht : t.asCtorApp? with _ | ⟨k, _ | ⟨u, _ | ⟨w, _ | ⟨z, more⟩⟩⟩⟩ <;>
    simp [decode_pair, ht, Option.bind_eq_some_iff]

theorem decode_outcome_eq_some_success_iff {v : c.Val} {s : ProofState κ} :
    (outcome c).decode t = some (.success v s) ↔
      ∃ u w, t.asCtorApp? = some (Names.success, [u, w]) ∧ c.decode u = some v ∧
        decodeState w = some s := by
  rcases ht : t.asCtorApp? with _ | ⟨k, _ | ⟨u, _ | ⟨w, _ | ⟨z, more⟩⟩⟩⟩ <;>
    simp only [decode_outcome, ht]
  · simp
  · simp
  · simp
  · by_cases hs : k = Names.success
    · simp [hs, Option.bind_eq_some_iff]
    · by_cases hf : k = Names.failed
      · subst hf
        simp [hs, Option.bind_eq_some_iff]
      · simp [hs, hf]
  · simp

theorem decode_outcome_eq_some_failed_iff {reason : Failure κ} {s : ProofState κ} :
    (outcome c).decode t = some (.failed reason s) ↔
      ∃ u w, t.asCtorApp? = some (Names.failed, [u, w]) ∧ decodeFailure u = some reason ∧
        decodeState w = some s := by
  have hne : Names.success ≠ Names.failed := by decide
  rcases ht : t.asCtorApp? with _ | ⟨k, _ | ⟨u, _ | ⟨w, _ | ⟨z, more⟩⟩⟩⟩ <;>
    simp only [decode_outcome, ht]
  · simp
  · simp
  · simp
  · by_cases hs : k = Names.success
    · simp [hs, hne, Option.bind_eq_some_iff]
    · by_cases hf : k = Names.failed
      · subst hf
        simp [hs, Option.bind_eq_some_iff]
      · simp [hs, hf]
  · simp

end

/-! ## Reading what was written -/

section

variable {t : Term κ}

/-- A literal is read exactly off the terms that wrap it. -/
theorem decodeLit_eq_some_iff {read : Literal → Option α} {v : α} {l : Literal} {P : Prop}
    (hread : ∀ l', read l' = some v ↔ P ∧ l' = l) :
    decodeLit read t = some v ↔ P ∧ WrappedDeep (.lit l) t := by
  rw [Term.wrappedDeep_lit_iff, ← Term.asLit?_eq_some_iff, decodeLit, Option.bind_eq_some_iff]
  constructor
  · rintro ⟨l', hl', hv⟩
    obtain ⟨hP, rfl⟩ := (hread l').mp hv
    exact ⟨hP, hl'⟩
  · rintro ⟨hP, hl⟩
    exact ⟨l, hl, (hread l).mpr ⟨hP, rfl⟩⟩

theorem decode_literal_eq_some_iff {c : Codec κ} (hc : c.ForLiterals) (v : c.Val) (n : Nat) :
    c.decode t = some v ↔ c.Fits v ∧ WrappedDeep (c.encode v n).1 t := by
  cases c with
  | unit => exact decodeLit_eq_some_iff fun l => by cases l <;> simp [Fits]
  | bool => exact decodeLit_eq_some_iff fun l => by cases l <;> simp [Fits]
  | int => exact decodeLit_eq_some_iff fun l => by cases l <;> simp [Fits]
  | string => exact decodeLit_eq_some_iff fun l => by cases l <;> simp [Fits]
  | size =>
      refine decodeLit_eq_some_iff fun l => ?_
      cases l with
      | int m =>
          have hrange (k : Nat) : (0 ≤ m ∧ m < sizeLimit) ∧ m.toNat = k ↔
              (k : Int) < sizeLimit ∧ m = k := by omega
          simpa only [Option.ite_none_right_eq_some, Option.some.injEq, Fits,
            Literal.int.injEq] using hrange v
      | _ => simp
  | _ => exact hc.elim

/-- What is read off a canonical term with `read` is what `write` wrote, with wrappers. -/
def Exact (read : Term κ → Option α) (fits : α → Prop) (write : α → StateM Nat (Term κ)) : Prop :=
  ∀ t : Term κ, t.Canonical → ∀ v n, read t = some v ↔ fits v ∧ WrappedDeep (write v n).1 t

variable {read : Term κ → Option α} {fits : α → Prop} {write : α → StateM Nat (Term κ)}

theorem Exact.list (h : Exact read fits write) :
    Exact (decodeList read) (fun vs => ∀ v ∈ vs, fits v) (encodeList write) := by
  intro t ht vs n
  induction vs generalizing t n with
  | nil =>
      show _ ↔ _ ∧ WrappedDeep (.ctor Names.nil) t
      rw [decodeList_eq_some_nil_iff, Term.wrappedDeep_ctor_iff, Term.asCtorApp?_eq_some_nil_iff ht]
      simp
  | cons v vs ih =>
      rw [decodeList_eq_some_cons_iff, encodeList_cons, Term.wrappedDeep_ctorApp_two_iff]
      simp only [List.forall_mem_cons]
      constructor
      · rintro ⟨hd, tl, ht', hv, hvs⟩
        have hparts := ht.of_asCtorApp? ht'
        obtain ⟨hfv, hv⟩ := (h hd (hparts hd (by simp)) v n).mp hv
        obtain ⟨hfvs, hvs⟩ := (ih tl (hparts tl (by simp)) _).mp hvs
        exact ⟨⟨hfv, hfvs⟩, hd, tl, ht', hv, hvs⟩
      · rintro ⟨⟨hfv, hfvs⟩, hd, tl, ht', hv, hvs⟩
        have hparts := ht.of_asCtorApp? ht'
        exact ⟨hd, tl, ht', (h hd (hparts hd (by simp)) v n).mpr ⟨hfv, hv⟩,
          (ih tl (hparts tl (by simp)) _).mpr ⟨hfvs, hvs⟩⟩

theorem exact_option {c : Codec κ} (h : Exact c.decode c.Fits c.encode) :
    Exact (option c).decode (option c).Fits (option c).encode := by
  intro t ht v? n
  cases v? with
  | none =>
      show _ ↔ _ ∧ WrappedDeep (.ctor Names.none) t
      rw [decode_option_eq_some_none_iff, Term.wrappedDeep_ctor_iff,
        Term.asCtorApp?_eq_some_nil_iff ht]
      simp [Fits]
  | some v =>
      have hfits : (option c).Fits (some v) ↔ c.Fits v := by simp [Fits]
      rw [decode_option_eq_some_some_iff, encode_some, Term.wrappedDeep_ctorApp_one_iff, hfits]
      constructor
      · rintro ⟨u, ht', hv⟩
        obtain ⟨hfv, hv⟩ := (h u (ht.of_asCtorApp? ht' u (by simp)) v n).mp hv
        exact ⟨hfv, u, ht', hv⟩
      · rintro ⟨hfv, u, ht', hv⟩
        exact ⟨u, ht', (h u (ht.of_asCtorApp? ht' u (by simp)) v n).mpr ⟨hfv, hv⟩⟩

theorem exact_pair {a b : Codec κ} (ha : Exact a.decode a.Fits a.encode)
    (hb : Exact b.decode b.Fits b.encode) :
    Exact (pair a b).decode (pair a b).Fits (pair a b).encode := by
  rintro t ht ⟨x, y⟩ n
  rw [decode_pair_eq_some_iff, encode_pair, Term.wrappedDeep_ctorApp_two_iff]
  constructor
  · rintro ⟨u, v, ht', hx, hy⟩
    have hparts := ht.of_asCtorApp? ht'
    obtain ⟨hfx, hx⟩ := (ha u (hparts u (by simp)) x n).mp hx
    obtain ⟨hfy, hy⟩ := (hb v (hparts v (by simp)) y _).mp hy
    exact ⟨⟨hfx, hfy⟩, u, v, ht', hx, hy⟩
  · rintro ⟨⟨hfx, hfy⟩, u, v, ht', hx, hy⟩
    have hparts := ht.of_asCtorApp? ht'
    exact ⟨u, v, ht', (ha u (hparts u (by simp)) x n).mpr ⟨hfx, hx⟩,
      (hb v (hparts v (by simp)) y _).mpr ⟨hfy, hy⟩⟩

theorem exact_of_builtFrom {c : Codec κ} (hc : c.BuiltFrom ForLiterals) :
    Exact c.decode c.Fits c.encode := by
  induction hc with
  | basic hc => exact fun t _ v n => decode_literal_eq_some_iff hc v n
  | list _ ih => exact ih.list
  | option _ ih => exact exact_option ih
  | pair _ _ iha ihb => exact exact_pair iha ihb

end

/-- A canonical term is read as a value exactly if it is what the value is written as, with wrappers
around it, its heads and its parts; else it is not read.  In particular what was written is read back,
and different values are written differently.  Outcomes are read as exactly, with failures and states
left to their own codecs. -/
theorem decode_exact {c : Codec κ} (hc : c.BuiltFrom ForLiterals) :
    (∀ t : Term κ, t.Canonical →
      (∀ v n, c.decode t = some v ↔ c.Fits v ∧ WrappedDeep (c.encode v n).1 t) ∧
      ((∀ v n, c.Fits v → ¬ WrappedDeep (c.encode v n).1 t) → c.decode t = none)) ∧
    (∀ v n, c.Fits v → c.decode (c.encode v n).1 = some v) ∧
    (∀ v v' n n', c.Fits v → c.Fits v' → (c.encode v n).1 = (c.encode v' n').1 → v = v') ∧
    ∀ (t : Term κ) (s : ProofState κ), t.Canonical →
      (∀ v n, (outcome c).decode t = some (.success v s) ↔
        ∃ h u w, Wrapped (.ctor Names.success) h ∧ Wrapped (.app h [u, w]) t ∧
          (c.Fits v ∧ WrappedDeep (c.encode v n).1 u) ∧ state.decode w = some s) ∧
      ∀ reason, (outcome c).decode t = some (.failed reason s) ↔
        ∃ h u w, Wrapped (.ctor Names.failed) h ∧ Wrapped (.app h [u, w]) t ∧
          failure.decode u = some reason ∧ state.decode w = some s := by
  have hexact := exact_of_builtFrom hc
  have hback : ∀ v n, c.Fits v → c.decode (c.encode v n).1 = some v := fun v n hv =>
    (hexact _ (canonical_encode c (canonical_of_builtFrom hc v) n) v n).mpr ⟨hv, .refl _⟩
  refine ⟨fun t ht => ⟨hexact t ht, fun hnone => ?_⟩, hback, ?_, ?_⟩
  · cases hr : c.decode t with
    | none => rfl
    | some v =>
        obtain ⟨hfits, hw⟩ := (hexact t ht v 0).mp hr
        exact absurd hw (hnone v 0 hfits)
  · intro v v' n n' hv hv' heq
    have hr := hback v n hv
    rw [heq, hback v' n' hv'] at hr
    exact (Option.some.inj hr).symm
  · intro t s ht
    constructor
    · intro v n
      rw [decode_outcome_eq_some_success_iff]
      constructor
      · rintro ⟨u, w, ht', hv, hs⟩
        obtain ⟨h, hh, hw⟩ := (Term.asCtorApp?_eq_some_iff (List.cons_ne_nil _ _)).mp ht'
        exact ⟨h, u, w, hh, hw, (hexact u (ht.of_asCtorApp? ht' u (by simp)) v n).mp hv, hs⟩
      · rintro ⟨h, u, w, hh, hw, hv, hs⟩
        have ht' := (Term.asCtorApp?_eq_some_iff (List.cons_ne_nil _ _)).mpr ⟨h, hh, hw⟩
        exact ⟨u, w, ht', (hexact u (ht.of_asCtorApp? ht' u (by simp)) v n).mpr hv, hs⟩
    · intro reason
      rw [decode_outcome_eq_some_failed_iff]
      constructor
      · rintro ⟨u, w, ht', he, hs⟩
        obtain ⟨h, hh, hw⟩ := (Term.asCtorApp?_eq_some_iff (List.cons_ne_nil _ _)).mp ht'
        exact ⟨h, u, w, hh, hw, he, hs⟩
      · rintro ⟨h, u, w, hh, hw, he, hs⟩
        exact ⟨u, w, (Term.asCtorApp?_eq_some_iff (List.cons_ne_nil _ _)).mpr ⟨h, hh, hw⟩, he, hs⟩

/-- A list of one pair, with wrappers on every level. -/
def wrappedPairs : Term Unit :=
  .annotated (.app (.annotated (.ctor Names.cons) (.monadic "M"))
    [.ascribed (.app (.ctor Names.mkTuple2)
      [.lit (.int 3), .annotated (.lit (.string "a")) (.monadic "M")]) .unit, .ctor Names.nil])
    (.monadic "M")

theorem decode_exact_pairs :
    (list (pair size string)).decode wrappedPairs = some [((3 : Nat), "a")] := by
  have hlist : (list (pair size string) : Codec Unit).BuiltFrom ForLiterals :=
    .list (.pair (.basic trivial) (.basic trivial))
  have hcanonical : wrappedPairs.Canonical := by
    simp [wrappedPairs, Term.Canonical, Term.CanonicalArgs, Term.isApp, Term.unit]
  have hfits : (list (pair size string) : Codec Unit).Fits [((3 : Nat), "a")] := by
    simp [Fits, sizeLimit]
  have hwrapped : WrappedDeep ((list (pair size string)).encode [((3 : Nat), "a")] 0).1
      wrappedPairs :=
    .ctorApp (.annotated .self) (.cons (.ctorApp .self (.cons (.outside .self)
      (.cons (.outside (.annotated .self)) .nil)) (.ascribed .self))
      (.cons (.outside .self) .nil)) (.annotated .self)
  exact (((decode_exact hlist).1 wrappedPairs hcanonical).1 _ 0).mpr ⟨hfits, hwrapped⟩

/-- The argument of a partial application is not an argument of the application around it. -/
example (note : Annotation) : (pair int bool : Codec Unit).decode
    (.app (.annotated (.app (.ctor Names.mkTuple2) [.lit (.int 1)]) note) [.lit (.bool true)]) =
      none := rfl

end TacticEngine.Native.Codec
