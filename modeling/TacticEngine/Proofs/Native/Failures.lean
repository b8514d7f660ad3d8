/-
# TacticEngine.Proofs.Native.Failures -- writing a failure and reading it back.

Issues, failures on purpose and values of the host are written in forms of their own.  An exception is
written as the term that was raised, whatever that term looks like, and it may well look like one of those
forms; a blob that announces an issue and holds none is even not read at all.  So reading is not the inverse
of writing.  It is a retraction: what is read is written as the term it was read from, up to wrappers and up
to the identity of an issue, and a failure that has been written and read once stays as it is, however often
it is written and read again.
-/
import TacticEngine.Proofs.Native.Data

namespace TacticEngine.Native

variable {κ : Type}

/-- The failure is not an exception of the object language. -/
def Failure.IsNative : Failure κ → Prop
  | .exception _ => False
  | _ => True

namespace Codec

open Term (Wrapped)

/-! ## Up to wrappers and identities -/

/-- The second term is the first one, but for wrappers around the whole, for wrappers around the head and
the message of a failure on purpose, and for the identity of an issue. -/
inductive Restores : Term κ → Term κ → Prop where
  /-- Wrappers around the whole. -/
  | wrapped {t u : Term κ} : Wrapped t u → Restores t u
  /-- Another identity for an issue. -/
  | issue {i j : Nat} {e : Issue κ} {u : Term κ} :
      Wrapped (.blob ⟨.error, ⟨j, .issue e⟩⟩) u → Restores (.blob ⟨.error, ⟨i, .issue e⟩⟩) u
  /-- Wrappers around the parts of a failure on purpose. -/
  | message {text : String} {h m u : Term κ} : Wrapped (.ctor Names.tacticFailure) h →
      Wrapped (.lit (.string text)) m → Wrapped (.app h [m]) u →
      Restores (.app (.ctor Names.tacticFailure) [.lit (.string text)]) u

/-- A blob that announces an issue and holds none, in any wrappers. -/
def Mistyped (t : Term κ) : Prop :=
  ∃ id content, t.strip = .blob ⟨.error, ⟨id, content⟩⟩ ∧ ∀ e, content ≠ .issue e

/-! ## Reading, case by case -/

/-- A term that is no embedded value, as a reason of failure. -/
def thrown (t : Term κ) : Failure κ :=
  match t.asCtorApp? with
  | some (c, [m]) =>
    match m.asLit? with
    | some (.string text) => if c = Names.tacticFailure then .message text else .exception t
    | _ => .exception t
  | _ => .exception t

theorem decodeFailure_of_not_blob {t : Term κ} (h : ∀ b, t.strip ≠ .blob b) :
    decodeFailure t = some (thrown t.strip) := by
  rw [decodeFailure, thrown]
  split
  · exact absurd ‹_› (h _)
  · exact absurd ‹_› (h _)
  · rcases t.strip.asCtorApp? with _ | ⟨c, _ | ⟨m, _ | ⟨m', ms⟩⟩⟩
    · rfl
    · rfl
    · dsimp only
      cases m.asLit? with
      | none => rfl
      | some l =>
          cases l with
          | string text =>
              dsimp only
              split <;> rfl
          | _ => rfl
    · rfl

theorem thrown_cases (t : Term κ) :
    (∃ m text, t.asCtorApp? = some (Names.tacticFailure, [m]) ∧ m.asLit? = some (.string text) ∧
      thrown t = .message text) ∨ thrown t = .exception t := by
  unfold thrown
  split
  next c m hctor =>
    split
    next text hlit =>
      by_cases hc : c = Names.tacticFailure
      · exact .inl ⟨m, text, hc ▸ hctor, hlit, if_pos hc⟩
      · exact .inr (if_neg hc)
    next => exact .inr rfl
  next => exact .inr rfl

variable {t u : Term κ} {f g : Failure κ}

/-- Only what is in the wrappers is looked at. -/
theorem decodeFailure_congr (h : t.strip = u.strip) : decodeFailure t = decodeFailure u := by
  unfold decodeFailure
  rw [h]

theorem decodeFailure_encodeFailure (hf : Failure.IsNative f) (n : Nat) :
    decodeFailure (encodeFailure f n).1 = some f := by
  cases f with
  | exception t => exact hf.elim
  | _ => rfl

/-- A failure with a form of its own is read off every term that has this form. -/
theorem decodeFailure_of_restores (hf : Failure.IsNative f) {n : Nat}
    (h : Restores (encodeFailure f n).1 t) : decodeFailure t = some f := by
  generalize hw : (encodeFailure f n).1 = w at h
  cases h with
  | wrapped h =>
      rw [decodeFailure_congr h.strip_eq, ← hw]
      exact decodeFailure_encodeFailure hf n
  | @issue i j e _ h =>
      -- the new identity is not looked at
      obtain rfl : f = .issue e := by
        have hread := decodeFailure_encodeFailure hf n
        rw [hw] at hread
        exact (Option.some.inj hread).symm
      rw [decodeFailure_congr h.strip_eq]
      rfl
  | @message text head m _ hhead hm h =>
      obtain rfl : f = .message text := by
        have hread := decodeFailure_encodeFailure hf n
        rw [hw] at hread
        exact (Option.some.inj hread).symm
      have hstrip : t.strip = .app head [m] := h.strip_eq
      have hctor : (Term.app head [m]).asCtorApp? = some (Names.tacticFailure, [m]) :=
        (Term.asCtorApp?_eq_some_iff (List.cons_ne_nil _ _)).mpr ⟨head, hhead, .self⟩
      rw [decodeFailure_of_not_blob (by simp [hstrip]), hstrip, thrown, hctor]
      simp [Term.asLit?_eq_some_iff.mpr hm]

/-- Every term is mistyped, or has the form of another failure, or is an exception. -/
theorem decodeFailure_cases (t : Term κ) :
    (Mistyped t ∧ decodeFailure t = none) ∨
    (∃ f, Failure.IsNative f ∧ (∀ n, Restores (encodeFailure f n).1 t) ∧ decodeFailure t = some f) ∨
    (¬ Mistyped t ∧ decodeFailure t = some (.exception t.strip)) := by
  by_cases hblob : ∃ b, t.strip = .blob b
  · obtain ⟨⟨kind, id, content⟩, hb⟩ := hblob
    have hw : Wrapped (.blob ⟨kind, ⟨id, content⟩⟩) t := hb ▸ Term.wrapped_strip t
    have hread : decodeFailure t = decodeFailure (.blob ⟨kind, ⟨id, content⟩⟩) :=
      decodeFailure_congr (by rw [hb]; rfl)
    have hnot (hkind : kind ≠ .error) : ¬ Mistyped t := by
      rintro ⟨id', content', hb', -⟩
      rw [hb] at hb'
      cases hb'
      exact hkind rfl
    rw [hread, hb]
    cases kind with
    | error =>
        by_cases hissue : ∃ e, content = .issue e
        · obtain ⟨e, rfl⟩ := hissue
          exact .inr (.inl ⟨.issue e, trivial, fun _ => .issue hw, rfl⟩)
        · have hmistyped : Mistyped t := ⟨id, content, hb, fun e he => hissue ⟨e, he⟩⟩
          refine .inl ⟨hmistyped, ?_⟩
          cases content with
          | issue e => exact absurd ⟨e, rfl⟩ hissue
          | _ => rfl
    | foreign => exact .inr (.inl ⟨.foreign ⟨id, content⟩, trivial, fun _ => .wrapped hw, rfl⟩)
    | _ => exact .inr (.inr ⟨hnot nofun, rfl⟩)
  · have hnot : ¬ Mistyped t := by
      rintro ⟨id, content, hb, -⟩
      exact hblob ⟨_, hb⟩
    rw [decodeFailure_of_not_blob fun b hb => hblob ⟨b, hb⟩]
    rcases thrown_cases t.strip with ⟨m, text, hctor, hlit, hthrown⟩ | hthrown
    · -- a failure on purpose, the parts of which may be in wrappers
      obtain ⟨head, hhead, happ⟩ := (Term.asCtorApp?_eq_some_iff (List.cons_ne_nil _ _)).mp hctor
      have happ' : Wrapped (.app head [m]) t := by
        have hstrip : t.strip.strip = .app head [m] := happ.strip_eq
        rw [Term.strip_strip] at hstrip
        exact (Term.strip_eq_iff rfl).mp hstrip
      refine .inr (.inl ⟨.message text, trivial, fun _ => ?_, by rw [hthrown]⟩)
      exact .message hhead (Term.asLit?_eq_some_iff.mp hlit) happ'
    · exact .inr (.inr ⟨hnot, by rw [hthrown]⟩)

/-! ## The retraction -/

theorem decodeFailure_eq_none_iff : decodeFailure t = none ↔ Mistyped t := by
  rcases decodeFailure_cases t with ⟨hm, hr⟩ | ⟨f, hf, hw, hr⟩ | ⟨hm, hr⟩
  · simp [hr, hm]
  · have hm : ¬ Mistyped t := by
      rintro ⟨id, content, hb, hcontent⟩
      have hnone : decodeFailure t = none := by
        rw [decodeFailure_congr (u := .blob ⟨.error, ⟨id, content⟩⟩) (by rw [hb]; rfl)]
        cases content with
        | issue e => exact absurd rfl (hcontent e)
        | _ => rfl
      rw [hr] at hnone
      cases hnone
    simp [hr, hm]
  · simp [hr, hm]

/-- What is read is written as the term that it was read from. -/
theorem restores_of_decodeFailure (h : decodeFailure t = some f) (n : Nat) :
    Restores (encodeFailure f n).1 t := by
  rcases decodeFailure_cases t with ⟨hm, hr⟩ | ⟨g, hg, hw, hr⟩ | ⟨hm, hr⟩
  · rw [h] at hr
    cases hr
  · rw [h] at hr
    cases hr
    exact hw n
  · rw [h] at hr
    cases hr
    exact .wrapped (Term.wrapped_strip t)

theorem decodeFailure_eq_some_iff (hf : Failure.IsNative f) :
    decodeFailure t = some f ↔ ∃ n, Restores (encodeFailure f n).1 t := by
  constructor
  · intro h
    exact ⟨0, restores_of_decodeFailure h 0⟩
  · rintro ⟨n, h⟩
    exact decodeFailure_of_restores hf h

theorem decodeFailure_of_no_form (ht : ¬ Mistyped t)
    (h : ∀ f n, Failure.IsNative f → ¬ Restores (encodeFailure f n).1 t) :
    decodeFailure t = some (.exception t.strip) := by
  rcases decodeFailure_cases t with ⟨hm, -⟩ | ⟨f, hf, hw, -⟩ | ⟨-, hr⟩
  · exact absurd hm ht
  · exact absurd (hw 0) (h f 0 hf)
  · exact hr

/-- A failure that has been read is read again when it is written. -/
theorem decodeFailure_encodeFailure_of_read (h : decodeFailure t = some f) (n : Nat) :
    decodeFailure (encodeFailure f n).1 = some f := by
  rcases decodeFailure_cases t with ⟨-, hr⟩ | ⟨g, hg, -, hr⟩ | ⟨-, hr⟩
  · rw [h] at hr
    cases hr
  · rw [h] at hr
    cases hr
    exact decodeFailure_encodeFailure hg n
  · rw [h] at hr
    cases hr
    show decodeFailure t.strip = _
    rw [decodeFailure_congr (Term.strip_strip t), h]

/-- A failure written, with identities from the given one on, and read back. -/
def roundTrip (f : Failure κ) (n : Nat) : Option (Failure κ) :=
  failure.decode ((failure.encode f n).1)

theorem roundTrip_of_roundTrip {n : Nat} (h : roundTrip f n = some g) (m : Nat) :
    roundTrip g m = some g :=
  decodeFailure_encodeFailure_of_read h m

/-- After the first round trip nothing changes any more. -/
theorem foldlM_roundTrip (f : Failure κ) (n : Nat) (ns : List Nat) :
    (n :: ns).foldlM roundTrip f = roundTrip f n := by
  have hfix : ∀ {g : Failure κ}, (∀ m, roundTrip g m = some g) → ns.foldlM roundTrip g = some g := by
    intro g hg
    induction ns with
    | nil => rfl
    | cons m ms ih => rw [List.foldlM_cons, hg m]; exact ih
  rw [List.foldlM_cons]
  cases h : roundTrip f n with
  | none => rfl
  | some g => exact hfix (roundTrip_of_roundTrip h)

/-- Inside an outcome, as a nested run hands it on, a failure makes the same trip. -/
theorem decode_encode_failed (c : Codec κ) (f : Failure κ) (s : ProofState κ) (n : Nat) :
    (outcome c).decode ((outcome c).encode (.failed f s) n).1 =
      (roundTrip f n).map (.failed · s) := by
  have hread : (outcome c).decode ((outcome c).encode (.failed f s) n).1 =
      (decodeFailure (encodeFailure f n).1).bind fun e => some (.failed e s) := rfl
  rw [hread]
  show _ = (decodeFailure (encodeFailure f n).1).map _
  cases decodeFailure (encodeFailure f n).1 <;> rfl

/-- The codec of failures is a retraction.  Reading fails exactly at the blobs that announce an issue and
hold none; what it finds is written as the term that was read, up to wrappers and the identity of an issue.
Writing and reading leaves failures with a form of their own as they are.  It turns an exception into the
failure whose form the raised term has, if there is one, and else only strips it.  Whatever comes out stays
the same on further round trips, by itself and inside outcomes. -/
theorem failure_retraction :
    (∀ t : Term κ, failure.decode t = none ↔ Mistyped t) ∧
    (∀ (t : Term κ) (f : Failure κ), failure.decode t = some f →
      ∀ n, Restores (failure.encode f n).1 t) ∧
    (∀ (f : Failure κ) n, Failure.IsNative f → roundTrip f n = some f) ∧
    (∀ (t : Term κ) n, ¬ Mistyped t →
      (∀ f, Failure.IsNative f →
        (roundTrip (.exception t) n = some f ↔ ∃ m, Restores (failure.encode f m).1 t)) ∧
      ((∀ f m, Failure.IsNative f → ¬ Restores (failure.encode f m).1 t) →
        roundTrip (.exception t) n = some (.exception t.strip)) ∧
      (roundTrip (.exception t) n).isSome) ∧
    (∀ (f g : Failure κ) n, roundTrip f n = some g → ∀ m, roundTrip g m = some g) ∧
    (∀ (f : Failure κ) n ns, (n :: ns).foldlM roundTrip f = roundTrip f n) ∧
    ∀ (c : Codec κ) (f : Failure κ) s n, (outcome c).decode ((outcome c).encode (.failed f s) n).1 =
      (roundTrip f n).map (.failed · s) := by
  refine ⟨fun t => decodeFailure_eq_none_iff, fun t f h n => restores_of_decodeFailure h n,
    fun f n hf => decodeFailure_encodeFailure hf n, ?_, fun f g n h => roundTrip_of_roundTrip h,
    foldlM_roundTrip, decode_encode_failed⟩
  intro t n ht
  refine ⟨fun f hf => decodeFailure_eq_some_iff hf, decodeFailure_of_no_form ht, ?_⟩
  have hsome : decodeFailure t ≠ none := fun hnone => ht (decodeFailure_eq_none_iff.mp hnone)
  exact Option.isSome_iff_ne_none.mpr hsome

/-- An exception that looks like a failure on purpose comes back as one. -/
example (note : Annotation) : roundTrip (κ := Unit) (.exception (.annotated
    (.app (.ctor Names.tacticFailure) [.lit (.string "no")]) note)) 0 = some (.message "no") := rfl

end Codec

end TacticEngine.Native
