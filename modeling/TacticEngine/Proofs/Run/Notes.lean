/-
# TacticEngine.Proofs.Run.Notes -- what happened between two moments of a run.

`World.Notes` says which events were put into the journal on the way from one world to another, when
nothing else happened that a program could find out later: the registry and the switches are as they
were.  What the log says, how spans are counted and which identities are free is left open.

`Spanned` says what a span makes of the end of the program in it: nothing, unless its count does not fit.
-/
import TacticEngine.Proofs.Run.Program
import TacticEngine.Proofs.Run.Spans

namespace TacticEngine

variable {β σ α γ : Type}

/-! ## Worlds -/

/-- On the way from the one world to the other exactly these events were journalled, in this order, and
no step was registered and no switch thrown. -/
structure World.Notes (w : World β σ) (es : List (Event β σ)) (w' : World β σ) : Prop where
  /-- The events are in the journal. -/
  journal : w'.journal = es.reverse ++ w.journal
  /-- The same steps are registered. -/
  registry : w'.registry = w.registry
  /-- Debugging output is wanted if it was. -/
  debugging : w'.debugging = w.debugging
  /-- Spans are counted if they were. -/
  profiling : w'.profiling = w.profiling
  /-- If none was, those that are open are not either. -/
  uncounted : w.Uncounted → w'.Uncounted

/-- A text can be built if it will be asked for. -/
def World.Shows (w : World β σ) (text? : Option String) : Prop :=
  w.debugging = true → text?.isSome

namespace World.Notes

variable {w w' w'' : World β σ} {es fs : List (Event β σ)}

theorem refl (w : World β σ) : w.Notes [] w := ⟨rfl, rfl, rfl, rfl, id⟩

theorem trans (h : w.Notes es w') (h' : w'.Notes fs w'') : w.Notes (es ++ fs) w'' where
  journal := by rw [h'.journal, h.journal, List.reverse_append, List.append_assoc]
  registry := h'.registry.trans h.registry
  debugging := h'.debugging.trans h.debugging
  profiling := h'.profiling.trans h.profiling
  uncounted hw := h'.uncounted (h.uncounted hw)

/-- A stretch without events may come first. -/
theorem trans_left (h : w.Notes [] w') (h' : w'.Notes es w'') : w.Notes es w'' := h.trans h'

/-- A stretch without events may come last. -/
theorem trans_right (h : w.Notes es w') (h' : w'.Notes [] w'') : w.Notes es w'' := by
  simpa using h.trans h'

theorem noted (e : Event β σ) (w : World β σ) : w.Notes [e] (w.noted e) :=
  ⟨rfl, rfl, rfl, rfl, (·.noted e)⟩

theorem logged (r : LogRecord) (w : World β σ) : w.Notes [] (w.logged r) :=
  ⟨rfl, rfl, rfl, rfl, (·.logged r)⟩

theorem drawn (next : Nat → Nat) (w : World β σ) : w.Notes [] (w.drawn next).2 :=
  ⟨rfl, rfl, rfl, rfl, (·.drawn next)⟩

theorem enteredSpan (w : World β σ) : w.Notes [] w.enteredSpan :=
  ⟨rfl, rfl, rfl, rfl, World.Uncounted.enteredSpan⟩

theorem leftSpan (key : String) (w : World β σ) : w.Notes [] (w.leftSpan key) := by
  obtain ⟨log, spans, jammed, hw⟩ := w.leftSpan_eq key
  have huncounted (h : w.Uncounted) : (w.leftSpan key).Uncounted := h.leftSpan key
  rw [hw] at huncounted ⊢
  exact ⟨rfl, rfl, rfl, rfl, huncounted⟩

end World.Notes

/-- The run was not halted: it came to its end in this world, with a value or an issue. -/
inductive Returned : EStateM.Result (Halt β) (World β σ) α → World β σ → Prop where
  /-- With a value. -/
  | value {a : α} {w : World β σ} : Returned (.ok a w) w
  /-- With an issue. -/
  | issue {e : Issue β} {w : World β σ} : Returned (.error (.issue e) w) w

theorem Returned.of_ok {res : EStateM.Result (Halt β) (World β σ) α} {a : α} {w : World β σ}
    (h : res = .ok a w) : Returned res w := h ▸ .value

theorem Returned.of_issue {res : EStateM.Result (Halt β) (World β σ) α} {e : Issue β} {w : World β σ}
    (h : res = .error (.issue e) w) : Returned res w := h ▸ .issue

/-- A span ends with the second result if what is in it ends with the first one.  That is the same one, and
nothing has been journalled since, unless the span is to be counted under the key and cannot be. -/
inductive Spanned (key : String) : EStateM.Result (Halt β) (World β σ) α →
    EStateM.Result (Halt β) (World β σ) α → Prop where
  /-- With the value. -/
  | value {a : α} {w w' : World β σ} : w.Notes [] w' → Spanned key (.ok a w) (.ok a w')
  /-- With the issue. -/
  | issue {e : Issue β} {w w' : World β σ} : w.Notes [] w' →
      Spanned key (.error (.issue e) w) (.error (.issue e) w')
  /-- A span in which the run is halted is not left. -/
  | halted {e : Halt β} {w : World β σ} : Spanned key (.error e w) (.error e w)
  /-- It is to be counted and cannot be. -/
  | uncounted {res : EStateM.Result (Halt β) (World β σ) α} {w : World β σ} : Returned res w →
      w.hasRoom key = false → Spanned key res (.error .overflow (w.leftSpan key))

/-! ## Programs -/

namespace Program

variable (reduce : Reduction β σ → Act β σ (Term β σ)) {w w' : World β σ}

variable {reduce} in
theorem run_bind_of_ok {p : Program β σ α} {f : α → Program β σ γ} {a : α}
    (h : p.run reduce w = .ok a w') : (p >>= f).run reduce w = (f a).run reduce w' := by
  show (p.bind f).run reduce w = _
  rw [run_bind, run_bind_ok h]

variable {reduce} in
theorem run_bind_of_error {p : Program β σ α} {f : α → Program β σ γ} {e : Halt β}
    (h : p.run reduce w = .error e w') : (p >>= f).run reduce w = .error e w' := by
  show (p.bind f).run reduce w = _
  rw [run_bind, run_bind_error h]

/-- The end of a program in a span of the given key, after a return. -/
theorem leaveSpan_then (key : String) (r : Except (Issue β) α) (w : World β σ) :
    (Act.leaveSpan key >>= fun _ => (ofExcept r).run reduce) w =
      if w.hasRoom key then (ofExcept r).run reduce (w.leftSpan key)
      else .error .overflow (w.leftSpan key) := by
  have hleave := Act.leaveSpan_run key w
  cases hroom : w.hasRoom key with
  | true =>
      rw [hroom] at hleave
      exact run_bind_ok hleave
  | false =>
      rw [hroom] at hleave
      exact run_bind_error hleave

/-- A span has no part in how the program in it ends, as long as it can be counted. -/
theorem spanned_run (m : Option String) (name : String) (p : Program β σ α) (w : World β σ) :
    Spanned (spanKey m name) (p.run reduce w.enteredSpan) ((p.span m name).run reduce w) := by
  rw [run_span]
  cases p.run reduce w.enteredSpan with
  | ok a w' =>
      show Spanned _ _ ((Act.leaveSpan _ >>= fun _ => (ofExcept (.ok a)).run reduce) w')
      rw [leaveSpan_then]
      cases hroom : w'.hasRoom (spanKey m name) with
      | true => exact .value (.leftSpan _ w')
      | false => exact .uncounted .value hroom
  | error e w' =>
      cases e with
      | issue e =>
          show Spanned _ _ ((Act.leaveSpan _ >>= fun _ => (ofExcept (.error e)).run reduce) w')
          rw [leaveSpan_then]
          cases hroom : w'.hasRoom (spanKey m name) with
          | true => exact .issue (.leftSpan _ w')
          | false => exact .uncounted .issue hroom
      | _ => exact .halted

variable {reduce} in
theorem run_span_of_ok (m : Option String) (name : String) {p : Program β σ α} {a : α}
    (h : p.run reduce w.enteredSpan = .ok a w') :
    (∃ w'', w'.Notes [] w'' ∧ (p.span m name).run reduce w = .ok a w'') ∨
      w'.hasRoom (spanKey m name) = false ∧
        (p.span m name).run reduce w = .error .overflow (w'.leftSpan (spanKey m name)) := by
  have hspan := spanned_run reduce m name p w
  rw [h] at hspan
  generalize (p.span m name).run reduce w = res at hspan ⊢
  cases hspan with
  | value hw => exact .inl ⟨_, hw, rfl⟩
  | uncounted hreturned hroom =>
      cases hreturned
      exact .inr ⟨hroom, rfl⟩

variable {reduce} in
theorem run_span_of_error (m : Option String) (name : String) {p : Program β σ α} {e : Halt β}
    (h : p.run reduce w.enteredSpan = .error e w') :
    (∃ w'', w'.Notes [] w'' ∧ (p.span m name).run reduce w = .error e w'') ∨
      (∃ issue, e = .issue issue) ∧ w'.hasRoom (spanKey m name) = false ∧
        (p.span m name).run reduce w = .error .overflow (w'.leftSpan (spanKey m name)) := by
  have hspan := spanned_run reduce m name p w
  rw [h] at hspan
  generalize (p.span m name).run reduce w = res at hspan ⊢
  cases hspan with
  | issue hw => exact .inl ⟨_, hw, rfl⟩
  | halted => exact .inl ⟨_, .refl _, rfl⟩
  | uncounted hreturned hroom =>
      cases hreturned
      exact .inr ⟨⟨_, rfl⟩, hroom, rfl⟩

variable {reduce} in
/-- A span in which the run is halted is not left. -/
theorem run_span_of_overflow (m : Option String) (name : String) {p : Program β σ α}
    (h : p.run reduce w.enteredSpan = .error .overflow w') :
    (p.span m name).run reduce w = .error .overflow w' := by
  rw [run_span, h]
  rfl

/-- A text for debuggers that can be built has no consequences. -/
theorem run_debug_of_shows (text? : Unit → Option String) (h : w.Shows (text? ())) :
    ∃ w', w.Notes [] w' ∧ (debug text? : Program β σ Unit).run reduce w = .ok () w' := by
  have hrun : (debug text? : Program β σ Unit).run reduce w =
      (Act.debug .debug text? >>= fun a => Pure.pure a) w := rfl
  have hdebug := Act.debug_run .debug text? w
  cases hw : w.debugging with
  | false =>
      rw [hw, if_neg Bool.false_ne_true] at hdebug
      exact ⟨w, .refl w, hrun.trans (run_bind_ok hdebug)⟩
  | true =>
      obtain ⟨text, htext⟩ := Option.isSome_iff_exists.mp (h hw)
      rw [hw, if_pos rfl, htext] at hdebug
      exact ⟨_, .logged _ w, hrun.trans (run_bind_ok hdebug)⟩

/-- A text that is asked for and cannot be built is too much for the machine. -/
theorem run_debug_of_not_shows {text? : Unit → Option String} (h : ¬ w.Shows (text? ())) :
    (debug text? : Program β σ Unit).run reduce w = .error .overflow w := by
  obtain ⟨hw, htext⟩ : w.debugging = true ∧ text? () = none := by
    simpa [World.Shows] using h
  have hrun : (debug text? : Program β σ Unit).run reduce w =
      (Act.debug .debug text? >>= fun a => Pure.pure a) w := rfl
  have hdebug := Act.debug_run .debug text? w
  rw [hw, if_pos rfl, htext] at hdebug
  exact hrun.trans (run_bind_error hdebug)

end Program

end TacticEngine
