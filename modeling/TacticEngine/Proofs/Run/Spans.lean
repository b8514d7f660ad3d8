/-
# TacticEngine.Proofs.Run.Spans -- leaving spans.

Where a span is left that is to be counted, its count may be too large for a machine word; that is the one way
in which counting spans ends a run (`Act.leaveSpan_run`).  The world that is left then says so, since no span can
be counted in it any more (`jammed_leftSpan`).  Where no span is to be counted it does not happen
(`hasRoom_of_uncounted`).
-/
import TacticEngine.Proofs.Run.Acts

namespace TacticEngine

variable {β σ : Type}

namespace World

variable {w : World β σ} {key : String}

/-- Leaving a span changes what is said about spans, and the log. -/
theorem leftSpan_eq (w : World β σ) (key : String) :
    ∃ log spans jammed, w.leftSpan key = { w with openSpans := w.openSpans.tail, log, spans, jammed } := by
  obtain ⟨supply, registry, debugging, profiling, _ | ⟨_ | _, rest⟩, log, spans, jammed, journal⟩ := w
  · exact ⟨log, spans, jammed, rfl⟩
  · exact ⟨log, spans, jammed, rfl⟩
  · exact ⟨_, _, _, rfl⟩

theorem debugging_leftSpan (key : String) (w : World β σ) :
    (w.leftSpan key).debugging = w.debugging := by
  obtain ⟨log, spans, jammed, hw⟩ := w.leftSpan_eq key
  rw [hw]

/-- A span that cannot be left leaves the counts jammed. -/
theorem jammed_leftSpan (h : w.hasRoom key = false) : (w.leftSpan key).jammed = true := by
  obtain ⟨supply, registry, debugging, profiling, _ | ⟨_ | _, rest⟩, log, spans, jammed, journal⟩ := w
  · cases h
  · cases h
  · show (!World.hasRoom key _) = true
    rw [h]
    rfl

/-! ## Spans that are not counted -/

/-- No span is counted, neither those that are open nor those entered from now on. -/
structure Uncounted (w : World β σ) : Prop where
  /-- Spans entered from now on are not. -/
  profiling : w.profiling = false
  /-- Open ones are not. -/
  openSpans : ∀ counted ∈ w.openSpans, counted = false

/-- The world in which no span is counted. -/
def uncounted (w : World β σ) : World β σ :=
  { w with profiling := false, openSpans := w.openSpans.map fun _ => false }

theorem uncounted_uncounted (w : World β σ) : w.uncounted.Uncounted where
  profiling := rfl
  openSpans := by simp [uncounted]

theorem hasRoom_of_uncounted (h : w.Uncounted) (key : String) : w.hasRoom key = true := by
  unfold hasRoom
  split
  next rest hopen =>
    have hcounted := h.openSpans true (by simp [hopen])
    cases hcounted
  next => rfl

namespace Uncounted

theorem of_eq {w' : World β σ} (h : w.Uncounted) (hprofiling : w'.profiling = w.profiling)
    (hopen : w'.openSpans = w.openSpans) : w'.Uncounted :=
  ⟨hprofiling.trans h.profiling, hopen ▸ h.openSpans⟩

theorem noted (h : w.Uncounted) (e : Event β σ) : (w.noted e).Uncounted := h.of_eq rfl rfl

theorem logged (h : w.Uncounted) (r : LogRecord) : (w.logged r).Uncounted := h.of_eq rfl rfl

theorem drawn (h : w.Uncounted) (next : Nat → Nat) : (w.drawn next).2.Uncounted := h.of_eq rfl rfl

theorem enteredSpan (h : w.Uncounted) : w.enteredSpan.Uncounted where
  profiling := h.profiling
  openSpans counted hmem := by
    rcases List.mem_cons.mp hmem with rfl | hmem
    · exact h.profiling
    · exact h.openSpans counted hmem

theorem leftSpan (h : w.Uncounted) (key : String) : (w.leftSpan key).Uncounted := by
  obtain ⟨log, spans, jammed, hw⟩ := w.leftSpan_eq key
  rw [hw]
  exact ⟨h.profiling, fun counted hmem => h.openSpans counted (List.mem_of_mem_tail hmem)⟩

end Uncounted

end World

/-- What leaving a span does. -/
theorem Act.leaveSpan_run (key : String) (w : World β σ) :
    Act.leaveSpan key w =
      if w.hasRoom key then .ok () (w.leftSpan key) else .error .overflow (w.leftSpan key) := by
  show Act.bounded (if w.hasRoom key then some () else none) (w.leftSpan key) = _
  cases w.hasRoom key <;> rfl

/-- Either the span is left, or the counts are jammed. -/
theorem Act.leaveSpan_cases (key : String) (w : World β σ) :
    Act.leaveSpan key w = .ok () (w.leftSpan key) ∨
      Act.leaveSpan key w = .error .overflow (w.leftSpan key) ∧ (w.leftSpan key).jammed = true := by
  rw [Act.leaveSpan_run]
  cases h : w.hasRoom key with
  | true => exact .inl (if_pos rfl)
  | false => exact .inr ⟨if_neg Bool.false_ne_true, World.jammed_leftSpan h⟩

/-- Where a span is left, what leaving it keeps is kept. -/
theorem Keeps.leaveSpan {keep : World β σ → Prop} {raised : Issue β → Prop} {key : String}
    (h : ∀ w, keep w → keep (w.leftSpan key)) :
    Keeps keep raised (fun _ => True) (Act.leaveSpan key) := by
  intro w hw
  rw [Act.leaveSpan_run]
  cases w.hasRoom key with
  | true => exact ⟨trivial, h w hw⟩
  | false => trivial

theorem Act.leaveSpan_of_uncounted {w : World β σ} (h : w.Uncounted) (key : String) :
    Act.leaveSpan key w = .ok () (w.leftSpan key) := by
  rw [Act.leaveSpan_run, World.hasRoom_of_uncounted h, if_pos rfl]

end TacticEngine
