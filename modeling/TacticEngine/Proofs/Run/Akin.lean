/-
# TacticEngine.Proofs.Run.Akin -- worlds that differ only in what the switches are for.

Two worlds are akin if at most the switches differ, and what they switch on: the log and how spans are
counted.  No request tells them apart, with two exceptions: a text for debuggers that cannot be built ends the
run in which it is wanted, and a span whose count does not fit ends the run in which it is counted.

To speak of the first there is a second way to carry a program out, in which such texts are built whether
they are wanted or not (`Program.building`).  `Tie.akin` compares runs of both kinds, a `Side` says how each of
the two is carried out, and `Side.Alone` where it may end while the other one goes on; otherwise both go the
same way.
-/
import TacticEngine.Proofs.Likeness.Equality
import TacticEngine.Proofs.Run.Outcome
import TacticEngine.Proofs.Run.Program
import TacticEngine.Proofs.Run.Spans

namespace TacticEngine

variable {β σ α : Type}

/-! ## Worlds -/

/-- Nothing but the switches, the log and the counting of spans is different. -/
structure World.Akin (w w' : World β σ) : Prop where
  /-- The same identities are free. -/
  supply : w.supply = w'.supply
  /-- The same steps are registered. -/
  registry : w.registry = w'.registry
  /-- The same things happened. -/
  journal : w.journal = w'.journal
  /-- As many spans were entered and not yet left. -/
  openSpans : w.openSpans.length = w'.openSpans.length

/-- The world with debugging output turned off, and in which no span is counted. -/
def World.quiet (w : World β σ) : World β σ := { w.uncounted with debugging := false }

theorem World.uncounted_quiet (w : World β σ) : w.quiet.Uncounted :=
  w.uncounted_uncounted.of_eq rfl rfl

/-- What a text for debuggers makes of a world: it is logged if that is wanted. -/
def World.shown (level : LogLevel) (text : String) (w : World β σ) : World β σ :=
  if w.debugging then w.logged ⟨level, text⟩ else w

/-- A text that can be built is shown. -/
theorem Act.debug_of_eq_some (level : LogLevel) {text? : Unit → Option String} {text : String}
    (htext : text? () = some text) (w : World β σ) :
    Act.debug level text? w = .ok () (w.shown level text) := by
  rw [Act.debug_run, htext, World.shown]
  split <;> rfl

/-- Registering a step changes the registry and the log only. -/
theorem World.registered_eq (w : World β σ) (s : Step σ) :
    ∃ log, w.registered s = { w with registry := s :: w.registry, log } := by
  unfold registered
  dsimp only
  split
  · exact ⟨_, rfl⟩
  · exact ⟨_, rfl⟩

namespace World.Akin

variable {w w' w'' : World β σ}

theorem refl (w : World β σ) : w.Akin w := ⟨rfl, rfl, rfl, rfl⟩

theorem symm (h : w.Akin w') : w'.Akin w :=
  ⟨h.supply.symm, h.registry.symm, h.journal.symm, h.openSpans.symm⟩

theorem trans (h : w.Akin w') (h' : w'.Akin w'') : w.Akin w'' where
  supply := h.supply.trans h'.supply
  registry := h.registry.trans h'.registry
  journal := h.journal.trans h'.journal
  openSpans := h.openSpans.trans h'.openSpans

theorem uncounted (w : World β σ) : w.Akin w.uncounted :=
  ⟨rfl, rfl, rfl, (List.length_map _).symm⟩

theorem quiet (w : World β σ) : w.Akin w.quiet :=
  ⟨rfl, rfl, rfl, (List.length_map _).symm⟩

theorem drawn (h : w.Akin w') (next : Nat → Nat) : (w.drawn next).2.Akin (w'.drawn next).2 :=
  ⟨congrArg next h.supply, h.registry, h.journal, h.openSpans⟩

theorem noted (h : w.Akin w') (e : Event β σ) : (w.noted e).Akin (w'.noted e) :=
  ⟨h.supply, h.registry, congrArg (e :: ·) h.journal, h.openSpans⟩

theorem logged (h : w.Akin w') (r r' : LogRecord) : (w.logged r).Akin (w'.logged r') :=
  ⟨h.supply, h.registry, h.journal, h.openSpans⟩

theorem registered (h : w.Akin w') (s : Step σ) : (w.registered s).Akin (w'.registered s) := by
  obtain ⟨log, hw⟩ := w.registered_eq s
  obtain ⟨log', hw'⟩ := w'.registered_eq s
  rw [hw, hw']
  exact ⟨h.supply, congrArg (s :: ·) h.registry, h.journal, h.openSpans⟩

theorem enteredSpan (h : w.Akin w') : w.enteredSpan.Akin w'.enteredSpan :=
  ⟨h.supply, h.registry, h.journal, congrArg (· + 1) h.openSpans⟩

theorem leftSpan (h : w.Akin w') (key : String) : (w.leftSpan key).Akin (w'.leftSpan key) := by
  obtain ⟨log, spans, jammed, hw⟩ := w.leftSpan_eq key
  obtain ⟨log', spans', jammed', hw'⟩ := w'.leftSpan_eq key
  have hlength : w.openSpans.tail.length = w'.openSpans.tail.length := by
    rw [List.length_tail, List.length_tail, h.openSpans]
  rw [hw, hw']
  exact ⟨h.supply, h.registry, h.journal, hlength⟩

/-- It may be shown in both worlds, in one of them or in neither. -/
theorem shown (h : w.Akin w') (level : LogLevel) (text : String) :
    (w.shown level text).Akin (w'.shown level text) := by
  have hself (v : World β σ) : v.Akin (v.shown level text) := by
    unfold World.shown
    split
    · exact ⟨rfl, rfl, rfl, rfl⟩
    · exact .refl v
  exact (hself w).symm.trans (h.trans (hself w'))

end World.Akin

/-- Results of two runs: the same value, or broken off for the same reason, in akin worlds. -/
inductive EndsAkin : EStateM.Result (Halt β) (World β σ) α → EStateM.Result (Halt β) (World β σ) α →
    Prop where
  /-- Both have the value. -/
  | ok {a : α} {w w' : World β σ} : w.Akin w' → EndsAkin (.ok a w) (.ok a w')
  /-- Both broke off. -/
  | error {e : Halt β} {w w' : World β σ} : w.Akin w' → EndsAkin (.error e w) (.error e w')

namespace EndsAkin

variable {res res' res'' : EStateM.Result (Halt β) (World β σ) α}

theorem outcome_eq (h : EndsAkin res res') : outcome? res = outcome? res' := by
  cases h with
  | ok => rfl
  | @error e _ _ => cases e <;> rfl

theorem ne_exhausted (h : EndsAkin res res') (hres : ∀ w, res ≠ .error .exhausted w) (w : World β σ) :
    res' ≠ .error .exhausted w := by
  rintro rfl
  cases h with
  | error => exact hres _ rfl

theorem symm (h : EndsAkin res res') : EndsAkin res' res := by
  cases h with
  | ok h => exact .ok h.symm
  | error h => exact .error h.symm

theorem trans (h : EndsAkin res res') (h' : EndsAkin res' res'') : EndsAkin res res'' := by
  cases h with
  | ok h =>
      cases h' with
      | ok h' => exact .ok (h.trans h')
  | error h =>
      cases h' with
      | error h' => exact .error (h.trans h')

end EndsAkin

/-! ## Building all texts -/

/-- Whatever text the request comes with can be built. -/
def Request.showable : Request β σ → Bool
  | .debug text? => (text? ()).isSome
  | _ => true

/-- The program; if `all` texts for debuggers are to be built, then one that cannot be built is too much for
the machine even if debugging output is not wanted. -/
def Program.building (all : Bool) : Program β σ α → Program β σ α
  | .pure a => .pure a
  | .fail e => .fail e
  | .overflow => .overflow
  | .ask r k => if all && !r.showable then .overflow else .ask r fun a => (k a).building all

namespace Program

@[simp]
theorem building_false (p : Program β σ α) : p.building false = p := by
  induction p with
  | pure | fail | overflow => rfl
  | ask r k ih => simp only [building, Bool.false_and, Bool.false_eq_true, if_false, ih]

section

variable (all : Bool) {reduce : Reduction β σ → Act β σ (Term β σ)} {text? : Unit → Option String}
  {k : (Request.debug (β := β) (σ := σ) text?).Answer → Program β σ α} (w : World β σ)

theorem run_building_of_showable {r : Request β σ} {k : r.Answer → Program β σ α}
    (hr : r.showable = true) : ((ask r k).building all).run reduce =
      answer reduce r >>= fun a => ((k a).building all).run reduce := by
  simp only [building, hr, Bool.not_true, Bool.and_false, Bool.false_eq_true, if_false]
  rfl

/-- A text that can be built is shown. -/
theorem run_building_debug_some {text : String} (htext : text? () = some text) :
    ((ask (.debug text?) k).building all).run reduce w =
      ((k ()).building all).run reduce (w.shown .debug text) := by
  have hshowable : (Request.debug (β := β) (σ := σ) text?).showable = true := by
    simp only [Request.showable, htext, Option.isSome_some]
  rw [run_building_of_showable all hshowable]
  exact run_bind_ok (Act.debug_of_eq_some .debug htext w)

/-- One that cannot be built ends the run in which it is to be built. -/
theorem run_building_debug_none (htext : text? () = none) :
    ((ask (.debug text?) k).building all).run reduce w =
      if all || w.debugging then .error .overflow w else ((k ()).building all).run reduce w := by
  have hshowable : (Request.debug (β := β) (σ := σ) text?).showable = false := by
    simp only [Request.showable, htext, Option.isSome_none]
  cases all with
  | true =>
      simp only [building, hshowable]
      rfl
  | false =>
      have hanswer : answer reduce (.debug text?) w =
          if w.debugging then .error .overflow w else .ok () w := by
        rw [answer, Act.debug_run, htext]
        rfl
      have hrun : ((ask (.debug text?) k).building false).run reduce w =
          (answer reduce (.debug text?) >>= fun a => ((k a).building false).run reduce) w := by
        simp only [building_false]
        rfl
      cases hw : w.debugging with
      | true =>
          rw [hw] at hanswer
          exact hrun.trans (run_bind_error hanswer)
      | false =>
          rw [hw] at hanswer
          exact hrun.trans (run_bind_ok hanswer)

end

end Program

/-! ## Runs in akin worlds -/

/-- How one of two runs is carried out. -/
structure Side where
  /-- Texts for debuggers are built whether they are wanted or not. -/
  all : Bool
  /-- They are built, for whatever reason. -/
  builds : Bool
  /-- There may be spans that are counted. -/
  counts : Prop

/-- In this world the run is carried out so. -/
structure Side.Of (s : Side) (w : World β σ) : Prop where
  /-- Texts are built if all are or if they are wanted. -/
  builds : (s.all || w.debugging) = s.builds
  /-- Spans are counted only where they may be. -/
  counts : ¬ s.counts → w.Uncounted

/-- How a run from this world is carried out in which all texts are built, or not. -/
def World.side (all : Bool) (w : World β σ) : Side where
  all
  builds := all || w.debugging
  counts := ¬ w.Uncounted

theorem World.of_side (all : Bool) (w : World β σ) : (w.side all).Of w := ⟨rfl, Classical.not_not.mp⟩

/-- An overflow in this world ends the run on the side `s` and need not end the one on the side `s'`: only the
former builds texts, or the counts are jammed. -/
def Side.Alone (s s' : Side) (w : World β σ) : Prop :=
  s.builds = true ∧ s'.builds = false ∨ s.counts ∧ w.jammed = true

namespace Side.Of

variable {s : Side} {w w₁ : World β σ}

/-- Switches are not thrown. -/
theorem of_eq (h : s.Of w) (hdebugging : w₁.debugging = w.debugging) (hprofiling : w₁.profiling = w.profiling)
    (hopen : w₁.openSpans = w.openSpans) : s.Of w₁ where
  builds := by rw [hdebugging, h.builds]
  counts hs := (h.counts hs).of_eq hprofiling hopen

theorem registered (h : s.Of w) (step : Step σ) : s.Of (w.registered step) := by
  obtain ⟨log, hw⟩ := w.registered_eq step
  rw [hw]
  exact h.of_eq rfl rfl rfl

theorem shown (h : s.Of w) (level : LogLevel) (text : String) : s.Of (w.shown level text) := by
  unfold World.shown
  split
  · exact h.of_eq rfl rfl rfl
  · exact h

theorem enteredSpan (h : s.Of w) : s.Of w.enteredSpan := ⟨h.builds, fun hs => (h.counts hs).enteredSpan⟩

theorem leftSpan (h : s.Of w) (key : String) : s.Of (w.leftSpan key) where
  builds := by rw [World.debugging_leftSpan, h.builds]
  counts hs := (h.counts hs).leftSpan key

/-- A span is left, unless it is counted and the count does not fit. -/
theorem leaveSpan (h : s.Of w) (s' : Side) (key : String) :
    Act.leaveSpan key w = .ok () (w.leftSpan key) ∨
      Act.leaveSpan key w = .error .overflow (w.leftSpan key) ∧ s.Alone s' (w.leftSpan key) := by
  by_cases hs : s.counts
  · exact (Act.leaveSpan_cases key w).imp id fun ⟨hw, hjammed⟩ => ⟨hw, .inr ⟨hs, hjammed⟩⟩
  · exact .inl (Act.leaveSpan_of_uncounted (h.counts hs) key)

end Side.Of

/-- Runs in akin worlds, carried out in one way on the left and in another one on the right. -/
def Tie.akin (s s' : Side) : Tie (Halt β) (World β σ) (Halt β) (World β σ) where
  state w w' := w.Akin w' ∧ s.Of w ∧ s'.Of w'
  halt := Eq
  mute e w := e = .exhausted ∨ e = .overflow ∧ s.Alone s' w
  escape e w := e = .overflow ∧ s'.Alone s w

namespace Tie

variable {s s' : Side} {w w' : World β σ}

theorem akin_state_shown (hw : (akin s s').state w w') (level : LogLevel) (text : String) :
    (akin s s').state (w.shown level text) (w'.shown level text) :=
  ⟨hw.1.shown level text, hw.2.1.shown level text, hw.2.2.shown level text⟩

theorem akin_state_noted (hw : (akin s s').state w w') (e : Event β σ) :
    (akin s s').state (w.noted e) (w'.noted e) :=
  ⟨hw.1.noted e, hw.2.1.of_eq rfl rfl rfl, hw.2.2.of_eq rfl rfl rfl⟩

theorem fair_akin : (akin (β := β) (σ := σ) s s').Fair (Likeness.equal β σ) where
  exhausted _ := .inl rfl
  overflow := .inr rfl
  fired := by
    intro w w' step step' ts ts' hw hs hts
    obtain rfl : step = step' := hs
    obtain rfl := hts.eq Likeness.equal_strict
    exact akin_state_noted hw _
  debug level text := by
    refine .const fun w w' hw => ?_
    rw [Act.debug_of_eq_some level rfl, Act.debug_of_eq_some level rfl]
    exact .ok trivial (akin_state_shown hw level text)

/-- Results that match are akin, unless the run on the right ended alone. -/
theorem Matches.akin {res res' : EStateM.Result (Halt β) (World β σ) α}
    (h : (Tie.akin s s').Matches Eq res res') :
    (∃ w, res' = .error .overflow w ∧ s'.Alone s w) ∨ EndsAkin res res' := by
  cases h with
  | ok ha hw =>
      subst ha
      exact .inr (.ok hw.1)
  | @error e e' _ _ he hw =>
      obtain rfl : e = e' := he
      exact .inr (.error hw.1)
  | escape he =>
      obtain ⟨rfl, halone⟩ := he
      exact .inl ⟨_, rfl, halone⟩

end Tie

namespace Program

variable {s s' : Side} {reduce : Reduction β σ → Act β σ (Term β σ)}
  {reduce' : Nat → Reduction β σ → Act β σ (Term β σ)}

theorem answer_reduce (reduce : Reduction β σ → Act β σ (Term β σ)) (r : Reduction β σ) :
    answer reduce (.reduce r) = fun w => caught (reduce r w) := by
  funext w
  simp only [answer]
  cases reduce r w with
  | ok t w' => rfl
  | error e w' => cases e <;> rfl

/-- A span is left on both sides, unless its count does not fit on one of them. -/
theorem follows_leaveSpan (key : String) :
    (Tie.akin (β := β) (σ := σ) s s').Follows Eq (Act.leaveSpan key) fun _ _ => Act.leaveSpan key := by
  intro w w' hw
  -- A count that does not fit on the left mutes the comparison; one that does not on the right escapes it.
  rcases hw.2.1.leaveSpan s' key with h | ⟨h, halone⟩
  · refine .inr ⟨_, .const _ w', ?_⟩
    rcases hw.2.2.leaveSpan s key with h' | ⟨h', halone'⟩
    · rw [h, h']
      exact .ok rfl ⟨hw.1.leftSpan key, hw.2.1.leftSpan key, hw.2.2.leftSpan key⟩
    · rw [h']
      exact .escape ⟨rfl, halone'⟩
  · exact .inl ⟨.overflow, _, h, .inr ⟨rfl, halone⟩⟩

/-- Akin worlds give the same answers. -/
theorem follows_answer
    (hreduce : ∀ r, (Tie.akin s s').Follows Eq (reduce r) fun l _ => reduce' l r)
    {r : Request β σ} (hr : ∀ text?, r ≠ .debug text?) :
    (Tie.akin s s').Follows Eq (answer reduce r) fun l _ => answer (reduce' l) r := by
  cases r with
  | draw next =>
      refine .const fun w w' hw => ?_
      have hfirst : w.supply = w'.supply := hw.1.supply
      exact .ok hfirst ⟨hw.1.drawn next, hw.2.1.of_eq rfl rfl rfl, hw.2.2.of_eq rfl rfl rfl⟩
  | registry => exact .const fun w w' hw => .ok hw.1.registry hw
  | register step =>
      exact .const fun w w' hw => .ok rfl ⟨hw.1.registered step, hw.2.1.registered step, hw.2.2.registered step⟩
  | note e => exact .const fun w w' hw => .ok rfl (Tie.akin_state_noted hw e)
  | log r =>
      exact .const fun w w' hw => .ok rfl ⟨hw.1.logged r r, hw.2.1.of_eq rfl rfl rfl, hw.2.2.of_eq rfl rfl rfl⟩
  | debug text? => exact absurd rfl (hr text?)
  | enterSpan =>
      exact .const fun w w' hw => .ok rfl ⟨hw.1.enteredSpan, hw.2.1.enteredSpan, hw.2.2.enteredSpan⟩
  | leaveSpan key => exact follows_leaveSpan key
  | reduce r =>
      simp only [answer_reduce]
      refine (hreduce r).through caught caught (fun _ _ => id) (fun e w he => ?_) fun x x' hx => ?_
      · refine ⟨e, w, ?_, he⟩
        rcases he with rfl | ⟨rfl, -⟩ <;> rfl
      · cases hx with
        | ok ht hw =>
            subst ht
            exact .ok rfl hw
        | @error e e' _ _ he hw =>
            obtain rfl : e = e' := he
            cases e with
            | issue e => exact .ok rfl hw
            | overflow => exact .error rfl hw
            | exhausted => exact .error rfl hw
        | escape he =>
            obtain ⟨rfl, halone⟩ := he
            exact .escape ⟨rfl, halone⟩

/-- A text for debuggers: either it is shown or not, or the runs that build it end there. -/
theorem follows_building_debug {text? : Unit → Option String}
    {k : (Request.debug (β := β) (σ := σ) text?).Answer → Program β σ α}
    (hk : (Tie.akin s s').Follows Eq (((k ()).building s.all).run reduce)
      fun l _ => ((k ()).building s'.all).run (reduce' l)) :
    (Tie.akin s s').Follows Eq (((ask (.debug text?) k).building s.all).run reduce)
      fun l _ => ((ask (.debug text?) k).building s'.all).run (reduce' l) := by
  intro w w' hw
  cases htext : text? () with
  | some text =>
      rw [run_building_debug_some s.all w htext]
      refine (hk _ _ (Tie.akin_state_shown hw .debug text)).imp id ?_
      rintro ⟨res, ⟨N, hN⟩, hmatch⟩
      refine ⟨res, ⟨N, fun l hl n hn => ?_⟩, hmatch⟩
      exact (run_building_debug_some s'.all w' htext).trans (hN l hl n hn)
  | none =>
      rw [run_building_debug_none s.all w htext, hw.2.1.builds]
      have hright (l : Nat) : ((ask (.debug text?) k).building s'.all).run (reduce' l) w' =
          if s'.builds then .error .overflow w' else ((k ()).building s'.all).run (reduce' l) w' := by
        rw [← hw.2.2.builds]
        exact run_building_debug_none s'.all w' htext
      -- Whoever builds the text ends here; if only the one on the left or right does, no more is said.
      cases hb : s.builds with
      | true =>
          cases hb' : s'.builds with
          | true =>
              simp only [hb', if_true] at hright
              exact .inr ⟨_, ⟨0, fun l _ _ _ => hright l⟩, .error rfl hw⟩
          | false => exact .inl ⟨.overflow, w, rfl, .inr ⟨rfl, .inl ⟨hb, hb'⟩⟩⟩
      | false =>
          cases hb' : s'.builds with
          | true =>
              simp only [hb', if_true] at hright
              exact .inr ⟨_, ⟨0, fun l _ _ _ => hright l⟩, .escape ⟨rfl, .inl ⟨hb', hb⟩⟩⟩
          | false =>
              simp only [hb', Bool.false_eq_true, if_false] at hright
              refine (hk w w' hw).imp id ?_
              rintro ⟨res, ⟨N, hN⟩, hmatch⟩
              exact ⟨res, ⟨N, fun l hl n hn => (hright l).trans (hN l hl n hn)⟩, hmatch⟩

/-- A program goes the same way in akin worlds, if the reductions do that it asks for. -/
theorem follows_building
    (hreduce : ∀ r, (Tie.akin s s').Follows Eq (reduce r) fun l _ => reduce' l r)
    (p : Program β σ α) : (Tie.akin s s').Follows Eq ((p.building s.all).run reduce)
      fun l _ => (p.building s'.all).run (reduce' l) := by
  induction p with
  | pure a => exact .pure rfl
  | fail e => exact .throw rfl
  | overflow => exact .throw rfl
  | ask r k ih =>
      by_cases hr : ∃ text?, r = .debug text?
      · obtain ⟨text?, rfl⟩ := hr
        exact follows_building_debug (ih ())
      · have hnot : ∀ text?, r ≠ .debug text? := fun text? h => hr ⟨text?, h⟩
        have hshowable : r.showable = true := by
          cases r with
          | debug text? => exact absurd rfl (hnot text?)
          | _ => rfl
        simp only [run_building_of_showable _ hshowable]
        refine (follows_answer hreduce hnot).bind ?_
        rintro a _ rfl
        exact ih a

end Program

end TacticEngine
