/-
# TacticEngine.Proofs.Native.Runs -- what a run ends with, and what becomes of a metaprogram.

A run that has a result with some amount of fuel has it with any larger amount, so it makes sense to say
what it `Ends` with.  No run throws a switch.

An engine that calls a metaprogram writes the arguments and the state, has one application reduced, and
reads the normal form.  `Engine.reduction` is that application and `callWorld` the world in which its
reduction starts; so what is known about reductions says what a call ends with.
-/
import TacticEngine.Proofs.Native.Persistence
import TacticEngine.Proofs.Run.Akin
import TacticEngine.Proofs.Run.Notes
import TacticEngine.Proofs.Run.Outcome

namespace TacticEngine.Native

open Codec (Vals encodeAll embed)

variable {κ α : Type}

/-! ## What no run changes -/

/-- Nothing that a program may ask for breaks the property. -/
structure Steady (keep : World κ → Prop) : Prop where
  /-- Identities may be given out. -/
  drawn : ∀ next w, keep w → keep (w.drawn next).2
  /-- Steps may be registered. -/
  registered : ∀ s w, keep w → keep (w.registered s)
  /-- Events may be journalled. -/
  noted : ∀ e w, keep w → keep (w.noted e)
  /-- Records may be logged. -/
  logged : ∀ r w, keep w → keep (w.logged r)
  /-- Spans may be entered. -/
  enteredSpan : ∀ w, keep w → keep w.enteredSpan
  /-- Spans may be left. -/
  leftSpan : ∀ key w, keep w → keep (w.leftSpan key)

namespace Steady

variable {keep : World κ → Prop}

theorem keeps_debug (h : Steady keep) (level : LogLevel) (text? : Unit → Option String) :
    Keeps keep (fun _ => True) (fun _ => True) (Act.debug level text?) := by
  intro w hw
  rw [Act.debug_run]
  cases w.debugging with
  | false => exact ⟨trivial, hw⟩
  | true =>
      cases text? () with
      | none => trivial
      | some text => exact ⟨trivial, h.logged _ w hw⟩

theorem keeps_run (h : Steady keep) {reduce : Reduction (Content κ) (Body κ) → Act κ (Term κ)}
    (hreduce : ∀ r, Keeps keep (fun _ => True) (fun _ => True) (reduce r)) (p : Program κ α) :
    Keeps keep (fun _ => True) (fun _ => True) (p.run reduce) := by
  induction p with
  | pure a => exact .pure trivial
  | fail e => exact .fail trivial
  | overflow => exact fun _ _ => trivial
  | ask r k ih =>
      refine .bind (V := fun _ => True) ?_ fun a _ => ih a
      cases r with
      | draw next => exact fun w hw => ⟨trivial, h.drawn next w hw⟩
      | registry => exact fun w hw => ⟨trivial, hw⟩
      | register s => exact fun w hw => ⟨trivial, h.registered s w hw⟩
      | note e => exact fun w hw => ⟨trivial, h.noted e w hw⟩
      | log r => exact fun w hw => ⟨trivial, h.logged r w hw⟩
      | debug text? => exact h.keeps_debug .debug text?
      | enterSpan => exact fun w hw => ⟨trivial, h.enteredSpan w hw⟩
      | leaveSpan key => exact .leaveSpan (h.leftSpan key)
      | reduce r =>
          intro w hw
          have hr := hreduce r w hw
          simp only [Program.answer]
          generalize reduce r w = res at hr ⊢
          cases res with
          | ok t w' => exact ⟨trivial, hr.2⟩
          | error e w' =>
              cases e with
              | issue e => exact ⟨trivial, hr.2⟩
              | _ => trivial

theorem keeps_interpretDirect (h : Steady keep) {host : Host κ} {body : Body κ}
    {f : List (Value κ) → Act κ (Option (Value κ))} (hf : interpretDirect host body = some f)
    (vs : List (Value κ)) : Keeps keep (fun _ => True) (fun _ => True) (f vs) := by
  cases body with
  | rule label =>
      obtain ⟨g, -, rfl⟩ := Option.map_eq_some_iff.mp hf
      exact fun w hw => ⟨trivial, h.noted _ w hw⟩
  | total => cases hf
  | tactic => cases hf

theorem fair (h : Steady keep) :
    (Tie.keeping keep fun _ => True).Fair (Likeness.equal (Content κ) (Body κ)) where
  exhausted _ := nofun
  overflow := .inl fun _ => nofun
  fired := by
    rintro w _ s _ ts ts' ⟨rfl, hw⟩ rfl hts
    rw [hts.eq Likeness.equal_strict]
    exact ⟨rfl, h.noted _ w hw⟩
  debug level text :=
    ((Lasts.const _).follows (h.keeps_debug level fun _ => some text)).imp fun _ _ _ => trivial

theorem setting_like (h : Steady keep) {host : Host κ} {n : Nat} {steps : StepTable (Body κ)}
    {env : Env κ} (hinterp : ∀ body env ts,
      Keeps keep (fun _ => True) (fun _ => True) (interp host n body env ts)) :
    Machine.Setting.Like (Tie.keeping keep fun _ => True) (Likeness.equal _ _) (fun _ => True)
      (machineSetting host (interp host n) steps env)
      (machineSetting host (interp host n) steps env) (interp host) := by
  refine machineSetting_like (fun body f hf vs => ?_) (fun _ => ⟨rfl, _, rfl, trivial⟩) fun body ts => ?_
  · exact ((Lasts.const (f vs)).follows (h.keeps_interpretDirect hf vs)).imp fun _ _ => And.left
  · exact ((lasts_interp host n body env ts).follows (hinterp body env ts)).imp fun _ _ => And.left

theorem keeps_evaluate_interp (h : Steady keep) (host : Host κ) (n : Nat) :
    (∀ r, Keeps keep (fun _ => True) (fun _ => True) (evaluate host n r)) ∧
      ∀ body env ts, Keeps keep (fun _ => True) (fun _ => True) (interp host n body env ts) := by
  induction n with
  | zero => exact ⟨fun _ _ _ => trivial, fun _ _ _ _ _ => trivial⟩
  | succ n ih =>
      constructor
      · intro r
        exact (evaluate_follows h.fair keepsArity_equal rfl (h.setting_like ih.2)
          (Term.alike_equal 0 _) (Term.alikeArgs_equal 0 _)).keeps fun _ _ _ => trivial
      · intro body env ts
        rw [interp]
        exact h.keeps_run ih.1 _

end Steady

/-- No run turns debugging output on or off. -/
theorem steady_debugging (b : Bool) : Steady fun w : World κ => w.debugging = b where
  drawn _ _ := id
  registered s w hw := by
    obtain ⟨log, hlog⟩ := w.registered_eq s
    rw [hlog]
    exact hw
  noted _ _ := id
  logged _ _ := id
  enteredSpan _ := id
  leftSpan key w hw := (World.debugging_leftSpan key w).trans hw

/-- No run starts to count spans. -/
theorem steady_uncounted : Steady fun w : World κ => w.Uncounted where
  drawn next _ hw := hw.drawn next
  registered s w hw := by
    obtain ⟨log, hlog⟩ := w.registered_eq s
    rw [hlog]
    exact hw.of_eq rfl rfl
  noted e _ hw := hw.noted e
  logged r _ hw := hw.logged r
  enteredSpan _ hw := hw.enteredSpan
  leftSpan key _ hw := hw.leftSpan key

theorem uncounted_of_returned {host : Host κ} {n : Nat} {p : Program κ α} {w w' : World κ}
    (h : Returned (execute host n p w) w') (hw : w.Uncounted) : w'.Uncounted := by
  have hkeeps := steady_uncounted.keeps_run (steady_uncounted.keeps_evaluate_interp host n).1 p w hw
  rw [execute] at h
  generalize p.run (evaluate host n) w = res at h hkeeps
  cases h with
  | value => exact hkeeps.2
  | issue => exact hkeeps.2

theorem uncounted_of_evaluate {host : Host κ} {n : Nat} {r : Reduction (Content κ) (Body κ)}
    {w w' : World κ} {t : Term κ} (h : evaluate host n r w = .ok t w') (hw : w.Uncounted) :
    w'.Uncounted := by
  have hkeeps := (steady_uncounted.keeps_evaluate_interp host n).1 r w hw
  rw [h] at hkeeps
  exact hkeeps.2

/-- A run that has returned and cannot leave the span that is open now was started where spans are counted. -/
theorem counted_of_returned {host : Host κ} {n : Nat} {p : Program κ α} {key : String} {w w' : World κ}
    (h : Returned (execute host n p w) w') (hroom : w'.hasRoom key = false) : ¬ w.Uncounted := by
  intro hw
  have huncounted := uncounted_of_returned h hw
  cases (World.hasRoom_of_uncounted huncounted key).symm.trans hroom

theorem debugging_of_evaluate {host : Host κ} {n : Nat} {r : Reduction (Content κ) (Body κ)}
    {w w' : World κ} {t : Term κ} (h : evaluate host n r w = .ok t w') :
    w'.debugging = w.debugging := by
  have hkeeps := ((steady_debugging w.debugging).keeps_evaluate_interp host n).1 r w rfl
  rw [h] at hkeeps
  exact hkeeps.2

/-! ## Results -/

/-- With some amount of fuel the act has the result, and it does not use the fuel up. -/
def Ends (act : Nat → Act κ α) (w : World κ)
    (res : EStateM.Result (Halt (Content κ)) (World κ) α) : Prop :=
  (∀ w', res ≠ .error .exhausted w') ∧ ∃ n, act n w = res

theorem lasts_execute (host : Host κ) (n : Nat) (p : Program κ α) :
    Lasts (execute host n p) fun l _ => execute host l p :=
  Program.lasts_run (lasts_evaluate host n) p

namespace Ends

variable {act : Nat → Act κ α} {w w' : World κ}
  {res res' : EStateM.Result (Halt (Content κ)) (World κ) α} {n : Nat}

theorem of_ok {a : α} (h : act n w = .ok a w') : Ends act w (.ok a w') :=
  ⟨fun _ hres => (by cases hres), n, h⟩

theorem of_issue {e : Issue κ} (h : act n w = .error (.issue e) w') :
    Ends act w (.error (.issue e) w') :=
  ⟨fun _ hres => (by cases hres), n, h⟩

theorem of_overflow (h : act n w = .error .overflow w') : Ends act w (.error .overflow w') :=
  ⟨fun _ hres => (by cases hres), n, h⟩

/-- More fuel makes no difference. -/
theorem eventually (hact : ∀ n, Lasts (act n) fun l _ => act l) (h : Ends act w res) :
    ∃ N, ∀ n ≥ N, act n w = res := by
  obtain ⟨hres, n, hn⟩ := h
  rcases lasts_iff.mp (hact n) w with ⟨w', hw'⟩ | ⟨N, hN⟩
  · exact absurd (hn.symm.trans hw') (hres w')
  · exact ⟨N, fun m hm => (hN m hm N (Nat.le_refl N)).trans hn⟩

theorem unique (hact : ∀ n, Lasts (act n) fun l _ => act l) (h : Ends act w res)
    (h' : Ends act w res') : res = res' := by
  obtain ⟨N, hN⟩ := h.eventually hact
  obtain ⟨M, hM⟩ := h'.eventually hact
  exact (hN (max N M) (Nat.le_max_left N M)).symm.trans (hM (max N M) (Nat.le_max_right N M))

/-- An act settles on the outcome that it ends with. -/
theorem settles (hact : ∀ n, Lasts (act n) fun l _ => act l) (h : Ends act w res)
    {x : Except (Issue κ) α} (hx : outcome? res = some x) : Settles act w x := by
  obtain ⟨N, hN⟩ := h.eventually hact
  exact ⟨N, fun n hn => (congrArg outcome? (hN n hn)).trans hx⟩

/-- An act that ends with an outcome never leaves the range of machine words. -/
theorem inRange (hact : ∀ n, Lasts (act n) fun l _ => act l) (h : Ends act w res)
    {x : Except (Issue κ) α} (hx : outcome? res = some x) : InRange act w := by
  intro n
  cases hr : act n w with
  | ok a w' => rfl
  | error e w' =>
      cases e with
      | overflow =>
          obtain rfl := h.unique hact (.of_overflow hr)
          cases hx
      | _ => rfl

end Ends

/-! ## Counts -/

/-- If spans are counted, then the program does not break off at one whose count does not fit: where it is too
much for the machine, the counts are not jammed. -/
def Roomy (host : Host κ) (p : Program κ α) (w : World κ) : Prop :=
  ¬ w.Uncounted → ∀ w₁, Ends (execute host · p) w (.error .overflow w₁) → w₁.jammed = false

theorem roomy_of_uncounted {host : Host κ} {p : Program κ α} {w : World κ} (h : w.Uncounted) :
    Roomy host p w := fun hcounted => absurd h hcounted

/-- A program that is not too much for the machine does not break off there. -/
theorem Ends.roomy {host : Host κ} {p : Program κ α} {w : World κ}
    {res : EStateM.Result (Halt (Content κ)) (World κ) α} (h : Ends (execute host · p) w res)
    (hres : ∀ w₁, res ≠ .error .overflow w₁) : Roomy host p w :=
  fun _ w₁ hover => absurd (h.unique (fun n => lasts_execute host n p) hover) (hres w₁)

/-- To stay in range is not to end with an overflow. -/
theorem inRange_iff {act : Nat → Act κ α} {w : World κ} :
    InRange act w ↔ ∀ w₁, ¬ Ends act w (.error .overflow w₁) := by
  constructor
  · rintro h w₁ ⟨-, n, hn⟩
    have hover := h n
    rw [hn] at hover
    cases hover
  · intro h n
    generalize hr : act n w = res
    cases res with
    | ok a w' => rfl
    | error e w' =>
        cases e with
        | overflow => exact absurd (.of_overflow hr) (h w')
        | _ => rfl

theorem roomy_of_inRange {host : Host κ} {p : Program κ α} {w : World κ}
    (h : InRange (execute host · p) w) : Roomy host p w :=
  fun _ w₁ hover => absurd hover (inRange_iff.mp h w₁)

/-- An act that settles on an outcome ends with it. -/
theorem exists_ends_of_settles {act : Nat → Act κ α} {w : World κ} {x : Except (Issue κ) α}
    (h : Settles act w x) : ∃ res, Ends act w res ∧ outcome? res = some x := by
  obtain ⟨N, hN⟩ := h
  have hx := hN N (Nat.le_refl N)
  refine ⟨act N w, ⟨fun w' hw' => ?_, N, rfl⟩, hx⟩
  rw [hw'] at hx
  cases hx

theorem Roomy.elim {host : Host κ} {p : Program κ α} {n : Nat} {w w₁ : World κ} {key : String}
    (h : Roomy host p w) (hw : w.Uncounted → w₁.Uncounted) (hroom : w₁.hasRoom key = false)
    (hrun : execute host n p w = .error .overflow (w₁.leftSpan key)) : False := by
  have hcounted : ¬ w.Uncounted := fun h =>
    Bool.false_ne_true (hroom.symm.trans (World.hasRoom_of_uncounted (hw h) key))
  have hopen := h hcounted _ (.of_overflow hrun)
  exact Bool.false_ne_true (hopen.symm.trans (World.jammed_leftSpan hroom))

/-! ## Calls -/

/-- The key under which a call in this state is counted. -/
def callKey (s : ProofState κ) : String :=
  spanKey (some s.mainContext.moduleName) "tacrun::driver::run"

/-- The application that a call of a metaprogram has reduced. -/
def Engine.reduction (host : Host κ) (engine : Engine κ) (cs : List (Codec κ)) (tactic : Term κ)
    (vs : Vals cs) (s : ProofState κ) (w : World κ) : Reduction (Content κ) (Body κ) :=
  let (terms, next) := encodeAll cs vs w.supply
  { backend := engine.backend
    steps := StepTable.snapshot (host.natives engine.native) w.registry
    env := s.mainContext
    tactic
    args := terms ++ [(embed .proofState (.state s) next).1] }

/-- The world in which that reduction starts: identities have been given out, and a span is entered. -/
def callWorld (cs : List (Codec κ)) (vs : Vals cs) (w : World κ) : World κ :=
  { w with supply := (encodeAll cs vs w.supply).2 + 1 }.enteredSpan

theorem notes_callWorld (cs : List (Codec κ)) (vs : Vals cs) (w : World κ) :
    w.Notes [] (callWorld cs vs w) :=
  (World.Notes.drawn (fun k => (encodeAll cs vs k).2 + 1) w).trans_left (.enteredSpan _)

/-- An outcome as it is logged, if the state can be shown. -/
def report? (o : Outcome κ α) : Option String :=
  (o.state.dump? "").map fun dump =>
    "metaprogram " ++ (if o.isSuccess then "succeeded" else "failed") ++ " with " ++ dump

/-- What a normal form says about a metaprogram. -/
def verdict (result : Codec κ) (env : Env κ) (normal : Term κ) :
    Program κ (Outcome κ result.Val) :=
  match (Codec.outcome result).decode normal with
  | some o => do
    Program.debug fun _ => report? o
    return o
  | none => do
    Program.debug fun _ => some ("stuck result: " ++ normal.display)
    .fail (stuckIssue env normal)

/-- A dump of the state can be built. -/
def Dumpable (s : ProofState κ) : Prop := 2 * s.depth ≤ ProofState.textLimit

instance (s : ProofState κ) : Decidable (Dumpable s) :=
  inferInstanceAs (Decidable (2 * s.depth ≤ ProofState.textLimit))

theorem isSome_dump?_iff {s : ProofState κ} {message : String} :
    (s.dump? message).isSome ↔ Dumpable s := by
  rw [ProofState.dump?, Dumpable]
  split
  next h => simp [h]
  next h => simp [h]

theorem isSome_report?_iff {o : Outcome κ α} : (report? o).isSome ↔ Dumpable o.state := by
  rw [report?, Option.isSome_map, isSome_dump?_iff]

/-- A state can be shown if that is wanted. -/
theorem run_debug_dump (host : Host κ) (n : Nat) (s : ProofState κ) (message : String)
    {w : World κ} (hs : w.debugging = true → Dumpable s) : ∃ w', w.Notes [] w' ∧
      (Program.debug fun _ => s.dump? message : Program κ Unit).run (evaluate host n) w =
        .ok () w' :=
  Program.run_debug_of_shows _ _ fun hd => isSome_dump?_iff.mpr (hs hd)

/-! ## Calls, step by step -/

section

variable {host : Host κ} {engine : Engine κ} {cs : List (Codec κ)} (result : Codec κ)
  {tactic : Term κ} {vs : Vals cs} {s : ProofState κ} {n : Nat} {w w₁ : World κ}

theorem execute_call : execute host n (engine.call host cs result tactic vs s) w =
    execute host n (do
      let normal ← Program.span (some s.mainContext.moduleName) "tacrun::driver::run"
        (Program.reduce (engine.reduction host cs tactic vs s w))
      verdict result s.mainContext normal)
      { w with supply := (encodeAll cs vs w.supply).2 + 1 } := rfl

/-- A call whose reduction breaks off breaks off; after an issue its span may be one too many to count. -/
theorem call_of_error {e : Halt (Content κ)}
    (h : evaluate host n (engine.reduction host cs tactic vs s w) (callWorld cs vs w) =
      .error e w₁) :
    (∃ w', w₁.Notes [] w' ∧
      execute host n (engine.call host cs result tactic vs s) w = .error e w') ∨
    (∃ issue, e = .issue issue) ∧ w₁.hasRoom (callKey s) = false ∧
      execute host n (engine.call host cs result tactic vs s) w =
        .error .overflow (w₁.leftSpan (callKey s)) := by
  have hreduce : (Program.reduce (engine.reduction host cs tactic vs s w)).run (evaluate host n)
      (callWorld cs vs w) = .error e w₁ := by
    cases e with
    | issue e => exact run_bind_ok (show Program.answer _ (.reduce _) _ = .ok (.error e) w₁ by
        simp only [Program.answer, h])
    | _ => exact run_bind_error (by simp only [Program.answer, h])
  rcases Program.run_span_of_error (some s.mainContext.moduleName) "tacrun::driver::run" hreduce with
    ⟨w', hw', hspan⟩ | ⟨hissue, hroom, hspan⟩
  · exact .inl ⟨w', hw', (execute_call result).trans (Program.run_bind_of_error hspan)⟩
  · exact .inr ⟨hissue, hroom, (execute_call result).trans (Program.run_bind_of_error hspan)⟩

/-- A call whose reduction has a result goes on to the verdict on it, unless its span is one too many to
count. -/
theorem call_of_ok {normal : Term κ}
    (h : evaluate host n (engine.reduction host cs tactic vs s w) (callWorld cs vs w) =
      .ok normal w₁) :
    (∃ w', w₁.Notes [] w' ∧ execute host n (engine.call host cs result tactic vs s) w =
      execute host n (verdict result s.mainContext normal) w') ∨
    w₁.hasRoom (callKey s) = false ∧ execute host n (engine.call host cs result tactic vs s) w =
      .error .overflow (w₁.leftSpan (callKey s)) := by
  have hreduce : (Program.reduce (engine.reduction host cs tactic vs s w)).run (evaluate host n)
      (callWorld cs vs w) = .ok normal w₁ :=
    run_bind_ok (show Program.answer _ (.reduce _) _ = .ok (.ok normal) w₁ by
      simp only [Program.answer, h])
  rcases Program.run_span_of_ok (some s.mainContext.moduleName) "tacrun::driver::run" hreduce with
    ⟨w', hw', hspan⟩ | ⟨hroom, hspan⟩
  · exact .inl ⟨w', hw', (execute_call result).trans (Program.run_bind_of_ok hspan)⟩
  · exact .inr ⟨hroom, (execute_call result).trans (Program.run_bind_of_error hspan)⟩

end

section

variable (host : Host κ) (n : Nat) {result : Codec κ} (env : Env κ) {normal : Term κ}
  {o : Outcome κ result.Val} {w : World κ}

/-- The verdict on a normal form that can be read is what it is read as. -/
theorem verdict_of_some (ho : (Codec.outcome result).decode normal = some o)
    (hw : w.debugging = true → Dumpable o.state) :
    ∃ w', w.Notes [] w' ∧ execute host n (verdict result env normal) w = .ok o w' := by
  rw [verdict, ho]
  obtain ⟨w', hw', hrun⟩ := Program.run_debug_of_shows (evaluate host n) (fun _ => report? o)
    fun hd => isSome_report?_iff.mpr (hw hd)
  exact ⟨w', hw', Program.run_bind_of_ok hrun⟩

/-- If it has to be shown and cannot, that is too much for the machine. -/
theorem verdict_of_not_dumpable (ho : (Codec.outcome result).decode normal = some o)
    (hw : w.debugging = true) (hs : ¬ Dumpable o.state) :
    execute host n (verdict result env normal) w = .error .overflow w := by
  rw [verdict, ho]
  exact Program.run_bind_of_error (Program.run_debug_of_not_shows _ fun hshows =>
    hs (isSome_report?_iff.mp (hshows hw)))

/-- The verdict on any other normal form is that evaluation got stuck. -/
theorem verdict_of_none (w : World κ) (ho : (Codec.outcome result).decode normal = none) :
    ∃ w', w.Notes [] w' ∧ execute host n (verdict result env normal) w =
      .error (.issue (stuckIssue env normal)) w' := by
  rw [verdict, ho]
  obtain ⟨w', hw', hrun⟩ := Program.run_debug_of_shows (w := w) (evaluate host n)
    (fun _ => some ("stuck result: " ++ normal.display)) fun _ => rfl
  exact ⟨w', hw', Program.run_bind_of_ok hrun⟩

end

/-- A state that a call ends with has been dumped if dumps are wanted. -/
theorem dumpable_of_call {host : Host κ} {engine : Engine κ} {cs : List (Codec κ)}
    {result : Codec κ} {tactic : Term κ} {vs : Vals cs} {s : ProofState κ} {n : Nat} {w w₁ : World κ}
    {o : Outcome κ result.Val}
    (h : execute host n (engine.call host cs result tactic vs s) w = .ok o w₁)
    (hw : w₁.debugging = true) : Dumpable o.state := by
  cases hr : evaluate host n (engine.reduction host cs tactic vs s w) (callWorld cs vs w) with
  | error e w₂ =>
      rcases call_of_error result hr with ⟨_, -, hcall⟩ | ⟨-, -, hcall⟩ <;> cases hcall.symm.trans h
  | ok normal w₂ =>
      obtain ⟨w₃, -, hcall⟩ | ⟨-, hcall⟩ := call_of_ok result hr
      case inr => cases hcall.symm.trans h
      rw [hcall] at h
      cases ho : (Codec.outcome result).decode normal with
      | none =>
          obtain ⟨_, -, hverdict⟩ := verdict_of_none host n s.mainContext w₃ ho
          cases hverdict.symm.trans h
      | some o' =>
          by_cases hd : w₃.debugging = true → Dumpable o'.state
          · obtain ⟨w₄, hw₄, hverdict⟩ := verdict_of_some host n s.mainContext ho hd
            obtain ⟨rfl, rfl⟩ : o' = o ∧ w₄ = w₁ := by
              simpa using hverdict.symm.trans h
            exact hd (hw₄.debugging.symm.trans hw)
          · obtain ⟨hd, hs⟩ := Classical.not_imp.mp hd
            cases (verdict_of_not_dumpable host n s.mainContext ho hd hs).symm.trans h

end TacticEngine.Native
