/-
# TacticEngine.Proofs.Native.Accounting -- what an invocation asks of the type checker.

An invocation asks its questions in a fixed order: first whether it may run the metaprogram at all, then,
only if that ended with a success, about each irrelevant goal that is left, and last about all implicits
that are no witnesses of such goals.  `Accounted` lists the ways in which an invocation can end, and for
each says which questions have been asked; what happens in between is the call of the metaprogram alone.
-/
import TacticEngine.Proofs.Native.Runs
import TacticEngine.Proofs.Native.States

namespace TacticEngine.Native

variable {κ : Type}

/-! ## Questions -/

namespace Checker

/-- Questions as they are journalled. -/
def asked (c : Checker κ) (qs : List (Consultation (Content κ) (Body κ))) :
    List (Event (Content κ) (Body κ)) :=
  qs.map (.consulted c.id)

/-- Unification gives solutions, but forgets no placeholder and no mark. -/
def KeepsMarks (c : Checker κ) : Prop :=
  ∀ env s left right u d, s.uvar? u = some d →
    ∃ d', (c.unify env s left right).2.uvar? u = some d' ∧ (d.checked = true → d'.checked = true)

/-- Whether a goal that is left is solved, and the state afterwards: irrelevant ones are by the unit value
if that unifies with the witness, the others need not be. -/
def solveGoal (c : Checker κ) (g : Goal κ) (s : ProofState κ) : Bool × ProofState κ :=
  if g.irrelevant then c.unify g.env s (.uvar g.witness) .unit else (true, s)

/-- Each goal is solved when its turn comes. -/
def AllSolved (c : Checker κ) : List (Goal κ) → ProofState κ → Prop
  | [], _ => True
  | g :: gs, s =>
    (c.solveGoal g s).1 = true ∧ c.AllSolved gs ((c.solveGoal g s).2.markChecked g.witness)

/-- The state after all goals have been solved, and their witnesses marked. -/
def settledState (c : Checker κ) : List (Goal κ) → ProofState κ → ProofState κ
  | [], s => s
  | g :: gs, s => c.settledState gs ((c.solveGoal g s).2.markChecked g.witness)

end Checker

/-- What is asked about goals that are all solved. -/
def unitQuestions (gs : List (Goal κ)) : List (Consultation (Content κ) (Body κ)) :=
  (gs.filter (·.irrelevant)).map fun g => .unify (.uvar g.witness) .unit true

/-! ## The ways in which an invocation ends -/

namespace Invocation

/-- What is asked before the metaprogram is run, and whether it may be. -/
def preliminaries (i : Invocation κ) (checker : Checker κ) (argType resultType : Term κ)
    (env : Env κ) : List (Consultation (Content κ) (Body κ)) × Except (Issue κ) Unit :=
  if i.alreadyTyped then ([], .ok ())
  else
    match checker.typecheck env argType resultType i.tactic with
    | .error e => ([.typecheck argType resultType i.tactic env], .error e)
    | .ok guard => ([.typecheck argType resultType i.tactic env, .discharge guard],
        checker.discharge env guard)

/-- The issue that an irrelevant goal could not be solved. -/
def unsolvedIssue (g : Goal κ) (s : ProofState κ) : Issue κ :=
  .internal (some (s.goalRange g))
    ("irrelevant goal " ++ displayUVar g.witness ++ " could not be solved with ()")

/-- What is asked after a success in state `t` if all goals are solved. -/
def finalQuestions (checker : Checker κ) (t : ProofState κ) :
    List (Consultation (Content κ) (Body κ)) :=
  unitQuestions t.openGoals ++
    [.resolve (otherImplicits t.openGoals (checker.settledState t.openGoals t))
      (checker.settledState t.openGoals t)]

section

variable (i : Invocation κ) (host : Host κ) (checker : Checker κ) (engine : Engine κ)
  (arg result : Codec κ) (a : arg.Val) (s : ProofState κ) (n : Nat) (w : World κ)

/-- The metaprogram has been accepted, or is known to have its type, and is called in world `w₁`. -/
def Started (w₁ : World κ) : Prop :=
  ∃ qs, i.preliminaries checker arg.type result.type (i.prepare s).mainContext = (qs, .ok ()) ∧
    w.Notes (checker.asked qs) w₁

/-- The key under which the invocation is counted. -/
def runKey (s : ProofState κ) : String :=
  spanKey (some s.mainContext.moduleName) "tacrun::interpreter::run_tactic_on_ps"

/-- The key under which its call of the metaprogram is counted. -/
def safeKey (s : ProofState κ) : String :=
  spanKey (some s.mainContext.moduleName) "tacrun::interpreter::run_safe"

/-- The invocation ends like this, and these are all questions that it asks. -/
inductive Accounted :
    EStateM.Result (Halt (Content κ)) (World κ) (List (Goal κ) × result.Val) → Prop where
  /-- The metaprogram is not accepted, and not called. -/
  | refused {qs e w'} :
      i.preliminaries checker arg.type result.type (i.prepare s).mainContext = (qs, .error e) →
      w.Notes (checker.asked qs) w' → Accounted (.error (.issue e) w')
  /-- The state to start in has to be shown and cannot; the metaprogram is not called. -/
  | unshown {w'} : i.Started checker arg result s w w' → w.debugging = true → ¬ Dumpable s →
      Accounted (.error .overflow w')
  /-- The call breaks off. -/
  | halted {w₁ e w₂ w'} : i.Started checker arg result s w w₁ →
      execute host n (engine.call host [arg] result i.tactic (a, ()) (i.prepare s)) w₁ =
        .error e w₂ →
      w₂.Notes [] w' → Accounted (.error e w')
  /-- The call returns, but its span is to be counted and cannot be; nothing more is asked. -/
  | uncountedCall {w₁ w₂} : ¬ w.Uncounted → i.Started checker arg result s w w₁ →
      Returned (execute host n (engine.call host [arg] result i.tactic (a, ()) (i.prepare s)) w₁) w₂ →
      w₂.hasRoom (safeKey s) = false → Accounted (.error .overflow (w₂.leftSpan (safeKey s)))
  /-- The metaprogram fails. -/
  | failed {w₁ reason t w₂ w'} : i.Started checker arg result s w w₁ →
      execute host n (engine.call host [arg] result i.tactic (a, ()) (i.prepare s)) w₁ =
        .ok (.failed reason t) w₂ →
      w₂.Notes [] w' → Accounted (.error (.issue (i.failureIssue t reason)) w')
  /-- It succeeds in a state that is not well formed. -/
  | illFormed {w₁ v t w₂ w'} : i.Started checker arg result s w w₁ →
      execute host n (engine.call host [arg] result i.tactic (a, ()) (i.prepare s)) w₁ =
        .ok (.success v t) w₂ →
      t.wellFormed = false → w₂.Notes [] w' → Accounted (.error (.issue i.illFormedIssue) w')
  /-- It succeeds, and an irrelevant goal cannot be solved; those before it can. -/
  | unsolved {w₁ v t w₂ w' solved g rest} : i.Started checker arg result s w w₁ →
      execute host n (engine.call host [arg] result i.tactic (a, ()) (i.prepare s)) w₁ =
        .ok (.success v t) w₂ →
      t.wellFormed = true → t.openGoals = solved ++ g :: rest → checker.AllSolved solved t →
      (checker.solveGoal g (checker.settledState solved t)).1 = false →
      w₂.Notes (checker.asked (unitQuestions solved ++ [.unify (.uvar g.witness) .unit false])) w' →
      Accounted (.error (.issue (unsolvedIssue g
        (checker.solveGoal g (checker.settledState solved t)).2)) w')
  /-- It succeeds, all goals are settled, and no other implicit has a problem. -/
  | settled {w₁ v t w₂ w' t'} : i.Started checker arg result s w w₁ →
      execute host n (engine.call host [arg] result i.tactic (a, ()) (i.prepare s)) w₁ =
        .ok (.success v t) w₂ →
      t.wellFormed = true → checker.AllSolved t.openGoals t →
      checker.resolve (i.prepare s).mainContext (checker.settledState t.openGoals t)
        (otherImplicits t.openGoals (checker.settledState t.openGoals t)) = ([], t') →
      w₂.Notes (checker.asked (finalQuestions checker t)) w' →
      Accounted (.ok (t.openGoals, v) w')
  /-- It succeeds, all goals are settled, and some other implicits have problems. -/
  | unresolved {w₁ v t w₂ w' problem problems t'} : i.Started checker arg result s w w₁ →
      execute host n (engine.call host [arg] result i.tactic (a, ()) (i.prepare s)) w₁ =
        .ok (.success v t) w₂ →
      t.wellFormed = true → checker.AllSolved t.openGoals t →
      checker.resolve (i.prepare s).mainContext (checker.settledState t.openGoals t)
        (otherImplicits t.openGoals (checker.settledState t.openGoals t)) =
          (problem :: problems, t') →
      w₂.Notes (checker.asked (finalQuestions checker t)) w' →
      Accounted (.error (.issue (.reported
        ((problem :: problems).map (implicitIssue i.goalRange t')))) w')
  /-- It would have ended in one of these ways, but its own span is to be counted and cannot be. -/
  | uncounted {res w'} : ¬ w.Uncounted → Accounted res → Returned res w' →
      w'.hasRoom (runKey s) = false → Accounted (.error .overflow (w'.leftSpan (runKey s)))

end

end Invocation

/-! ## Asking -/

section

variable (reduce : Reduction (Content κ) (Body κ) → Act κ (Term κ))

theorem run_consulted (c : Checker κ) (q : Consultation (Content κ) (Body κ)) (w : World κ) :
    (c.consulted q).run reduce w = .ok () (w.noted (.consulted c.id q)) := rfl

theorem run_accept (i : Invocation κ) (c : Checker κ) (env : Env κ) (argType resultType : Term κ)
    (hi : i.alreadyTyped = false) (w : World κ) : ∃ qs admitted,
      i.preliminaries c argType resultType env = (qs, admitted) ∧ ∃ w', w.Notes (c.asked qs) w' ∧
        (c.accept env argType resultType i.tactic).run reduce w =
          (Program.ofExcept admitted).run reduce w' := by
  have hfirst := run_consulted reduce c (.typecheck argType resultType i.tactic env) w
  rw [Invocation.preliminaries, hi, if_neg Bool.false_ne_true, Checker.accept,
    Program.run_bind_of_ok hfirst]
  cases htype : c.typecheck env argType resultType i.tactic with
  | error e => exact ⟨_, _, rfl, _, .noted _ w, rfl⟩
  | ok guard => exact ⟨_, _, rfl, _, (World.Notes.noted _ w).trans (.noted _ _), rfl⟩

/-- What is asked about a goal whose turn it is, and how it is answered. -/
def goalQuestions (g : Goal κ) (answer : Bool) : List (Consultation (Content κ) (Body κ)) :=
  if g.irrelevant then [.unify (.uvar g.witness) .unit answer] else []

theorem unitQuestions_cons (g : Goal κ) (gs : List (Goal κ)) :
    unitQuestions (g :: gs) = goalQuestions g true ++ unitQuestions gs := by
  cases hg : g.irrelevant <;> simp [unitQuestions, goalQuestions, hg]

theorem goalQuestions_of_unsolved {c : Checker κ} {g : Goal κ} {s : ProofState κ}
    (h : (c.solveGoal g s).1 = false) :
    goalQuestions g false = [.unify (.uvar g.witness) .unit false] := by
  cases hg : g.irrelevant with
  | false => simp [Checker.solveGoal, hg] at h
  | true => rw [goalQuestions, hg, if_pos rfl]

/-- One goal is settled: the others follow if it is solved. -/
theorem run_settleGoals_cons (c : Checker κ) (g : Goal κ) (gs : List (Goal κ)) (s : ProofState κ)
    (w : World κ) : ∃ w', w.Notes (c.asked (goalQuestions g (c.solveGoal g s).1)) w' ∧
      (Invocation.settleGoals c (g :: gs) s).run reduce w =
        if (c.solveGoal g s).1 then
          (Invocation.settleGoals c gs ((c.solveGoal g s).2.markChecked g.witness)).run reduce w'
        else .error (.issue (Invocation.unsolvedIssue g (c.solveGoal g s).2)) w' := by
  cases hg : g.irrelevant with
  | false =>
      refine ⟨w, by rw [goalQuestions, hg]; exact .refl w, ?_⟩
      rw [Invocation.settleGoals, Checker.solveGoal, hg]
      rfl
  | true =>
      have hanswer : (c.solveByUnit g.env s g.witness).run reduce w = .ok (c.solveGoal g s)
          (w.noted (.consulted c.id (.unify (.uvar g.witness) .unit (c.solveGoal g s).1))) := by
        rw [Checker.solveGoal, hg]
        rfl
      refine ⟨_, by rw [goalQuestions, hg]; exact .noted _ w, ?_⟩
      rw [Invocation.settleGoals, hg, if_pos rfl, Program.run_bind_of_ok hanswer]
      obtain ⟨solved, s'⟩ := c.solveGoal g s
      cases solved <;> rfl

/-- The goals are settled one after the other, up to the first one that cannot be solved. -/
theorem run_settleGoals (c : Checker κ) (gs : List (Goal κ)) (s : ProofState κ) (w : World κ) :
    (c.AllSolved gs s ∧ ∃ w', w.Notes (c.asked (unitQuestions gs)) w' ∧
      (Invocation.settleGoals c gs s).run reduce w = .ok (c.settledState gs s) w') ∨
    ∃ solved g rest, gs = solved ++ g :: rest ∧ c.AllSolved solved s ∧
      (c.solveGoal g (c.settledState solved s)).1 = false ∧
      ∃ w', w.Notes (c.asked (unitQuestions solved ++ [.unify (.uvar g.witness) .unit false])) w' ∧
        (Invocation.settleGoals c gs s).run reduce w = .error (.issue (Invocation.unsolvedIssue g
          (c.solveGoal g (c.settledState solved s)).2)) w' := by
  induction gs generalizing s w with
  | nil => exact .inl ⟨trivial, w, .refl w, rfl⟩
  | cons g gs ih =>
      obtain ⟨w₁, hw₁, hrun⟩ := run_settleGoals_cons reduce c g gs s w
      cases hsolve : (c.solveGoal g s).1 with
      | false =>
          rw [hsolve, if_neg Bool.false_ne_true] at hrun
          rw [hsolve, goalQuestions_of_unsolved hsolve] at hw₁
          exact .inr ⟨[], g, gs, rfl, trivial, hsolve, w₁, hw₁, hrun⟩
      | true =>
          rw [hsolve, if_pos rfl] at hrun
          rw [hsolve] at hw₁
          have hnotes {qs w₂} (h : w₁.Notes (c.asked qs) w₂) :
              w.Notes (c.asked (goalQuestions g true ++ qs)) w₂ := by
            rw [Checker.asked, List.map_append]
            exact hw₁.trans h
          rw [hrun]
          rcases ih ((c.solveGoal g s).2.markChecked g.witness) w₁ with
            ⟨hall, w₂, hw₂, hok⟩ | ⟨solved, h, rest, rfl, hall, hunsolved, w₂, hw₂, herror⟩
          · exact .inl ⟨⟨hsolve, hall⟩, w₂, unitQuestions_cons g gs ▸ hnotes hw₂, hok⟩
          · refine .inr ⟨g :: solved, h, rest, rfl, ⟨hsolve, hall⟩, hunsolved, w₂, ?_, herror⟩
            rw [unitQuestions_cons, List.append_assoc]
            exact hnotes hw₂

/-- Issues are logged one after the other. -/
theorem run_logAll (issues : List (Issue κ)) (w : World κ) : ∃ w', w.Notes [] w' ∧
    (forIn issues PUnit.unit fun e _ => do
      Program.log .error e.display
      pure (ForInStep.yield PUnit.unit) : Program κ PUnit).run reduce w = .ok PUnit.unit w' := by
  induction issues generalizing w with
  | nil => exact ⟨w, .refl w, rfl⟩
  | cons e issues ih =>
      obtain ⟨w', hw', hrun⟩ := ih (w.logged ⟨.error, e.display⟩)
      refine ⟨w', (World.Notes.logged _ w).trans_left hw', ?_⟩
      rw [List.forIn_cons]
      exact hrun

theorem run_reportImplicits (range : Source.FileSpan) (s : ProofState κ)
    (problem : Implicit × ImplicitTag κ) (problems : List (Implicit × ImplicitTag κ)) (w : World κ) :
    ∃ w', w.Notes [] w' ∧ (reportImplicits range s (problem :: problems)).run reduce w =
      .error (.issue (.reported ((problem :: problems).map (implicitIssue range s)))) w' := by
  obtain ⟨w', hw', hrun⟩ := run_logAll reduce
    ((problem :: problems).map (implicitIssue range s)) w
  exact ⟨w', hw', Program.run_bind_of_ok hrun⟩

end

/-! ## Every invocation is accounted for -/

namespace Invocation

section

variable {i : Invocation κ} {host : Host κ} {checker : Checker κ} {engine : Engine κ}
  {arg result : Codec κ} {a : arg.Val} {s : ProofState κ} {n : Nat} {w w₁ w₂ w₃ : World κ}

/-- The span of the invocation has no part in how it ends, as long as it can be counted. -/
theorem Accounted.spanned
    {res res' : EStateM.Result (Halt (Content κ)) (World κ) (List (Goal κ) × result.Val)}
    (h : i.Accounted host checker engine arg result a s n w res) (hres : Spanned (runKey s) res res')
    (hcounted : ∀ w', Returned res w' → w'.hasRoom (runKey s) = false → ¬ w.Uncounted) :
    i.Accounted host checker engine arg result a s n w res' := by
  cases hres with
  | value hw' =>
      cases h with
      | settled hstart hcall hwf hall hresolve hw =>
          exact .settled hstart hcall hwf hall hresolve (hw.trans_right hw')
  | issue hw' =>
      cases h with
      | refused hpre hw => exact .refused hpre (hw.trans_right hw')
      | halted hstart hcall hw => exact .halted hstart hcall (hw.trans_right hw')
      | failed hstart hcall hw => exact .failed hstart hcall (hw.trans_right hw')
      | illFormed hstart hcall hwf hw => exact .illFormed hstart hcall hwf (hw.trans_right hw')
      | unsolved hstart hcall hwf hgoals hall hg hw =>
          exact .unsolved hstart hcall hwf hgoals hall hg (hw.trans_right hw')
      | unresolved hstart hcall hwf hall hresolve hw =>
          exact .unresolved hstart hcall hwf hall hresolve (hw.trans_right hw')
  | halted => exact h
  | uncounted hreturned hroom => exact .uncounted (hcounted _ hreturned hroom) h hreturned hroom

/-- A success is accounted for. -/
theorem accounted_settle (hstart : i.Started checker arg result s w w₁) {v : result.Val}
    {t : ProofState κ}
    (hcall : execute host n (engine.call host [arg] result i.tactic (a, ()) (i.prepare s)) w₁ =
      .ok (.success v t) w₂) (hw₃ : w₂.Notes [] w₃) :
    match (i.settleOr (.fail i.illFormedIssue) checker (i.prepare s).mainContext t).run
      (evaluate host n) w₃ with
    | .ok goals w' => i.Accounted host checker engine arg result a s n w (.ok (goals, v) w')
    | .error e w' => i.Accounted host checker engine arg result a s n w (.error e w') := by
  cases hwf : t.wellFormed with
  | false =>
      rw [settleOr, hwf]
      exact .illFormed hstart hcall hwf hw₃
  | true =>
      obtain ⟨w₄, hw₄, hrun⟩ := run_debug_dump host n t "Metaprogram succeeded"
        fun hd => dumpable_of_call hcall (hw₃.debugging.symm.trans hd)
      have hw₄ := hw₃.trans_left hw₄
      rw [settleOr, hwf, Bool.not_true, if_neg Bool.false_ne_true, Program.run_bind_of_ok hrun]
      rcases run_settleGoals (evaluate host n) checker t.openGoals t w₄ with
        ⟨hall, w₅, hw₅, hrun⟩ | ⟨solved, g, rest, hgoals, hall, hg, w₅, hw₅, hrun⟩
      · dsimp only
        rw [Program.run_bind_of_ok hrun]
        let t' := checker.settledState t.openGoals t
        have hanswer : (checker.unresolved (i.prepare s).mainContext t'
            (otherImplicits t.openGoals t')).run (evaluate host n) w₅ =
          .ok (checker.resolve (i.prepare s).mainContext t' (otherImplicits t.openGoals t'))
            (w₅.noted (.consulted checker.id (.resolve (otherImplicits t.openGoals t') t'))) := rfl
        have hw₆ : w₂.Notes (checker.asked (finalQuestions checker t))
            (w₅.noted (.consulted checker.id (.resolve (otherImplicits t.openGoals t') t'))) := by
          rw [finalQuestions, Checker.asked, List.map_append]
          exact (hw₄.trans_left hw₅).trans (.noted _ w₅)
        rw [Program.run_bind_of_ok hanswer]
        cases hresolve : checker.resolve (i.prepare s).mainContext t'
            (otherImplicits t.openGoals t') with
        | mk problems t'' =>
            cases problems with
            | nil => exact .settled hstart hcall hwf hall hresolve hw₆
            | cons problem problems =>
                obtain ⟨w₇, hw₇, hreport⟩ := run_reportImplicits (evaluate host n)
                  i.goalRange t'' problem problems
                  (w₅.noted (.consulted checker.id (.resolve (otherImplicits t.openGoals t') t')))
                dsimp only
                rw [Program.run_bind_of_error hreport]
                exact .unresolved hstart hcall hwf hall hresolve (hw₆.trans_right hw₇)
      · dsimp only
        rw [Program.run_bind_of_error hrun]
        exact .unsolved hstart hcall hwf hgoals hall hg (hw₄.trans_left hw₅)

/-- An outcome is accounted for. -/
theorem accounted_finish (hstart : i.Started checker arg result s w w₁)
    {o : Outcome κ result.Val}
    (hcall : execute host n (engine.call host [arg] result i.tactic (a, ()) (i.prepare s)) w₁ =
      .ok o w₂) (hw₃ : w₂.Notes [] w₃) :
    i.Accounted host checker engine arg result a s n w (execute host n
      (i.finishOr (.fail i.illFormedIssue) checker (i.prepare s).mainContext o) w₃) := by
  cases o with
  | failed reason t =>
      obtain ⟨w₄, hw₄, hrun⟩ := run_debug_dump host n t "Metaprogram failed"
        fun hd => dumpable_of_call hcall (hw₃.debugging.symm.trans hd)
      rw [finishOr, execute, Program.run_bind_of_ok hrun]
      exact .failed hstart hcall (hw₃.trans_left hw₄)
  | success v t =>
      have hsettle := accounted_settle hstart hcall hw₃
      rw [finishOr, execute]
      cases hrun : (i.settleOr (.fail i.illFormedIssue) checker (i.prepare s).mainContext t).run
          (evaluate host n) w₃ with
      | ok goals w' =>
          rw [hrun] at hsettle
          rw [Program.run_bind_of_ok hrun]
          exact hsettle
      | error e w' =>
          rw [hrun] at hsettle
          rw [Program.run_bind_of_error hrun]
          exact hsettle

/-- A call whose span cannot be counted is accounted for. -/
theorem accounted_uncountedCall (hstart : i.Started checker arg result s w w₁)
    (hreturned : Returned
      (execute host n (engine.call host [arg] result i.tactic (a, ()) (i.prepare s)) w₁) w₂)
    (hroom : w₂.hasRoom (safeKey s) = false) :
    i.Accounted host checker engine arg result a s n w (.error .overflow (w₂.leftSpan (safeKey s))) := by
  have hcounted : ¬ w.Uncounted := by
    obtain ⟨qs, -, hw₁⟩ := hstart
    exact fun hw => counted_of_returned hreturned hroom (hw₁.uncounted hw)
  exact .uncountedCall hcounted hstart hreturned hroom

/-- From where the metaprogram may be run, the invocation is accounted for. -/
theorem accounted_proceed (hstart : i.Started checker arg result s w w₁) :
    i.Accounted host checker engine arg result a s n w (execute host n
      (i.proceedOr (.fail i.illFormedIssue) host checker engine arg result a (i.prepare s)) w₁) := by
  have hshows {w : World κ} : w.Shows (((i.prepare s).dump? "Initial state").map fun dump =>
      "Running metaprogram with goal location " ++ i.goalRange.display ++ "\n" ++ dump) ↔
        (w.debugging = true → Dumpable s) := by
    rw [World.Shows, Option.isSome_map, isSome_dump?_iff]
    rfl
  obtain ⟨qs, hpre, hw₁⟩ := hstart
  by_cases hd : w₁.debugging = true → Dumpable s
  · obtain ⟨w₂, hw₂, hdebug⟩ := Program.run_debug_of_shows (evaluate host n)
      (fun _ => ((i.prepare s).dump? "Initial state").map fun dump =>
        "Running metaprogram with goal location " ++ i.goalRange.display ++ "\n" ++ dump)
      (hshows.mpr hd)
    have hstart : i.Started checker arg result s w w₂.enteredSpan :=
      ⟨qs, hpre, (hw₁.trans_right hw₂).trans_right (.enteredSpan w₂)⟩
    rw [proceedOr, execute, Program.run_bind_of_ok hdebug]
    -- The span of the call is left, and then counted, if the call returns with an outcome or an issue.
    cases hcall : execute host n (engine.call host [arg] result i.tactic (a, ()) (i.prepare s))
        w₂.enteredSpan with
    | ok o w₃ =>
        rcases Program.run_span_of_ok (some (i.prepare s).mainContext.moduleName)
          "tacrun::interpreter::run_safe" hcall with ⟨w₄, hw₄, hspan⟩ | ⟨hroom, hspan⟩
        · rw [Program.run_bind_of_ok hspan]
          exact accounted_finish hstart hcall hw₄
        · rw [Program.run_bind_of_error hspan]
          exact accounted_uncountedCall hstart (.of_ok hcall) hroom
    | error e w₃ =>
        rcases Program.run_span_of_error (some (i.prepare s).mainContext.moduleName)
          "tacrun::interpreter::run_safe" hcall with ⟨w₄, hw₄, hspan⟩ | ⟨⟨issue, rfl⟩, hroom, hspan⟩
        · rw [Program.run_bind_of_error hspan]
          exact .halted hstart hcall hw₄
        · rw [Program.run_bind_of_error hspan]
          exact accounted_uncountedCall hstart (.of_issue hcall) hroom
  · rw [proceedOr, execute, Program.run_bind_of_error
      (Program.run_debug_of_not_shows _ fun hshown => hd (hshows.mp hshown))]
    obtain ⟨hd, hs⟩ := Classical.not_imp.mp hd
    exact .unshown ⟨qs, hpre, hw₁⟩ (hw₁.debugging.symm.trans hd) hs

/-- Every invocation is accounted for. -/
theorem accounted_run : i.Accounted host checker engine arg result a s n w
    (execute host n (i.run host checker engine arg result a s) w) := by
  rw [← runOr_fail, runOr]
  refine Accounted.spanned ?_ (Program.spanned_run _ _ _ _ w) fun w' hreturned hroom hw =>
    counted_of_returned hreturned hroom hw.enteredSpan
  cases hi : i.alreadyTyped with
  | true =>
      have hpre : i.preliminaries checker arg.type result.type (i.prepare s).mainContext =
          ([], .ok ()) := by
        rw [preliminaries, hi]
        rfl
      exact accounted_proceed ⟨[], hpre, .enteredSpan w⟩
  | false =>
      obtain ⟨qs, admitted, hpre, w₁, hw₁, hrun⟩ := run_accept (evaluate host n) i checker
        (i.prepare s).mainContext arg.type result.type hi w.enteredSpan
      have hw₁ := (World.Notes.enteredSpan w).trans_left hw₁
      cases admitted with
      | error e =>
          rw [if_neg Bool.false_ne_true, Program.run_bind_of_error hrun]
          exact .refused hpre hw₁
      | ok _ =>
          rw [if_neg Bool.false_ne_true, Program.run_bind_of_ok hrun]
          exact accounted_proceed ⟨qs, hpre, hw₁⟩

end

end Invocation

/-! ## Marks -/

namespace Checker

variable {c : Checker κ}

theorem uvar?_markChecked {s : ProofState κ} {u v : Nat} {d : UVarDecl (Content κ) (Body κ)}
    (h : s.uvar? v = some d) : (s.markChecked u).uvar? v =
      some (if u = v then { d with checked := true } else d) := by
  rw [ProofState.uvar?] at h
  rw [ProofState.markChecked, ProofState.uvar?]
  split
  next huv => rw [huv, UVarTable.get?_modify_self, h, Option.map_some]
  next huv => rw [UVarTable.get?_modify_of_ne huv, h]

theorem KeepsMarks.solveGoal (hc : c.KeepsMarks) (g : Goal κ) {s : ProofState κ} {u : Nat}
    {d : UVarDecl (Content κ) (Body κ)} (h : s.uvar? u = some d) :
    ∃ d', (c.solveGoal g s).2.uvar? u = some d' ∧ (d.checked = true → d'.checked = true) := by
  rw [Checker.solveGoal]
  split
  · exact hc g.env s _ _ u d h
  · exact ⟨d, h, fun hd => hd⟩

/-- Settling goals forgets no placeholder and no mark. -/
theorem KeepsMarks.settledState (hc : c.KeepsMarks) (gs : List (Goal κ)) {s : ProofState κ} {u : Nat}
    {d : UVarDecl (Content κ) (Body κ)} (h : s.uvar? u = some d) :
    ∃ d', (c.settledState gs s).uvar? u = some d' ∧ (d.checked = true → d'.checked = true) := by
  induction gs generalizing s d with
  | nil => exact ⟨d, h, fun hd => hd⟩
  | cons g gs ih =>
      obtain ⟨d₁, hd₁, hmark₁⟩ := hc.solveGoal g h
      obtain ⟨d₂, hd₂, hmark₂⟩ := ih (uvar?_markChecked (u := g.witness) hd₁)
      refine ⟨d₂, hd₂, fun hd => hmark₂ ?_⟩
      split
      · rfl
      · exact hmark₁ hd

/-- The witnesses of goals that have been settled are marked. -/
theorem KeepsMarks.checked_witness (hc : c.KeepsMarks) {gs : List (Goal κ)} {s : ProofState κ}
    (hs : ∀ g ∈ gs, (s.uvar? g.witness).isSome) :
    ∀ g ∈ gs, ∃ d, (c.settledState gs s).uvar? g.witness = some d ∧ d.checked = true := by
  induction gs generalizing s with
  | nil => nofun
  | cons g gs ih =>
      have hknown (u : Nat) (hu : (s.uvar? u).isSome) :
          ∃ d, ((c.solveGoal g s).2.markChecked g.witness).uvar? u = some d ∧
            (g.witness = u → d.checked = true) := by
        obtain ⟨d, hd⟩ := Option.isSome_iff_exists.mp hu
        obtain ⟨d₁, hd₁, -⟩ := hc.solveGoal g hd
        refine ⟨_, uvar?_markChecked hd₁, fun hgu => ?_⟩
        rw [if_pos hgu]
      intro h hh
      rcases List.mem_cons.mp hh with rfl | hh
      · obtain ⟨d, hd, hchecked⟩ := hknown h.witness (hs h hh)
        obtain ⟨d', hd', hmark⟩ := hc.settledState gs hd
        exact ⟨d', hd', hmark (hchecked rfl)⟩
      · refine ih (fun g' hg' => ?_) h hh
        obtain ⟨d, hd, -⟩ := hknown g'.witness (hs g' (List.mem_cons_of_mem g hg'))
        exact Option.isSome_of_eq_some hd

end Checker

/-- Every invocation asks its questions in the order that `Accounted` says, and ends as it says.  When the
remaining implicits are looked at, the witnesses of all goals that are left are marked as checked, if
unification keeps marks; and each implicit of that state is either such a witness or among those that
are looked at, which keep their order and number. -/
theorem invocations_accounted (i : Invocation κ) (host : Host κ) (checker : Checker κ)
    (engine : Engine κ) (arg result : Codec κ) (a : arg.Val) (s : ProofState κ) (n : Nat)
    (w : World κ) :
    i.Accounted host checker engine arg result a s n w
      (execute host n (i.run host checker engine arg result a s) w) ∧
    (checker.KeepsMarks → ∀ t : ProofState κ, t.wellFormed = true → ∀ g ∈ t.openGoals,
      ∃ d, (checker.settledState t.openGoals t).uvar? g.witness = some d ∧ d.checked = true) ∧
    ∀ (goals : List (Goal κ)) (t : ProofState κ),
      Invocation.otherImplicits goals t =
        t.implicits.filter (fun im => ∀ g ∈ goals, g.witness ≠ im.uvar) ∧
      ∀ im ∈ t.implicits,
        im ∈ Invocation.otherImplicits goals t ↔ ¬ ∃ g ∈ goals, g.witness = im.uvar := by
  have hother (goals : List (Goal κ)) (t : ProofState κ) : Invocation.otherImplicits goals t =
      t.implicits.filter (fun im => ∀ g ∈ goals, g.witness ≠ im.uvar) := by
    refine List.filter_congr fun im _ => ?_
    rw [Bool.eq_iff_iff]
    simp
  refine ⟨Invocation.accounted_run, fun hc t ht => ?_, fun goals t => ⟨hother goals t, ?_⟩⟩
  · refine hc.checked_witness fun g hg => ?_
    rw [ProofState.wellFormed, List.all_eq_true] at ht
    exact (Bool.and_eq_true_iff.mp (ht g hg)).1
  · intro im him
    rw [hother, List.mem_filter]
    simp [him]

/-- The invocation of a metaprogram that succeeds at once, with the unit value. -/
def returning : Invocation Unit where
  tactic := .lam 2 ((Term.ctor Names.success).apps [Term.unit, .bvar 0])
  callRange := {}
  goalRange := {}
  background := false
  alreadyTyped := false

theorem invocations_accounted_granted :
    (∃ goals w', execute (Host.silent Unit) 20 (returning.run (Host.silent Unit) (Checker.granting Unit)
        ⟨.compiled, ()⟩ .unit .unit () threePlaceholders) {} = .ok (goals, ()) w' ∧
      goals.map (·.witness) = [0, 2] ∧
      returning.Accounted (Host.silent Unit) (Checker.granting Unit) ⟨.compiled, ()⟩ .unit
        .unit () threePlaceholders 20 {} (.ok (goals, ()) w')) ∧
    ∀ g ∈ threePlaceholders.openGoals, ∃ d,
      ((Checker.granting Unit).settledState threePlaceholders.openGoals threePlaceholders).uvar?
        g.witness = some d ∧ d.checked = true := by
  have haccounted := invocations_accounted returning (Host.silent Unit)
    (Checker.granting Unit) ⟨.compiled, ()⟩ .unit .unit () threePlaceholders 20 {}
  have hkeeps : (Checker.granting Unit).KeepsMarks := fun _ _ _ _ _ d hd => ⟨d, hd, id⟩
  exact ⟨⟨_, _, rfl, rfl, haccounted.1⟩, haccounted.2.1 hkeeps threePlaceholders rfl⟩

end TacticEngine.Native
