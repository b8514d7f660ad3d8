/-
# TacticEngine.Proofs.Native.Switches -- debugging output and profiling have no say in what happens.

Whatever the switches are and whatever was counted before, a program ends the same way, having entered the same
native code, fired the same steps and consulted the same type checkers: the worlds in which it ends are akin
(`switches_have_no_say`).  Programs are the runs of an engine, those on behalf of the type checker, and the
native code that steps enter, with all the runs nested in it; so this is one statement about all of them.

Either switch is read in one place where it matters.  A dump of a proof state is indented by its depth, and a
native tactic may make that as large as it likes; then a run that is to be dumped is too much for the machine,
and the same run without debugging output is not.  `Legible` excludes that, and nothing else.  A span that is
counted may be one too many for its count, and then the run breaks off where it is left.  `Roomy` excludes that.
-/
import Mathlib.Algebra.Group.Nat.Defs
import TacticEngine.Proofs.Native.Runs
import TacticEngine.Proofs.Native.States

namespace TacticEngine.Native

variable {κ α : Type}

/-! ## Runs in which all texts are built -/

mutual
/-- What steps do, given fuel, if texts for debuggers are treated as `all` says, to any depth of nesting. -/
def interpBuilding (all : Bool) (host : Host κ) : Nat → Interp (Content κ) (Body κ)
  | 0, _, _, _ => throw .exhausted
  | fuel + 1, body, env, ts =>
    ((interpret host body env ts).building all).run (evaluateBuilding all host fuel)

/-- The normal form of an application, with steps that treat texts for debuggers so. -/
def evaluateBuilding (all : Bool) (host : Host κ) : Nat → Reduction (Content κ) (Body κ) → Act κ (Term κ)
  | 0, _ => throw .exhausted
  | fuel + 1, r => carry host (interpBuilding all host fuel) fuel r
end

/-- Carry a program out, treating texts for debuggers so. -/
def executeBuilding (all : Bool) (host : Host κ) (fuel : Nat) (p : Program κ α) : Act κ α :=
  (p.building all).run (evaluateBuilding all host fuel)

theorem building_false_evaluate_interp (host : Host κ) (n : Nat) :
    evaluateBuilding false host n = evaluate host n ∧ interpBuilding false host n = interp host n := by
  induction n with
  | zero => exact ⟨rfl, rfl⟩
  | succ n ih =>
      constructor
      · funext r
        rw [evaluateBuilding, ih.2, evaluate_succ]
      · funext body env ts
        rw [interpBuilding, ih.1, Program.building_false, interp]

/-- Unless all texts are to be built, nothing is changed. -/
theorem executeBuilding_false (host : Host κ) (n : Nat) (p : Program κ α) :
    executeBuilding false host n p = execute host n p := by
  rw [executeBuilding, Program.building_false, (building_false_evaluate_interp host n).1]
  rfl

/-- Texts for debuggers are never what ends the run early: if it is too much for the machine when all of them
are built, then it is too much, at the same moment, when none is. -/
def Legible (host : Host κ) (p : Program κ α) (w : World κ) : Prop :=
  ∀ w₁, Ends (executeBuilding true host · p) w.quiet (.error .overflow w₁) →
    Ends (execute host · p) w.quiet (.error .overflow w₁)

/-! ## Two runs -/

section

variable {side side' : Side} {host : Host κ}

theorem akin_setting_like {n : Nat} {steps : StepTable (Body κ)} {env : Env κ}
    (h : ∀ body ts, (Tie.akin side side').Follows Eq (interpBuilding side.all host n body env ts)
      fun l _ => interpBuilding side'.all host l body env ts) :
    Machine.Setting.Like (Tie.akin side side') (Likeness.equal _ _) (fun _ => True)
      (machineSetting host (interpBuilding side.all host n) steps env)
      (machineSetting host (interpBuilding side'.all host n) steps env) (interpBuilding side'.all host) := by
  refine machineSetting_like ?_ (fun _ => rfl) h
  intro body f hf vs
  cases body with
  | rule label =>
      obtain ⟨g, -, rfl⟩ := Option.map_eq_some_iff.mp hf
      exact .const fun w w' hw => .ok rfl (Tie.akin_state_noted hw _)
  | total => cases hf
  | tactic => cases hf

theorem follows_evaluate_interp (n : Nat) :
    (∀ r, (Tie.akin side side').Follows Eq (evaluateBuilding side.all host n r)
      fun l _ => evaluateBuilding side'.all host l r) ∧
    ∀ body env ts, (Tie.akin side side').Follows Eq (interpBuilding side.all host n body env ts)
      fun l _ => interpBuilding side'.all host l body env ts := by
  induction n with
  | zero => exact ⟨fun _ => .mute fun _ => .inl rfl, fun _ _ _ => .mute fun _ => .inl rfl⟩
  | succ n ih =>
      constructor
      · intro r
        have hcarry := carry_follows Tie.fair_akin keepsArity_equal (r := r) rfl
          (akin_setting_like fun body ts => ih.2 body r.env ts) (Term.alike_equal 0 r.tactic)
          (Term.alikeArgs_equal 0 r.args) n
        have heval : (Tie.akin side side').Follows ((Likeness.equal _ _).Alike 0)
            (evaluateBuilding side.all host (n + 1) r) fun l _ => evaluateBuilding side'.all host l r :=
          .of_level (fun l => by rw [evaluateBuilding]) hcarry.diagonal
        exact heval.imp fun t t' ht => ht.eq Likeness.equal_strict
      · intro body env ts
        rw [interpBuilding]
        exact .of_level (fun l => by rw [interpBuilding]) (Program.follows_building ih.1 _)

theorem follows_execute (n : Nat) (p : Program κ α) :
    (Tie.akin side side').Follows Eq (executeBuilding side.all host n p)
      fun l _ => executeBuilding side'.all host l p :=
  Program.follows_building (follows_evaluate_interp n).1 p

variable {p : Program κ α} {w w' : World κ} {res res' : EStateM.Result (Halt (Content κ)) (World κ) α}
  {all all' : Bool}

/-- The run from `w` is not one that ends where the one from `w'` goes on. -/
def Accompanied (all all' : Bool) (host : Host κ) (p : Program κ α) (w w' : World κ) : Prop :=
  ∀ w₁, Ends (executeBuilding all host · p) w (.error .overflow w₁) →
    ¬ (w.side all).Alone (w'.side all') w₁

theorem accompanied_of_uncounted
    (hbuilds : (all || w.debugging) = true → (all' || w'.debugging) = true) (hw : w.Uncounted) :
    Accompanied all all' host p w w' := by
  rintro w₁ - (⟨hb, hb'⟩ | ⟨hcounts, -⟩)
  · exact Bool.false_ne_true (hb'.symm.trans (hbuilds hb))
  · exact hcounts hw

theorem accompanied_of_roomy (hbuilds : w.debugging = true → (all' || w'.debugging) = true)
    (hw : Roomy host p w) : Accompanied false all' host p w w' := by
  rintro w₁ hover (⟨hb, hb'⟩ | ⟨hcounts, hjammed⟩)
  · exact Bool.false_ne_true (hb'.symm.trans (hbuilds hb))
  · simp only [executeBuilding_false] at hover
    exact Bool.false_ne_true ((hw hcounts w₁ hover).symm.trans hjammed)

theorem Ends.of_yields {act : Nat → Act κ α} (hres : ∀ w₁, res ≠ .error .exhausted w₁)
    (h : Yields (fun l _ => act l) w res) : Ends act w res := by
  obtain ⟨N, hN⟩ := h
  exact ⟨hres, N, hN N (Nat.le_refl N) N (Nat.le_refl N)⟩

/-- Unless one of two runs ends alone, both end the same way. -/
theorem yields_building (hw : w.Akin w') (hp : Accompanied all all' host p w w')
    (hp' : Accompanied all' all host p w' w) (h : Ends (executeBuilding all host · p) w res) :
    ∃ res', Yields (fun l _ => executeBuilding all' host l p) w' res' ∧ EndsAkin res res' := by
  obtain ⟨hres, n, hn⟩ := h
  dsimp only at hn
  have hfollows : (Tie.akin (w.side all) (w'.side all')).Follows Eq (executeBuilding all host n p)
      fun l _ => executeBuilding all' host l p := follows_execute n p
  -- The runs come apart only where one of them ends alone, which `hp` and `hp'` exclude.
  rcases hfollows w w' ⟨hw, w.of_side all, w'.of_side all'⟩ with ⟨e, w₁, hr, rfl | ⟨rfl, halone⟩⟩ | ⟨res', hy, hmatch⟩
  · exact absurd (hn.symm.trans hr) (hres w₁)
  · exact absurd halone (hp w₁ (.of_overflow hr))
  · have hmatched : (Tie.akin (w.side all) (w'.side all')).Matches Eq res res' := by
      rw [← hn]
      exact hmatch
    rcases hmatched.akin with ⟨w₁, rfl, halone⟩ | hakin
    · exact absurd halone (hp' w₁ (.of_yields nofun hy))
    · exact ⟨res', hy, hakin⟩

theorem ends_building (hw : w.Akin w') (hp : Accompanied all all' host p w w')
    (hp' : Accompanied all' all host p w' w) (h : Ends (executeBuilding all host · p) w res) :
    ∃ res', Ends (executeBuilding all' host · p) w' res' ∧ EndsAkin res res' := by
  obtain ⟨res', hy, hakin⟩ := yields_building hw hp hp' h
  exact ⟨res', .of_yields (hakin.ne_exhausted h.1) hy, hakin⟩

/-- A run in which nothing is counted has one result, up to what the switches are for. -/
theorem Ends.unique_building (hw : w.Uncounted) (h : Ends (executeBuilding all host · p) w res)
    (h' : Ends (executeBuilding all host · p) w res') : EndsAkin res res' := by
  have hp : Accompanied all all host p w w := accompanied_of_uncounted id hw
  obtain ⟨res₁, hy₁, hakin₁⟩ := yields_building (.refl w) hp hp h
  obtain ⟨res₂, hy₂, hakin₂⟩ := yields_building (.refl w) hp hp h'
  obtain rfl := hy₁.unique hy₂
  exact hakin₁.trans hakin₂.symm

/-- Where debugging output is wanted in both worlds or in neither, a program ends the same way. -/
theorem ends_same (hw : w.Akin w') (hsame : w.debugging = w'.debugging) (hp : Roomy host p w)
    (hp' : Roomy host p w') (h : Ends (execute host · p) w res) :
    ∃ res', Ends (execute host · p) w' res' ∧ EndsAkin res res' := by
  simp only [← executeBuilding_false] at h ⊢
  exact ends_building hw (accompanied_of_roomy hsame.symm.trans hp)
    (accompanied_of_roomy hsame.trans hp') h

/-! ## Runs in which nothing is counted -/

/-- A run within the range of machine words ends as it does where nothing is counted. -/
theorem ends_uncounted (hrange : InRange (execute host · p) w) (h : Ends (execute host · p) w res) :
    ∃ res', Ends (execute host · p) w.uncounted res' ∧ EndsAkin res res' :=
  ends_same (.uncounted w) rfl (roomy_of_inRange hrange) (roomy_of_uncounted w.uncounted_uncounted) h

/-- And the other way round. -/
theorem ends_of_uncounted (hrange : InRange (execute host · p) w)
    (h : Ends (execute host · p) w.uncounted res) :
    ∃ res', Ends (execute host · p) w res' ∧ EndsAkin res res' :=
  ends_same (World.Akin.uncounted w).symm rfl (roomy_of_uncounted w.uncounted_uncounted)
    (roomy_of_inRange hrange) h

theorem inRange_uncounted (hrange : InRange (execute host · p) w) :
    InRange (execute host · p) w.uncounted := by
  refine inRange_iff.mpr fun w₁ hover => ?_
  obtain ⟨res', h, hakin⟩ := ends_of_uncounted hrange hover
  cases hakin with
  | error => exact inRange_iff.mp hrange _ h

theorem settles_uncounted_iff (hrange : InRange (execute host · p) w) {x : Except (Issue κ) α} :
    Settles (execute host · p) w.uncounted x ↔ Settles (execute host · p) w x := by
  have hlasts (n : Nat) := lasts_execute host n p
  constructor
  · intro hx
    obtain ⟨res, h, hres⟩ := exists_ends_of_settles hx
    obtain ⟨res', h', hakin⟩ := ends_of_uncounted hrange h
    exact h'.settles hlasts (hakin.outcome_eq.symm.trans hres)
  · intro hx
    obtain ⟨res, h, hres⟩ := exists_ends_of_settles hx
    obtain ⟨res', h', hakin⟩ := ends_uncounted hrange h
    exact h'.settles hlasts (hakin.outcome_eq.symm.trans hres)

/-! ## Legible runs -/

/-- If a run with debugging output is not too much for the machine, then all its texts can be built. -/
theorem legible_of_ends (hw : w.debugging = true) (h : Ends (execute host · p) w res)
    (hres : ∀ w₁, res ≠ .error .overflow w₁) : Legible host p w := by
  intro w₁ hall
  have hroomy : Roomy host p w := h.roomy hres
  -- The run of which all texts are built goes like the one with debugging output.
  simp only [← executeBuilding_false] at h
  have hleft : Accompanied false true host p w w.quiet := accompanied_of_roomy (fun _ => rfl) hroomy
  obtain ⟨res', h', hakin⟩ := ends_building (.quiet w) hleft
    (accompanied_of_uncounted (fun _ => hw) w.uncounted_quiet) h
  cases hakin.trans (h'.unique_building w.uncounted_quiet hall) with
  | error => exact absurd rfl (hres _)

namespace Legible

variable {v : World κ}

/-- The run in which all texts are built does not end alone: it goes on if the other one does, or both are too
much for the machine. -/
theorem accompanied_or (hp : Legible host p v) (hw : v.Akin w) (hroomy : Roomy host p w) :
    Accompanied true false host p v.quiet w ∨
      ∃ w₁ w₂, Ends (executeBuilding true host · p) v.quiet (.error .overflow w₁) ∧
        Ends (execute host · p) w (.error .overflow w₂) ∧ w₁.Akin w₂ := by
  by_cases hd : w.debugging = true
  · exact .inl (accompanied_of_uncounted (fun _ => hd) v.uncounted_quiet)
  by_cases hall : ∃ w₁, Ends (executeBuilding true host · p) v.quiet (.error .overflow w₁)
  · obtain ⟨w₁, hall⟩ := hall
    have hquiet : v.quiet.Akin w := (World.Akin.quiet v).symm.trans hw
    obtain ⟨res', hres', hakin⟩ := ends_same hquiet (eq_false_of_ne_true hd).symm
      (roomy_of_uncounted v.uncounted_quiet) hroomy (hp w₁ hall)
    cases hakin with
    | error hakin => exact .inr ⟨w₁, _, hall, hres', hakin⟩
  · exact .inl fun w₁ hover => absurd ⟨w₁, hover⟩ hall

/-- Building all texts, a legible program ends as it does without. -/
theorem ends_building (hp : Legible host p v) (hw : v.Akin w) (hroomy : Roomy host p w)
    (h : Ends (execute host · p) w res) :
    ∃ res', Ends (executeBuilding true host · p) v.quiet res' ∧ EndsAkin res res' := by
  rcases hp.accompanied_or hw hroomy with hleft | ⟨w₁, w₂, hall, hover, hakin⟩
  · simp only [← executeBuilding_false] at h
    exact Native.ends_building (hw.symm.trans (.quiet v)) (accompanied_of_roomy (fun _ => rfl) hroomy)
      hleft h
  · obtain rfl := hover.unique (fun n => lasts_execute host n p) h
    exact ⟨_, hall, .error hakin.symm⟩

/-- And the other way round. -/
theorem ends_of_building (hp : Legible host p v) (hw : v.Akin w) (hroomy : Roomy host p w)
    (h : Ends (executeBuilding true host · p) v.quiet res) :
    ∃ res', Ends (execute host · p) w res' ∧ EndsAkin res res' := by
  rcases hp.accompanied_or hw hroomy with hleft | ⟨w₁, w₂, hall, hover, hakin⟩
  · simp only [← executeBuilding_false]
    exact Native.ends_building ((World.Akin.quiet v).symm.trans hw) hleft
      (accompanied_of_roomy (fun _ => rfl) hroomy) h
  · exact ⟨_, hover, (h.unique_building v.uncounted_quiet hall).trans (.error hakin)⟩

theorem ends_akin (hp : Legible host p v) (hw : v.Akin w) (hw' : v.Akin w') (hroomy : Roomy host p w)
    (hroomy' : Roomy host p w') (h : Ends (execute host · p) w res) :
    ∃ res', Ends (execute host · p) w' res' ∧ EndsAkin res res' := by
  obtain ⟨res₁, h₁, hakin₁⟩ := hp.ends_building hw hroomy h
  obtain ⟨res', h', hakin'⟩ := hp.ends_of_building hw' hroomy' h₁
  exact ⟨res', h', hakin₁.trans hakin'⟩

end Legible

end

/-! ## The switches -/

/-- In worlds that are akin, every program ends the same way in both or in neither: with the same value or for
the same reason, having given out the same identities, registered the same steps and journalled the same
events; provided that in neither world it breaks off at a span whose count does not fit, and that debugging
output is wanted in both or in neither, or that the program is legible.  So neither the switches nor earlier
counts have a say in it. -/
theorem switches_have_no_say (host : Host κ) (p : Program κ α) {w w' : World κ} (hw : w.Akin w')
    (hroomy : Roomy host p w) (hroomy' : Roomy host p w')
    (hp : w.debugging = w'.debugging ∨ Legible host p w) :
    (∀ res, Ends (execute host · p) w res →
      ∃ res', Ends (execute host · p) w' res' ∧ EndsAkin res res') ∧
    ∀ res', Ends (execute host · p) w' res' →
      ∃ res, Ends (execute host · p) w res ∧ EndsAkin res res' := by
  rcases hp with hsame | hlegible
  · constructor
    · intro res h
      exact ends_same hw hsame hroomy hroomy' h
    · intro res' h'
      obtain ⟨res, h, hakin⟩ := ends_same hw.symm hsame.symm hroomy' hroomy h'
      exact ⟨res, h, hakin.symm⟩
  · constructor
    · intro res h
      exact hlegible.ends_akin (.refl w) hw hroomy hroomy' h
    · intro res' h'
      obtain ⟨res, h, hakin⟩ := hlegible.ends_akin hw (.refl w) hroomy' hroomy h'
      exact ⟨res, h, hakin.symm⟩

/-- The host whose native tactics set how deep dumps are indented. -/
def deepening : Host Nat :=
  { Host.silent Nat with
    name := fun _ => "deepen"
    tactic := fun depth _ result _ s => return .success result.blank { s with depth } }

/-- A proof state that is not indented. -/
def flatState : ProofState Nat := { mainContext := { moduleName := "Flat" }, entryRange := {} }

/-- The run of a metaprogram that sets the depth and nothing else. -/
def deepen (backend : Backend) (depth : Nat) : Program Nat (Outcome Nat Unit) :=
  Engine.run deepening ⟨backend, 0⟩ .unit (.native (Codec.tacticStep 0 "deepen" [] .unit (.host depth))) []
    flatState

/-- What a run gives that is dumped without trouble, it gives without debugging output, while profiling and on
top of earlier counts. -/
theorem switches_have_no_say_shallow :
    ∃ w, Ends (execute deepening · (deepen .compiled 1))
        { profiling := true, spans := [("tacrun::driver::run [Flat]", 3)] }
        (.ok (.success () { flatState with depth := 1 }) w) ∧
      w.trace = ["deepen"] := by
  have hrun : ∃ w, Ends (execute deepening · (deepen .compiled 1)) { debugging := true }
      (.ok (.success () { flatState with depth := 1 }) w) ∧ w.trace = ["deepen"] :=
    ⟨_, .of_ok (n := 20) rfl, rfl⟩
  obtain ⟨w, hw, htrace⟩ := hrun
  have hlegible : Legible deepening (deepen .compiled 1) { debugging := true } :=
    legible_of_ends rfl hw fun _ h => by cases h
  have hswitched : ({ debugging := true } : World Nat).Akin
      { profiling := true, spans := [("tacrun::driver::run [Flat]", 3)] } := ⟨rfl, rfl, rfl, rfl⟩
  have hroomy : Roomy deepening (deepen .compiled 1) { debugging := true } :=
    roomy_of_uncounted ⟨rfl, by decide⟩
  have hcounted : Roomy deepening (deepen .compiled 1)
      { profiling := true, spans := [("tacrun::driver::run [Flat]", 3)] } :=
    Ends.roomy (.of_ok (n := 20) rfl) nofun
  obtain ⟨res', hres', hakin⟩ := (switches_have_no_say deepening (deepen .compiled 1) hswitched hroomy
    hcounted (.inr hlegible)).1 _ hw
  cases hakin with
  | @ok _ _ w' hw' =>
      refine ⟨w', hres', ?_⟩
      have hjournal : w'.journal = w.journal := hw'.journal.symm
      rw [World.trace, hjournal]
      exact htrace

/-- A metaprogram makes the state too deep for dumps.  With debugging output the run is too much for the
machine, and without it succeeds, although the state that it was given can be dumped.  And where its span has
been counted as often as a machine word can say, it is too much for the machine while profiling, and succeeds
otherwise. -/
theorem switches_have_a_say : Dumpable flatState ∧
    (({} : World Nat).Akin { debugging := true } ∧ ∀ backend,
      (∃ w, Ends (execute deepening · (deepen backend (2 ^ 62))) {}
        (.ok (.success () { flatState with depth := 2 ^ 62 }) w)) ∧
      ∃ w, Ends (execute deepening · (deepen backend (2 ^ 62))) { debugging := true }
        (.error .overflow w)) ∧
    ({} : World Nat).Akin { profiling := true, spans := [("tacrun::driver::run [Flat]", 2 ^ 32 - 1)] } ∧
    ∀ backend,
      (∃ w, Ends (execute deepening · (deepen backend 1)) {}
        (.ok (.success () { flatState with depth := 1 }) w)) ∧
      ∃ w, Ends (execute deepening · (deepen backend 1))
        { profiling := true, spans := [("tacrun::driver::run [Flat]", 2 ^ 32 - 1)] }
        (.error .overflow w) := by
  refine ⟨by decide, ⟨⟨rfl, rfl, rfl, rfl⟩, ?_⟩, ⟨rfl, rfl, rfl, rfl⟩, ?_⟩
  · rintro (_ | _)
    · exact ⟨⟨_, .of_ok (n := 20) rfl⟩, _, .of_overflow (n := 20) rfl⟩
    · exact ⟨⟨_, .of_ok (n := 20) rfl⟩, _, .of_overflow (n := 20) rfl⟩
  · rintro (_ | _)
    · exact ⟨⟨_, .of_ok (n := 20) rfl⟩, _, .of_overflow (n := 20) rfl⟩
    · exact ⟨⟨_, .of_ok (n := 20) rfl⟩, _, .of_overflow (n := 20) rfl⟩

end TacticEngine.Native
