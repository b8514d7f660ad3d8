/-
# TacticEngine.Proofs.Agreement.Functional -- the evaluators agree where steps are functions.

If the steps are functions of the environment and of the terms that they get, which the machine calls with
the arguments read back, then it makes no difference which evaluator normalizes a closed term.  Either
both end, with the same term or the same issue, or neither does.
-/
import TacticEngine.Proofs.Agreement.Evaluation
import TacticEngine.Proofs.Run.Outcome

namespace TacticEngine

variable {β σ : Type}

/-! ## Steps that are functions -/

section

variable (allowed : Step σ → Prop)

/-- The term is closed and in canonical form, and every native step in it is allowed. -/
def Admissible (t : Term β σ) : Prop :=
  t.Closed ∧ t.Canonical ∧ ∀ s, Term.native s ∈ t.subterms → allowed s

/-- What steps do is a function of the environment and of the terms that they get, and takes admissible
terms to admissible ones.  The machine does no more with values. -/
structure Functional (cfg : Machine.Setting β σ)
    (f : σ → Env β σ → List (Term β σ) → Except (Issue β) (Option (Term β σ))) : Prop where
  /-- The steps of the table are allowed. -/
  steps : ∀ s ∈ cfg.steps, allowed s
  /-- Definitions are admissible. -/
  unfoldable : ∀ c t, cfg.env.unfoldable c = some t → Admissible allowed t
  /-- The machine reads arguments back and goes on with the resulting term. -/
  direct : ∀ s, allowed s → cfg.direct s.body = none
  /-- Whatever the world, a step ends with what the function says. -/
  interp : ∀ s ts w, allowed s →
    outcome? (cfg.interp s.body cfg.env ts w) = some (f s.body cfg.env ts)
  /-- Results are admissible. -/
  admissible : ∀ s ts t, allowed s → (∀ a ∈ ts, Admissible allowed a) →
    f s.body cfg.env ts = .ok (some t) → Admissible allowed t

/-- The likeness that stands for `Admissible`. -/
def admissibleLikeness : Likeness β σ where
  closed := True
  canonical := True
  const _ := True
  blob := Eq
  step s s' := s = s' ∧ allowed s

/-- The setting, as something that evaluators are compared on. -/
def functionalGround (cfg : Machine.Setting β σ) : Ground β σ where
  steps := cfg.steps
  env := cfg.env
  interp _ := cfg.interp
  direct := cfg.direct
  like := admissibleLikeness allowed
  world _ := True
  issue := Eq

end

variable {allowed : Step σ → Prop} {cfg : Machine.Setting β σ}
  {f : σ → Env β σ → List (Term β σ) → Except (Issue β) (Option (Term β σ))} {t u : Term β σ}

theorem admissibleLikeness_strict : (admissibleLikeness allowed : Likeness β σ).Strict := ⟨id, And.left⟩

theorem admissibleLikeness_symmetric : (admissibleLikeness allowed : Likeness β σ).Symmetric :=
  ⟨Eq.symm, by rintro s _ ⟨rfl, hs⟩; exact ⟨rfl, hs⟩⟩

theorem admissibleLikeness_transitive : (admissibleLikeness allowed : Likeness β σ).Transitive :=
  ⟨Eq.trans, by rintro s _ _ ⟨rfl, hs⟩ ⟨rfl, _⟩; exact ⟨rfl, hs⟩⟩

theorem admissibleLikeness_keepsArity : (admissibleLikeness allowed : Likeness β σ).KeepsArity := by
  rintro s _ ⟨rfl, _⟩
  exact ⟨rfl, rfl⟩

theorem admissible_iff : Admissible allowed t ↔ (admissibleLikeness allowed).Alike 0 t t := by
  constructor
  · rintro ⟨hclosed, hcanonical, hsteps⟩
    refine Term.alike_self (fun _ => hclosed) (fun _ => hcanonical) fun u hu => ?_
    cases u with
    | blob b => exact rfl
    | native s => exact ⟨rfl, hsteps s hu⟩
    | _ => trivial
  · intro h
    exact ⟨h.closedBelow trivial, h.canonical trivial, fun s hs => (h.fits _ hs).2⟩

theorem admissible_args_iff {ts : List (Term β σ)} :
    (∀ t ∈ ts, Admissible allowed t) ↔ (admissibleLikeness allowed).AlikeArgs 0 ts ts := by
  rw [Term.alikeArgs_iff_forall₂, List.forall₂_same]
  exact forall₂_congr fun t _ => admissible_iff

theorem fair_functional : (functionalGround allowed cfg).tie.Fair (admissibleLikeness allowed) where
  exhausted _ := rfl
  overflow := .inr .overflow
  fired _ _ _ := ⟨trivial, trivial⟩
  debug level text := by
    refine .const fun w w' _ => ?_
    rw [Act.debug_run, Act.debug_run]
    cases w.debugging <;> cases w'.debugging <;> exact .ok trivial ⟨trivial, trivial⟩

theorem Functional.lawful (h : Functional allowed cfg f) : (functionalGround allowed cfg).Lawful where
  closed := trivial
  canonical := trivial
  const _ := trivial
  symm := admissibleLikeness_symmetric
  trans := admissibleLikeness_transitive
  arity := admissibleLikeness_keepsArity
  issue_trans := Eq.trans
  fair := fair_functional
  lookup hc := ⟨rfl, h.steps _ (List.mem_of_find?_eq_some hc)⟩
  unfoldable hc := admissible_iff.mp (h.unfoldable _ _ hc)
  interp := by
    rintro l s _ ts ts' ⟨rfl, hs⟩ hts
    obtain rfl := hts.eq admissibleLikeness_strict
    refine .const fun w w' _ => ?_
    have hrun := h.interp s ts w hs
    have hrun' := h.interp s ts w' hs
    cases hr : f s.body cfg.env ts with
    | error e =>
        rw [hr, outcome?_eq_error_iff] at hrun hrun'
        obtain ⟨w₁, hrun⟩ := hrun
        obtain ⟨w₁', hrun'⟩ := hrun'
        show Tie.Matches _ _ (cfg.interp s.body cfg.env ts w) (cfg.interp s.body cfg.env ts w')
        rw [hrun, hrun']
        exact .error (.issue rfl) ⟨trivial, trivial⟩
    | ok t? =>
        rw [hr, outcome?_eq_ok_iff] at hrun hrun'
        obtain ⟨w₁, hrun⟩ := hrun
        obtain ⟨w₁', hrun'⟩ := hrun'
        show Tie.Matches _ _ (cfg.interp s.body cfg.env ts w) (cfg.interp s.body cfg.env ts w')
        rw [hrun, hrun']
        refine .ok ?_ ⟨trivial, trivial⟩
        cases t? with
        | none => exact .none
        | some t =>
            have hadm := h.admissible s ts t hs (admissible_args_iff.mpr hts) hr
            exact .some (admissible_iff.mp hadm)
  direct hs := h.direct _ hs.2
  lasts l body ts := Lasts.const _

/-! ## Agreement -/

section

variable (cfg)

/-- Normalizing a term by reduction. -/
def reductions (t : Term β σ) (n : Nat) : Act β σ (Term β σ) :=
  Reduce.norm ⟨cfg.steps, .tactic, cfg.env, cfg.interp⟩ n t

end

section

variable {act : Nat → Act β σ (Term β σ)} {w : World β σ}

/-- What reduction is known to give, it settles on. -/
theorem settles_of_comes {x : Except (Issue β) (Term β σ)} {m : Ideal β (Term β σ)}
    (h : (functionalGround allowed cfg).Comes m fun _ => act) (hx : outcome? (m ()) = some x)
    (hrange : InRange act w) : Settles act w x := by
  obtain ⟨r, hy, hm⟩ := Ground.gives_iff.mp h w trivial
  have hover : overflowed r = false := by
    obtain ⟨N, hN⟩ := hy
    rw [← hN N (Nat.le_refl N) N (Nat.le_refl N)]
    exact hrange N
  have hr : outcome? r = some x := by
    generalize m () = o at hm hx
    cases hm with
    | ok hlike _ =>
        rw [hlike.eq admissibleLikeness_strict] at hx
        exact hx
    | error he _ =>
        cases he with
        | issue he =>
            rw [he] at hx
            exact hx
        | overflow => cases hx
    | escape he =>
        subst he
        cases hover
  obtain ⟨N, hN⟩ := hy
  exact ⟨N, fun n hn => by rw [← hr, ← hN N (Nat.le_refl N) n hn]⟩

theorem not_comes_overflow (hrange : InRange act w) :
    ¬ (functionalGround allowed cfg).Comes (throw .overflow) fun _ => act := by
  intro h
  obtain ⟨r, ⟨N, hN⟩, hm⟩ := Ground.gives_iff.mp h w trivial
  have hover : overflowed r = false := by
    rw [← hN N (Nat.le_refl N) N (Nat.le_refl N)]
    exact hrange N
  cases hm with
  | error he _ =>
      cases he with
      | overflow => cases hover
  | escape he =>
      subst he
      cases hover

variable {α : Type} {Γ : List (Term β σ)} {F : Nat → Machine.Eval β σ α} {m : Machine.Memory β σ}

/-- What the machine settles on, reduction settles on, with the term for the value. -/
theorem settles_of_ensures {P : List (Term β σ) → α → Prop} {g : α → Term β σ}
    (hF : ∀ n, (functionalGround allowed cfg).Ensures Γ (F n)
      (fun Γ' a => P Γ' a ∧ (functionalGround allowed cfg).Comes (pure (g a)) fun _ => act)
      fun h => (functionalGround allowed cfg).Comes (throw h) fun _ => act)
    (hm : (functionalGround allowed cfg).Filled Γ m.heap) (hrange : InRange act w)
    {x : Except (Issue β) α} (hx : Settles F m x) : Settles act w (x.map g) := by
  obtain ⟨N, hN⟩ := hx
  have hx := hN N (Nat.le_refl N)
  rcases hF N m hm trivial with hover | hends
  · exact absurd hover (not_comes_overflow hrange)
  · cases x with
    | ok a =>
        obtain ⟨s, hs⟩ := outcome?_eq_ok_iff.mp hx
        rw [hs] at hends
        obtain ⟨_, _, _, _, _, hcomes⟩ := hends
        exact settles_of_comes hcomes rfl hrange
    | error e =>
        obtain ⟨s, hs⟩ := outcome?_eq_error_iff.mp hx
        rw [hs] at hends
        exact settles_of_comes hends.1 rfl hrange

/-- Evaluations that halt in range settle. -/
theorem exists_settles_of_halts (hF : (functionalGround allowed cfg).Halts Γ fun _ => F)
    (hm : (functionalGround allowed cfg).Filled Γ m.heap) (hrange : InRange F m) :
    ∃ x, Settles F m x := by
  obtain ⟨r, ⟨N, hN⟩, hr⟩ := hF m hm trivial
  obtain ⟨x, -, hx⟩ := Settles.of_yields ⟨N, fun l hl n hn => hN l hl n hn⟩ hr hrange
  exact ⟨x, hx⟩

end

/-- What has settled has ended. -/
theorem Settles.ended {ρ α : Type} {F : Nat → EStateM (Halt β) ρ α} {s : ρ} {x : Except (Issue β) α}
    (h : Settles F s x) : ∃ n, Ended (F n s) := by
  obtain ⟨N, hN⟩ := h
  refine ⟨N, ?_⟩
  have hx := hN N (Nat.le_refl N)
  generalize F N s = r at hx
  cases r with
  | ok a s' => trivial
  | error e s' =>
      cases e with
      | issue e => trivial
      | _ => cases hx

/-- The empty heap has a value in none of its slots. -/
theorem filled_empty (G : Ground β σ) : G.Filled [] ({} : Machine.Heap β σ) where
  size := rfl
  good t ht := absurd ht List.not_mem_nil
  read {slot v} h := by
    rw [Machine.Heap.read_empty] at h
    cases h

/-- What the machine settles on, reduction settles on. -/
theorem Functional.reductions_settle (h : Functional allowed cfg f) (ht : Admissible allowed t)
    {w w' : World β σ} (hrange : InRange (reductions cfg t) w) {x : Except (Issue β) (Term β σ)}
    (hx : Settles (fun n => Machine.normal cfg n t) { world := w' } x) :
    Settles (reductions cfg t) w x := by
  have hsettles := settles_of_ensures (g := id)
    (fun _ => Ground.ensures_normal (l := 0) h.lawful (admissible_iff.mp ht)) (filled_empty _) hrange hx
  rwa [Except.map_id] at hsettles

/-- Where reduction settles, the machine settles. -/
theorem Functional.machine_settles (h : Functional allowed cfg f) (ht : Admissible allowed t)
    {w w' : World β σ} (hrange : InRange (fun n => Machine.normal cfg n t) { world := w' })
    {x : Except (Issue β) (Term β σ)} (hx : Settles (reductions cfg t) w x) :
    ∃ y, Settles (fun n => Machine.normal cfg n t) { world := w' } y := by
  obtain ⟨N, hended⟩ := hx.ended
  have hgood : (functionalGround allowed cfg).Good t := admissible_iff.mp ht
  have hend : (functionalGround allowed cfg).NormEndsIn N t := ⟨t, 0, w, hgood, trivial, hended⟩
  exact exists_settles_of_halts (Ground.halts_normal h.lawful hgood hend) (filled_empty _) hrange

/-- If the steps are functions, the machine ends on a closed term with what reduction ends with, and one
of the two ends if the other one does; provided that neither leaves the range of machine words. -/
theorem evaluators_agree {allowed : Step σ → Prop} {cfg : Machine.Setting β σ}
    {f : σ → Env β σ → List (Term β σ) → Except (Issue β) (Option (Term β σ))}
    (h : Functional allowed cfg f) {t : Term β σ} (ht : Admissible allowed t) (w w' : World β σ)
    (hreduce : InRange (reductions cfg t) w)
    (hmachine : InRange (fun n => Machine.normal cfg n t) { world := w' })
    (x : Except (Issue β) (Term β σ)) :
    Settles (reductions cfg t) w x ↔ Settles (fun n => Machine.normal cfg n t) { world := w' } x := by
  constructor
  · intro hx
    obtain ⟨y, hy⟩ := h.machine_settles ht hmachine hx
    obtain rfl := hx.unique (h.reductions_settle ht hreduce hy)
    exact hy
  · exact h.reductions_settle ht hreduce

/-! ## Twice a sum -/

/-- Addition of integers, where that is what the arguments are. -/
def sum? : List (Term Unit Unit) → Option (Term Unit Unit)
  | [.lit (.int a), .lit (.int b)] => some (.lit (.int (a + b)))
  | _ => none

/-- A setting with addition and a definition that uses it. -/
def adding : Machine.Setting Unit Unit where
  steps := [⟨0, "add", 2, {}, ()⟩]
  env := Env.define { moduleName := "Sums" } "twice"
    (some (.lam 1 (.app (.const "add") [.bvar 0, .bvar 0]))) false
  interp _ _ ts := pure (sum? ts)
  direct _ := none

/-- A term that calls the definition with a sum. -/
def twiceSum : Term Unit Unit :=
  .app (.const "twice") [.app (.const "add") [.lit (.int 20), .lit (.int 1)]]

theorem functional_adding : Functional (fun _ => True) adding fun _ _ ts => .ok (sum? ts) where
  steps _ _ := trivial
  unfoldable c t ht := by
    have hdefs : adding.env.defs =
      [("twice", ⟨some (.lam 1 (.app (.const "add") [.bvar 0, .bvar 0])), false⟩)] := rfl
    by_cases hc : c = "twice"
    · subst hc
      obtain rfl := Option.some.inj ht
      exact ⟨by simp [Term.Closed, Term.ClosedBelow, Term.ClosedBelowArgs],
        by simp [Term.Canonical, Term.CanonicalArgs, Term.isApp], fun _ _ => trivial⟩
    · have hnone : adding.env.lookup c = none := by
        have hc' : (c == "twice") = false := beq_false_of_ne hc
        rw [Env.lookup, Definitions.find?, hdefs, List.lookup_cons, hc', List.lookup_nil]
      rw [Env.unfoldable, hnone] at ht
      cases ht
  direct _ _ := rfl
  interp _ _ _ _ := rfl
  admissible s ts t _ _ ht := by
    have hsum : sum? ts = some t := Except.ok.inj ht
    unfold sum? at hsum
    split at hsum
    · cases hsum
      exact ⟨trivial, trivial, fun _ _ => trivial⟩
    · cases hsum

/-- The machine evaluates the sum once, reduction twice; both give the same number. -/
theorem evaluators_agree_twiceSum :
    Settles (fun n => Machine.normal adding n twiceSum) { world := {} } (.ok (.lit (.int 42))) := by
  refine (evaluators_agree functional_adding ?_ {} {} ?_ ?_ (.ok (.lit (.int 42)))).mp ?_
  · exact ⟨by simp [twiceSum, Term.Closed, Term.ClosedBelow, Term.ClosedBelowArgs],
      by simp [twiceSum, Term.Canonical, Term.CanonicalArgs, Term.isApp], fun _ _ => trivial⟩
  · intro n
    rcases n with _ | _ | _ | _ | _ | _ | _ | _ | _ | _ | _ | _ | n
    all_goals rfl
  · intro n
    rcases n with _ | _ | _ | _ | _ | _ | _ | _ | _ | _ | _ | _ | _ | _ | n
    all_goals rfl
  · refine ⟨12, fun n hn => ?_⟩
    obtain ⟨n, rfl⟩ := Nat.exists_eq_add_of_le' hn
    rfl

end TacticEngine
