/-
# TacticEngine.Proofs.Agreement.Switching -- one way to evaluate instead of the other, to any depth.

Two runs of alike metaprograms evaluate in different ways, and so do the runs that are nested in them.
Between them stands a third run: it evaluates like the first one, and whatever is nested in it evaluates like
in the second one.  The first and the third run go alike because their steps do.  The third and the second run
have the same steps, which are functions but for identities; so reduction and the machine agree on them.

Nothing is claimed of a run that leaves the range of machine words, but the third run is neither of the two
that are known to stay in range.  So where a step leaves the range, it is made to end with a message instead,
which marks this.  Then the third run stays in range if the first one does.
-/
import TacticEngine.Proofs.Agreement.Application
import TacticEngine.Proofs.Agreement.Depth

namespace TacticEngine.Native.Leeway

variable {κ α : Type} {Λ : Leeway κ} {E E' : Surroundings κ} {host : Host κ} {m : Message}

/-! ## Marked overflows -/

/-- The message in place of an overflow. -/
def mark (m : Message) : EStateM.Result (Halt (Content κ)) (World κ) α →
    EStateM.Result (Halt (Content κ)) (World κ) α
  | .error .overflow w => .error (.issue (.message m)) w
  | r => r

/-- What steps do, with the message in place of an overflow. -/
def markedInterp (m : Message) (host : Host κ) (l : Nat) : Interp (Content κ) (Body κ) :=
  fun b env ts w => mark m (interp host l b env ts w)

/-! ## The ground -/

/-- What two evaluations of one application are compared on: terms count up to identities, and overflows in
what steps do are marked. -/
def ground (Λ : Leeway κ) (m : Message) (host : Host κ) (r : Reduction (Content κ) (Body κ))
    (E : Surroundings κ) : Ground (Content κ) (Body κ) where
  steps := r.steps
  env := r.env
  interp := markedInterp m host
  direct := interpretDirect host
  like := Λ.exact.likeness
  world := E.Of
  issue := Λ.exact.issue

theorem lawful_ground (m : Message) (hhost : host.Heeds Λ.exact) {r : Reduction (Content κ) (Body κ)}
    (hr : Λ.exact.reduction r r) (hE : Λ.exact.surroundings False E E) :
    (Λ.ground m host r E).Lawful where
  closed := trivial
  canonical := trivial
  const _ := trivial
  symm := likeness_symmetric exact_symmetric
  trans := likeness_transitive exact_transitive
  arity := keepsArity
  issue_trans := issue_trans exact_transitive
  fair :=
    { exhausted _ := rfl
      overflow := .inr .overflow
      fired := fun hw _ _ => ⟨hw.1.noted _, hw.2.noted _⟩
      debug := fun level text => by
        refine .const fun w w' hw => ?_
        rw [Act.debug_of_eq_some level rfl, Act.debug_of_eq_some level rfl]
        exact .ok trivial ⟨hw.1.shown level text, hw.2.shown level text⟩ }
  lookup {c s} hc := by
    have hself := StepTable.lookup_rel And.left hr.steps c
    have hc' : StepTable.lookup r.steps c = some s := hc
    rw [hc'] at hself
    cases hself with
    | some hs => exact hs
  unfoldable {c t} hc := by
    have hself := hr.env.unfoldable c
    have hc' : r.env.unfoldable c = some t := hc
    rw [hc'] at hself
    cases hself with
    | some ht => exact ht
  interp l s s' ts ts' hs hts := by
    refine Tie.Follows.through (T := Λ.exact.tie False E E) (mark m) (mark m) (fun _ _ => id)
      (fun e w he => ?_) (fun x x' hx => ?_) ((follows_exact hhost hE l).2 hs.2.2.2 hr.env hts)
    · obtain rfl : e = .exhausted := he.resolve_right And.left
      exact ⟨_, _, rfl, rfl⟩
    · cases hx with
      | ok ha hs => exact .ok ha hs
      | error he hs =>
          cases he with
          | issue he => exact .error (.issue he) hs
          | overflow => exact .error (.issue (.message m)) hs
      | escape he => exact he.1.elim
  direct hs := direct_eq_none hhost hs
  lasts l b ts := by
    refine (lasts_interp host l b r.env ts).through (mark m) (mark m) (fun _ _ => id) (fun e w he => ?_)
      fun x x' hx => ?_
    · obtain rfl : e = .exhausted := he
      exact ⟨_, _, rfl, rfl⟩
    · cases hx with
      | ok ha hs =>
          subst ha hs
          exact .ok rfl rfl
      | error he hs =>
          subst he hs
          rename_i e w
          cases e <;> exact .error rfl rfl
      | escape he => exact he.elim

/-! ## Taking the mark off -/

/-- Nothing differs, but for the mark in place of an overflow. -/
def unmarking (m : Message) : Tie (Halt (Content κ)) (World κ) (Halt (Content κ)) (World κ) :=
  { Tie.same _ _ with halt := fun e e' => e = e' ∨ e = .issue (.message m) ∧ e' = .overflow }

theorem fair_unmarking : (unmarking m : Tie _ (World κ) _ _).Fair (Likeness.equal _ _) where
  exhausted _ := rfl
  overflow := .inr (.inl rfl)
  fired := by
    rintro w _ s _ ts ts' rfl rfl hts
    rw [hts.eq Likeness.equal_strict]
    rfl
  debug level text := by
    refine .const fun w w' hw => ?_
    obtain rfl : w = w' := hw
    cases Act.debug (β := Content κ) (σ := Body κ) level (fun _ => some text) w with
    | ok a w₁ => exact .ok trivial rfl
    | error e w₁ => exact .error (.inl rfl) rfl

/-- A carried out reduction is the same with marked overflows, but for the mark. -/
theorem unmarking_carry (l n : Nat) (r : Reduction (Content κ) (Body κ)) :
    (unmarking m).Follows Eq (carry host (markedInterp m host l) n r)
      fun l n => carry host (interp host l) n r := by
  have hS : Machine.Setting.Like (unmarking m) (Likeness.equal _ _) (fun _ => True)
      (machineSetting host (markedInterp m host l) r.steps r.env)
      (machineSetting host (interp host l) r.steps r.env) (interp host) := by
    refine machineSetting_like_equal (fun _ _ => Iff.rfl) (fun _ => Or.inl rfl) fun body ts => ?_
    refine Tie.Follows.through (T := Tie.same _ _) (mark m) id (fun _ _ => id) (fun e w he => ?_)
      (fun x x' hx => ?_) (lasts_interp host l body r.env ts)
    · obtain rfl : e = .exhausted := he
      exact ⟨_, _, rfl, rfl⟩
    · cases hx with
      | ok ha hs =>
          subst ha hs
          exact .ok rfl rfl
      | @error e _ w _ he hs =>
          subst he hs
          cases e with
          | overflow => exact .error (.inr ⟨rfl, rfl⟩) rfl
          | _ => exact .error (.inl rfl) rfl
      | escape he => exact he.elim
  exact (carry_follows fair_unmarking keepsArity_equal rfl hS (Term.alike_equal 0 _)
    (Term.alikeArgs_equal 0 _) n).imp fun _ _ h => h.eq Likeness.equal_strict

/-! ## Switching at the top -/

/-- On the ground of a reduction, carrying it out the one way goes like carrying it out the other way. -/
theorem switching_carry (hhost : host.Heeds Λ.exact) {r : Reduction (Content κ) (Body κ)}
    (hr : Λ.exact.reduction r r) (hE : Λ.exact.surroundings False E E) {b : Backend} (hb : b ≠ r.backend)
    (l n : Nat) :
    (loosely (ground Λ m host r E)).Follows (Λ.exact.likeness.Alike 0)
      (carry host (markedInterp m host l) n { r with backend := b })
      fun l n => carry host (markedInterp m host l) n r := by
  have hG := lawful_ground m hhost hr hE
  obtain ⟨backend, steps, env, t, as⟩ := r
  cases b with
  | reduce =>
      cases backend with
      | reduce => exact absurd rfl hb
      | compiled =>
          exact reduction_followed hG (fun _ _ => issue_symm exact_symmetric) hr.tactic hr.args hr.applied
  | compiled =>
      cases backend with
      | reduce => exact machine_followed hG hr.tactic hr.args
      | compiled => exact absurd rfl hb

/-! ## Excuses -/

/-- What would have to be excused for either of two reasons is excused for both. -/
theorem follows_and {α' : Type} {V : α → α' → Prop} {act : Act κ α}
    {F : Family (Halt (Content κ)) (World κ) α'} {x y z : Halt (Content κ) → Prop}
    (h : (Λ.escaping True x E E').Follows V act F) (h' : (Λ.escaping True y E E').Follows V act F)
    (hz : ∀ e, x e → y e → z e) : (Λ.escaping True z E E').Follows V act F := by
  intro w w' hw
  rcases h w w' hw with hmute | ⟨r, hy, hm⟩
  · exact .inl hmute
  rcases h' w w' hw with hmute | ⟨r', hy', hm'⟩
  · exact .inl hmute
  refine .inr ⟨r, hy, ?_⟩
  obtain rfl := hy.unique hy'
  generalize act w = r₀ at hm hm'
  cases hm with
  | ok ha hw₁ => exact .ok ha hw₁
  | error he hw₁ => exact .error he hw₁
  | escape he =>
      cases hm' with
      | error he' hw₁ => exact .error he' hw₁
      | escape he' => exact .escape (hz _ he he')

/-- The second run broke off for want of range, or because of the mark. -/
def Excused (m : Message) (e : Halt (Content κ)) : Prop := e = .overflow ∨ e = .issue (.message m)

/-- A run that is excused whatever marks an overflow is one that leaves the range. -/
theorem follows_of_marks {α' : Type} {V : α → α' → Prop} {act : Act κ α}
    {F : Family (Halt (Content κ)) (World κ) α'}
    (h : ∀ m, (Λ.escaping True (Excused m) E E').Follows V act F) :
    (Λ.tie True E E').Follows V act F := by
  refine follows_and (h ⟨none, .error, .tacticGotStuck, [], []⟩) (h ⟨none, .error, .tacticGotStuck, [""], []⟩)
    fun e he he' => ⟨trivial, ?_⟩
  rcases he with rfl | rfl
  · rfl
  · cases he' with
    | inl he' => cases he'
    | inr he' => cases he'

section

variable {x x' y : EStateM.Result (Halt (Content κ)) (World κ) (Term κ)}

theorem matches_switched (hΛ : Λ.Transitive) {r : Reduction (Content κ) (Body κ)}
    (hx : (Λ.escaping True (· = .issue (.message m)) E E').Matches (Λ.likeness.Alike 0) x x')
    (hy : (loosely (ground Λ m host r E')).Matches (Λ.exact.likeness.Alike 0) x' y) :
    (Λ.escaping True (Excused m) E E').Matches (Λ.likeness.Alike 0) x y := by
  cases hx with
  | ok ha hw =>
      cases hy with
      | ok ha' hw' =>
          exact .ok (ha.trans (likeness_transitive hΛ) (ha'.mono (likeness_le exact_le))) ⟨hw.1, hw'.2⟩
      | escape he => exact .escape (.inl he)
  | error he hw =>
      cases hy with
      | error he' hw' =>
          cases he with
          | issue he =>
              cases he' with
              | issue he' => exact .error (.issue (issue_trans hΛ he (issue_le exact_le he'))) ⟨hw.1, hw'.2⟩
          | overflow =>
              cases he' with
              | overflow => exact .error .overflow ⟨hw.1, hw'.2⟩
      | escape he' => exact .escape (.inl he')
  | escape hx =>
      subst hx
      cases hy with
      | error he' _ =>
          cases he' with
          | issue he' =>
              cases he'
              exact .escape (.inr rfl)
      | escape he' => exact .escape (.inl he')

theorem matches_unmarked (hx : (Λ.escaping True (Excused m) E E').Matches (Λ.likeness.Alike 0) x x')
    (hy : (unmarking m).Matches Eq x' y) :
    (Λ.escaping True (Excused m) E E').Matches (Λ.likeness.Alike 0) x y := by
  cases hy with
  | ok ha hw =>
      subst ha hw
      exact hx
  | error he hw =>
      subst hw
      rcases he with rfl | ⟨-, rfl⟩
      · exact hx
      · exact .escape (.inl rfl)
  | escape he => exact he.elim

end

/-! ## Any depth -/

/-- What is alike to itself is so without leeway. -/
theorem reduction_exact {r : Reduction (Content κ) (Body κ)} (h : Λ.reduction r r) :
    Λ.exact.reduction r r where
  steps := forall₂_self (fun _ => step_exact) h.steps
  env := h.env.self fun _ => alike_exact
  tactic := alike_exact h.tactic
  args := by
    have has := Term.alikeArgs_iff_forall₂.mp h.args
    exact Term.alikeArgs_iff_forall₂.mpr (forall₂_self (fun _ => alike_exact) has)
  applied := h.applied

/-- What something stands for is alike to itself. -/
theorem steps_right (hsymm : Λ.Symmetric) (htrans : Λ.Transitive) {ss ss' : List (Step κ)}
    (h : List.Forall₂ Λ.likeness.step ss ss') : List.Forall₂ Λ.likeness.step ss' ss' :=
  forall₂_comp (R := Λ.likeness.step) (T := Λ.likeness.step) (fun _ _ _ => (likeness_transitive htrans).step)
    ((forall₂_flip h).imp fun _ _ => (likeness_symmetric hsymm).step) h

theorem reduction_right (hsymm : Λ.Symmetric) (htrans : Λ.Transitive)
    {r r' : Reduction (Content κ) (Body κ)} (h : Λ.reduction r r') : Λ.reduction r' r' := by
  have hterm : ∀ t t', Λ.likeness.Alike 0 t t' → Λ.likeness.Alike 0 t' t :=
    fun _ _ ht => ht.symm (likeness_symmetric hsymm)
  exact
    { steps := steps_right hsymm htrans h.steps
      env := (h.env.symm hterm).trans (fun _ _ _ ht => ht.trans (likeness_transitive htrans)) h.env
      tactic := (hterm _ _ h.tactic).trans (likeness_transitive htrans) h.tactic
      args := (h.args.symm (likeness_symmetric hsymm)).trans (likeness_transitive htrans) h.args
      applied := fun hnil => h.applied (h.args.eq_nil_iff.mpr hnil) }

section

variable {n : Nat} {r r' : Reduction (Content κ) (Body κ)} (hhost : host.Indifferent Λ)
  (hr : Λ.reduction r r') (hsteps : Λ.StepsFollow True E E' host n r r')

include hhost hr hsteps

/-- Alike reductions by one way to evaluate go alike, with overflows of the steps on the right marked. -/
theorem follows_left (hb : r.backend = r'.backend) (m : Message) :
    (Λ.escaping True (· = .issue (.message m)) E E').Follows (Λ.likeness.Alike 0)
      (carry host (interp host n) n r) fun l n => carry host (markedInterp m host l) n r' := by
  have hS : Machine.Setting.Like (Λ.escaping True (· = .issue (.message m)) E E') Λ.likeness
      (fun _ => True) (machineSetting host (interp host n) r.steps r.env)
      (machineSetting host (interp host n) r'.steps r'.env) (markedInterp m host) := by
    refine setting_like hhost.heeds hhost.symm hr fun hs hts => ?_
    refine .through (T := Λ.tie True E E') id (mark m) (fun _ _ => id) (fun e w he => ⟨e, w, rfl, he⟩)
      (fun x x' hx => ?_) (hsteps _ _ _ _ hs hts)
    cases hx with
    | ok ha hw => exact .ok ha hw
    | error he hw =>
        cases he with
        | issue he => exact .error (.issue he) hw
        | overflow => exact .escape rfl
    | escape he =>
        obtain ⟨-, rfl⟩ := he
        exact .escape rfl
  exact carry_follows fair keepsArity hb hS hr.tactic hr.args n

/-- Whatever marks an overflow, alike reductions go alike by different ways to evaluate, if the steps they
fire do. -/
theorem follows_marked (hb : r.backend ≠ r'.backend) (hE : Λ.exact.surroundings False E' E') (m : Message) :
    (Λ.escaping True (Excused m) E E').Follows (Λ.likeness.Alike 0) (carry host (interp host n) n r)
      fun l n => carry host (interp host l) n r' := by
  have hself := reduction_exact (reduction_right hhost.symm hhost.trans hr)
  -- The run in between: the way to evaluate is that of the left, all else is as on the right.
  let q : Reduction (Content κ) (Body κ) := { r' with backend := r.backend }
  have hq : Λ.reduction r q := ⟨hr.steps, hr.env, hr.tactic, hr.args, hr.applied⟩
  have hswitched : (Λ.escaping True (Excused m) E E').Follows (Λ.likeness.Alike 0)
      (carry host (interp host n) n r) fun l n => carry host (markedInterp m host l) n r' := by
    refine (follows_left hhost hq hsteps rfl m).trans
      (fun l n => switching_carry hhost.exact hself hE hb l n)
      (fun w w' hw => ⟨w', hw, hw.2, hw.2⟩) (fun _ _ => id) (fun x e w hx he => ?_)
      fun _ _ _ => matches_switched hhost.trans
    cases hx with
    | error hh _ =>
        cases hh with
        | issue => rcases he with he | he <;> cases he
        | overflow => exact ⟨_, _, rfl, .inr ⟨trivial, rfl⟩⟩
    | escape hx =>
        subst hx
        rcases he with he | he <;> cases he
  refine hswitched.trans (fun l n => unmarking_carry l n r') (fun w w' hw => ⟨w', hw, rfl⟩) (fun _ _ => id)
    (fun x e w hx he => ?_) fun _ _ _ => matches_unmarked
  obtain rfl : e = .exhausted := he
  cases hx with
  | error hh _ => cases hh
  | escape hx => rcases hx with hx | hx <;> cases hx

end

/-- Alike reductions go alike, by whichever way to evaluate and to any depth of nesting. -/
theorem follows_evaluate (hhost : host.Indifferent Λ) (hE : Λ.surroundings True E E') (n : Nat)
    {r r' : Reduction (Content κ) (Body κ)} (hback : Λ.backend r.backend r'.backend) (hr : Λ.reduction r r') :
    (Λ.tie True E E').Follows (Λ.likeness.Alike 0) (evaluate host n r) fun l _ => evaluate host l r' := by
  have hE' : Λ.exact.surroundings False E' E' :=
    ⟨forall₂_self (fun _ => step_exact) (steps_right hhost.symm hhost.trans hE.registry), .inr rfl⟩
  refine (follows_of_carry hhost.heeds hE (fun n r r' _ hr hsteps => ?_) n).1 r r' hback hr
  by_cases hb : r.backend = r'.backend
  · exact follows_same hhost.heeds hhost.symm hb hr hsteps
  · exact follows_of_marks (follows_marked hhost hr hsteps hb hE')

end TacticEngine.Native.Leeway
