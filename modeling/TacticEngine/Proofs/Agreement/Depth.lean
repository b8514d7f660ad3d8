/-
# TacticEngine.Proofs.Agreement.Depth -- alike runs, to any depth of nesting.

Reductions fire steps, steps are programs, and programs ask for reductions.  If reductions go alike provided
that the steps they fire do, then by induction on the depth of nesting all go alike.  So it is for reductions
by one and the same way to evaluate, hence for runs that differ in identities only.
-/
import TacticEngine.Proofs.Native.Lockstep
import TacticEngine.Proofs.Native.Persistence

namespace TacticEngine.Native.Leeway

variable {κ : Type} {Λ : Leeway κ} {loose : Prop} {E E' : Surroundings κ} {host : Host κ}

/-- Steps leave no values alone. -/
theorem direct_eq_none (hhost : host.Heeds Λ) {s s' : Step κ} (hs : Λ.likeness.step s s') :
    interpretDirect host s.body = none := by
  have hbody := body_iff.mp hs.2.2.2
  generalize s.body = b at hbody
  generalize s'.body = b' at hbody
  cases hbody with
  | rule hl => rw [interpretDirect, hhost.direct hl, Option.map_none]
  | total | tactic => rfl

/-- What alike reductions are carried out with is alike. -/
theorem setting_like {T : Tie (Halt (Content κ)) (World κ) (Halt (Content κ)) (World κ)}
    (hhost : host.Heeds Λ) (hΛ : Λ.Symmetric) {r r' : Reduction (Content κ) (Body κ)}
    (hr : Λ.reduction r r') {i i' : Interp (Content κ) (Body κ)} {I : Nat → Interp (Content κ) (Body κ)}
    (hinterp : ∀ {s s' ts ts'}, Λ.likeness.step s s' → Λ.likeness.AlikeArgs 0 ts ts' →
      T.Follows (Option.Rel (Λ.likeness.Alike 0)) (i s.body r.env ts) fun l _ => I l s'.body r'.env ts') :
    Machine.Setting.Like T Λ.likeness (fun _ => True) (machineSetting host i r.steps r.env)
      (machineSetting host i' r'.steps r'.env) I where
  lookup c _ := StepTable.lookup_rel And.left hr.steps c
  plain_of_lookup _ _ _ := trivial
  const_of_plain _ _ := trivial
  unfoldable c _ := hr.env.unfoldable c
  interp := hinterp
  direct {s s'} hs := by
    show Option.Rel _ (interpretDirect host s.body) (interpretDirect host s'.body)
    rw [direct_eq_none hhost hs, direct_eq_none hhost ((likeness_symmetric hΛ).step hs)]
    exact .none
  unbound := .inl trivial

/-- Steps do alike things to alike terms, if the reductions that they ask for go alike. -/
theorem follows_interp (hhost : host.Heeds Λ) (hE : Λ.surroundings loose E E') {n : Nat}
    (hreduce : ∀ r r', Λ.backend r.backend r'.backend → Λ.reduction r r' →
      (Λ.tie loose E E').Follows (Λ.likeness.Alike 0) (evaluate host n r) fun l _ => evaluate host l r')
    {b b' : Body κ} (hb : Λ.body b b') {env env' : Env κ} (henv : Λ.env env env') {ts ts' : List (Term κ)}
    (hts : Λ.likeness.AlikeArgs 0 ts ts') :
    (Λ.tie loose E E').Follows (Option.Rel (Λ.likeness.Alike 0)) (interp host (n + 1) b env ts)
      fun l _ => interp host l b' env' ts' :=
  .of_level (fun _ => rfl) (follows_parallel hhost hE hreduce (Parallel.interpret hhost hb henv hts))

/-- With so much fuel, alike steps do alike things when two reductions fire them on alike terms. -/
def StepsFollow (Λ : Leeway κ) (loose : Prop) (E E' : Surroundings κ) (host : Host κ) (n : Nat)
    (r r' : Reduction (Content κ) (Body κ)) : Prop :=
  ∀ s s' ts ts', Λ.likeness.step s s' → Λ.likeness.AlikeArgs 0 ts ts' →
    (Λ.tie loose E E').Follows (Option.Rel (Λ.likeness.Alike 0)) (interp host n s.body r.env ts)
      fun l _ => interp host l s'.body r'.env ts'

/-- If alike reductions go alike wherever alike steps do alike things, then they do so, to any depth. -/
theorem follows_of_carry (hhost : host.Heeds Λ) (hE : Λ.surroundings loose E E')
    (hcarry : ∀ n r r', Λ.backend r.backend r'.backend → Λ.reduction r r' →
      Λ.StepsFollow loose E E' host n r r' → (Λ.tie loose E E').Follows (Λ.likeness.Alike 0)
        (carry host (interp host n) n r) fun l n => carry host (interp host l) n r') (n : Nat) :
    (∀ r r', Λ.backend r.backend r'.backend → Λ.reduction r r' →
      (Λ.tie loose E E').Follows (Λ.likeness.Alike 0) (evaluate host n r) fun l _ => evaluate host l r') ∧
    ∀ {b b' env env' ts ts'}, Λ.body b b' → Λ.env env env' → Λ.likeness.AlikeArgs 0 ts ts' →
      (Λ.tie loose E E').Follows (Option.Rel (Λ.likeness.Alike 0)) (interp host n b env ts)
        fun l _ => interp host l b' env' ts' := by
  -- Reductions fire steps and steps ask for reductions, each with one unit of fuel less.
  induction n with
  | zero => exact ⟨fun _ _ _ _ => .mute fun _ => .inl rfl, fun _ _ _ => .mute fun _ => .inl rfl⟩
  | succ n ih =>
      refine ⟨fun r r' hback hr => ?_, fun hb henv hts => follows_interp hhost hE ih.1 hb henv hts⟩
      have hsteps : Λ.StepsFollow loose E E' host n r r' :=
        fun s s' ts ts' hs hts => ih.2 hs.2.2.2 hr.env hts
      exact follows_evaluate_of_carry (hcarry n r r' hback hr hsteps)

/-- Alike reductions by one way to evaluate go alike, if the steps they fire do. -/
theorem follows_same (hhost : host.Heeds Λ) (hΛ : Λ.Symmetric) {n : Nat}
    {r r' : Reduction (Content κ) (Body κ)} (hback : r.backend = r'.backend) (hr : Λ.reduction r r')
    (hsteps : Λ.StepsFollow loose E E' host n r r') :
    (Λ.tie loose E E').Follows (Λ.likeness.Alike 0) (carry host (interp host n) n r)
      fun l n => carry host (interp host l) n r' := by
  have hS : Machine.Setting.Like (Λ.tie loose E E') Λ.likeness (fun _ => True)
      (machineSetting host (interp host n) r.steps r.env)
      (machineSetting host (interp host n) r'.steps r'.env) (interp host) :=
    setting_like hhost hΛ hr fun hs hts => hsteps _ _ _ _ hs hts
  exact carry_follows fair keepsArity hback hS hr.tactic hr.args n

/-- Runs that differ in identities only go alike, to any depth of nesting. -/
theorem follows_exact (hhost : host.Heeds Λ.exact) (hE : Λ.exact.surroundings loose E E') (n : Nat) :
    (∀ r r', Λ.exact.backend r.backend r'.backend → Λ.exact.reduction r r' →
      (Λ.exact.tie loose E E').Follows (Λ.exact.likeness.Alike 0) (evaluate host n r)
        fun l _ => evaluate host l r') ∧
    ∀ {b b' env env' ts ts'}, Λ.exact.body b b' → Λ.exact.env env env' →
      Λ.exact.likeness.AlikeArgs 0 ts ts' →
        (Λ.exact.tie loose E E').Follows (Option.Rel (Λ.exact.likeness.Alike 0)) (interp host n b env ts)
          fun l _ => interp host l b' env' ts' :=
  follows_of_carry hhost hE
    (fun _ _ _ hback hr hsteps => follows_same hhost exact_symmetric hback.1 hr hsteps) n

end TacticEngine.Native.Leeway
