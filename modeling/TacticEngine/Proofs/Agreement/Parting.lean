/-
# TacticEngine.Proofs.Agreement.Parting -- an application that ends does so part by part.

If the reduction of an application ends, so does that of its head, with the same fuel; and if the head
turns out to be a function that waits for arguments, what is left to do with the arguments ends with
less fuel.  The machine evaluates heads on their own, so this is what its progress is measured by.

More fuel does not change how a run ends.
-/
import TacticEngine.Proofs.Agreement.Final

namespace TacticEngine

variable {ε σ α γ : Type}

/-! ## Runs that end -/

/-- The run ended with a value or an issue: neither fuel nor a machine word was too small. -/
def Ended {β : Type} : EStateM.Result (Halt β) σ α → Prop
  | .ok _ _ => True
  | .error (.issue _) _ => True
  | .error _ _ => False

section

variable {β : Type} {m m' : EStateM (Halt β) σ α} {f f' : α → EStateM (Halt β) σ γ} {s : σ}

theorem Ended.of_bind (h : Ended ((m >>= f) s)) : Ended (m s) := by
  cases hr : m s with
  | ok a s' => trivial
  | error e s' =>
      rw [run_bind_error hr] at h
      cases e <;> exact h

/-- A run of two parts ended in the first one or in the second one. -/
theorem Ended.bind_iff : Ended ((m >>= f) s) ↔
    (∃ a s', m s = .ok a s' ∧ Ended (f a s')) ∨ ∃ e s', m s = .error (.issue e) s' := by
  cases hr : m s with
  | ok a s' =>
      rw [run_bind_ok hr]
      constructor
      · exact fun h => .inl ⟨a, s', rfl, h⟩
      · rintro (⟨_, _, heq, h⟩ | ⟨_, _, heq⟩)
        · cases heq
          exact h
        · cases heq
  | error e s' =>
      rw [run_bind_error hr]
      constructor
      · intro h
        cases e with
        | issue e => exact .inr ⟨e, s', rfl⟩
        | _ => exact h.elim
      · rintro (⟨_, _, heq, -⟩ | ⟨_, _, heq⟩)
        · cases heq
        · cases heq
          trivial

/-- How one run ends, so does another one. -/
def Steady (m m' : EStateM (Halt β) σ α) : Prop := ∀ s, Ended (m s) → m' s = m s

theorem Steady.refl (m : EStateM (Halt β) σ α) : Steady m m := fun _ _ => rfl

theorem Steady.exhausted : Steady (throw .exhausted) m := fun _ h => h.elim

theorem Steady.bind (hm : Steady m m') (hf : ∀ a, Steady (f a) (f' a)) :
    Steady (m >>= f) (m' >>= f') := by
  intro s h
  have heq := hm s h.of_bind
  cases hr : m s with
  | ok a s' =>
      rw [run_bind_ok hr] at h ⊢
      rw [run_bind_ok (heq.trans hr)]
      exact hf a s' h
  | error e s' => rw [run_bind_error hr, run_bind_error (heq.trans hr)]

theorem Steady.mapM {g g' : γ → EStateM (Halt β) σ α} (hg : ∀ c, Steady (g c) (g' c)) :
    ∀ cs : List γ, Steady (cs.mapM g) (cs.mapM g')
  | [] => by
      rw [List.mapM_nil, List.mapM_nil]
      exact .refl _
  | c :: cs => by
      rw [List.mapM_cons, List.mapM_cons]
      exact (hg c).bind fun a => (Steady.mapM hg cs).bind fun as => .refl _

theorem length_of_mapM {g : γ → EStateM (Halt β) σ α} : ∀ {cs : List γ} {as : List α} {s s' : σ},
    cs.mapM g s = .ok as s' → as.length = cs.length
  | [], as, s, s', h => by
      rw [List.mapM_nil] at h
      cases h
      rfl
  | c :: cs, as, s, s', h => by
      rw [List.mapM_cons] at h
      cases hc : g c s with
      | ok a s₁ =>
          rw [run_bind_ok hc] at h
          cases hcs : cs.mapM g s₁ with
          | ok as' s₂ =>
              rw [run_bind_ok hcs] at h
              cases h
              exact congrArg Nat.succ (length_of_mapM hcs)
          | error e s₂ =>
              rw [run_bind_error hcs] at h
              cases h
      | error e s₁ =>
          rw [run_bind_error hc] at h
          cases h

end

/-! ## More fuel -/

namespace Reduce

variable {β : Type} {cfg : Setting β σ}

theorem fire_steady {norm norm' : Term β σ → Act β σ (Term β σ)} (h : ∀ t, Steady (norm t) (norm' t))
    (s : Step σ) (t : Term β σ) (as : List (Term β σ)) :
    Steady (fire cfg norm s t as) (fire cfg norm' s t as) :=
  (Steady.mapM h _).bind fun _ => .refl _

/-- One more unit of fuel does not change how reductions end. -/
structure SteadyAt (cfg : Setting β σ) (n : Nat) : Prop where
  whnf : ∀ t, Steady (whnf cfg n t) (whnf cfg (n + 1) t)
  fireConstant : ∀ s t, Steady (fireConstant cfg n s t) (fireConstant cfg (n + 1) s t)
  whnfApp : ∀ t as, Steady (whnfApp cfg n t as) (whnfApp cfg (n + 1) t as)
  norm : ∀ t, Steady (norm cfg n t) (norm cfg (n + 1) t)

section

variable {n : Nat} (ih : SteadyAt cfg n)

include ih

theorem whnf_steady (t : Term β σ) : Steady (whnf cfg (n + 1) t) (whnf cfg (n + 2) t) := by
  cases t with
  | annotated e _ =>
      rw [whnf, whnf]
      exact ih.whnf e
  | ascribed e _ =>
      rw [whnf, whnf]
      split
      · exact ih.whnf e
      · exact .refl _
  | reify e =>
      rw [whnf, whnf]
      split
      · exact ih.whnf e
      · exact .refl _
  | const c =>
      rw [whnf, whnf]
      split
      · exact ih.fireConstant _ _
      · split
        · exact ih.whnf _
        · exact .refl _
  | native s =>
      rw [whnf, whnf]
      split
      · exact ih.fireConstant _ _
      · exact .refl _
  | app h as =>
      rw [whnf, whnf]
      exact (ih.whnf h).bind fun u => ih.whnfApp u as
  | case s brs =>
      rw [whnf, whnf]
      refine (ih.whnf s).bind fun v => ?_
      split
      · exact (Steady.refl _).bind fun b => ih.whnf b
      · exact .refl _
  | _ =>
      rw [whnf, whnf]
      · exact .refl _
      all_goals simp

theorem fireConstant_steady (s : Step σ) (t : Term β σ) :
    Steady (fireConstant cfg (n + 1) s t) (fireConstant cfg (n + 2) s t) := by
  rw [fireConstant, fireConstant]
  split
  · exact .refl _
  · refine (fire_steady ih.norm s t []).bind fun p => ?_
    obtain ⟨_ | _, u⟩ := p
    · exact .refl _
    · exact ih.whnf u

theorem whnfApp_steady (h : Term β σ) (as : List (Term β σ)) :
    Steady (whnfApp cfg (n + 1) h as) (whnfApp cfg (n + 2) h as) := by
  cases h with
  | app f bs =>
      rw [whnfApp, whnfApp]
      exact ih.whnf _
  | lam k b =>
      rw [whnfApp, whnfApp]
      split
      · exact (Steady.refl _).bind fun b => ih.whnf _
      · exact .refl _
  | _ =>
      rw [whnfApp, whnfApp]
      · split
        · exact .refl _
        · split
          · refine (fire_steady ih.norm _ _ as).bind fun p => ?_
            obtain ⟨_ | _, u⟩ := p
            · exact .refl _
            · exact ih.whnf u
          · exact .refl _
      all_goals simp

theorem norm_steady (t : Term β σ) : Steady (norm cfg (n + 1) t) (norm cfg (n + 2) t) := by
  rw [norm, norm]
  refine (ih.whnf t).bind fun u => ?_
  split
  · exact .refl _
  · cases u with
    | app h as => exact (Steady.mapM ih.norm as).bind fun _ => .refl _
    | _ => exact .refl _

end

theorem steadyAt (cfg : Setting β σ) (n : Nat) : SteadyAt cfg n := by
  induction n with
  | zero => exact ⟨fun _ => .exhausted, fun _ _ => .exhausted, fun _ _ => .exhausted, fun _ => .exhausted⟩
  | succ n ih =>
      exact ⟨whnf_steady ih, fireConstant_steady ih, whnfApp_steady ih, norm_steady ih⟩

end Reduce

/-! ## Parts of an application -/

namespace Ground

variable {β : Type}

section

variable (G : Ground β σ)

/-- The head is a function, and these are fewer arguments than it takes. -/
def Lacks (h : Term β σ) (as : List (Term β σ)) : Prop :=
  (∃ n b, h = .lam n b ∧ as.length < n) ∨ ∃ s, G.stepOf h = some s ∧ as.length < s.arity

/-- If the result is a function that waits for arguments, it goes on with them until it ends, with less
than the given amount of fuel. -/
def Leaves (l n : Nat) (as : List (Term β σ)) :
    EStateM.Result (Halt β) (World β σ) (Term β σ) → Prop
  | .ok u w => ∀ h xs, u = h.apps xs → G.Lacks h xs → ∃ k < n, Ended (G.whnfApp h (xs ++ as) l k w)
  | .error _ _ => True

/-- The run ends and leaves something that ends, too. -/
def Parts (l n : Nat) (as : List (Term β σ)) (act : Act β σ (Term β σ)) (w : World β σ) : Prop :=
  Ended (act w) ∧ G.Leaves l n as (act w)

end

variable {G : Ground β σ} {l n : Nat} {as : List (Term β σ)} {w : World β σ}

theorem Lacks.isApp {h : Term β σ} (hh : G.Lacks h as) : h.isApp = false := by
  rcases hh with ⟨k, b, rfl, -⟩ | ⟨s, hs, -⟩
  · rfl
  · exact isApp_of_stepOf hs

theorem Lacks.still {h : Term β σ} (hh : G.Lacks h as) : G.Still h := by
  rcases hh with ⟨k, b, rfl, -⟩ | ⟨s, hs, hlt⟩
  · exact still_lam k b
  · exact still_step hs (Nat.ne_of_gt (Nat.lt_of_le_of_lt (Nat.zero_le _) hlt))

theorem Parts.mono {n' : Nat} (hn : n ≤ n') {act : Act β σ (Term β σ)} (h : G.Parts l n as act w) :
    G.Parts l n' as act w := by
  refine ⟨h.1, ?_⟩
  have hleaves := h.2
  generalize act w = r at hleaves ⊢
  cases r with
  | ok u w' =>
      intro x xs heq hlacks
      obtain ⟨k, hk, hended⟩ := hleaves x xs heq hlacks
      exact ⟨k, Nat.lt_of_lt_of_le hk hn, hended⟩
  | error => trivial

theorem Parts.bind {m : Act β σ α} {f f' : α → Act β σ (Term β σ)} (h : Ended ((m >>= f) w))
    (hf : ∀ a w', m w = .ok a w' → Ended (f a w') → G.Parts l n as (f' a) w') :
    G.Parts l n as (m >>= f') w := by
  rcases Ended.bind_iff.mp h with ⟨a, w', hr, hend⟩ | ⟨e, w', hr⟩
  · have hparts := hf a w' hr hend
    rwa [Parts, run_bind_ok hr]
  · rw [Parts, run_bind_error hr]
    exact ⟨trivial, trivial⟩

/-- A head that stays as it is, in front of arguments that are too few or do not matter to it. -/
theorem Parts.pure {h : Term β σ} {bs : List (Term β σ)} (happ : h.isApp = false)
    (hleft : G.Lacks h bs → ∃ k < n, Ended (G.whnfApp h (bs ++ as) l k w)) :
    G.Parts l n as (Pure.pure (h.apps bs)) w := by
  refine ⟨trivial, fun x xs heq hlacks => ?_⟩
  obtain ⟨rfl, rfl⟩ := Term.apps_inj happ hlacks.isApp heq
  exact hleft hlacks

/-- The parts of an application, and those of one whose head has been reduced. -/
structure PartsAt (G : Ground β σ) (l n : Nat) : Prop where
  whnf : ∀ {t as w}, as ≠ [] → Ended (G.whnf (t.apps as) l n w) →
    G.Parts l n as (G.whnf t l n) w
  whnfApp : ∀ {h bs as w}, as ≠ [] → Ended (G.whnfApp h (bs ++ as) l n w) →
    G.Parts l (n + 1) as (G.whnfApp h bs l n) w

theorem steady_whnf (l n : Nat) (t : Term β σ) : Steady (G.whnf t l n) (G.whnf t l (n + 1)) :=
  (Reduce.steadyAt _ n).whnf t

/-- A function that is applied further goes on with all its arguments at once. -/
theorem Lacks.collect {h : Term β σ} {xs : List (Term β σ)} (hlacks : G.Lacks h xs)
    (hended : Ended (G.whnfApp (h.apps xs) as l n w)) :
    ∃ k ≤ n, Ended (G.whnfApp h (xs ++ as) l k w) := by
  by_cases hxs : xs = []
  · subst hxs
    rw [Term.apps_nil] at hended
    exact ⟨n, Nat.le_refl n, hended⟩
  · have happ : (h.apps xs).isApp = true := by
      rw [Term.apps_of_not_isApp hlacks.isApp hxs]
      rfl
    obtain _ | n := n
    · exact hended.elim
    rw [whnfApp_of_isApp happ, Term.apps_apps,
      Term.apps_of_not_isApp hlacks.isApp (List.append_ne_nil_of_left_ne_nil hxs as)] at hended
    obtain _ | n := n
    · exact hended.elim
    rw [whnf, Reduce.whnf] at hended
    -- the head is reduced once more, to itself
    have hhead : Reduce.whnf (G.reduction l) n h w = .ok h w := by
      have hend : Ended (G.whnf h l n w) := hended.of_bind
      have hsucc := steady_whnf l n h w hend
      have hsucc' := steady_whnf l (n + 1) h w (hsucc ▸ hend)
      have hstill : G.whnf h l (n + 2) w = .ok h w := congrFun (hlacks.still l n) w
      exact (hsucc.symm.trans hsucc'.symm).trans hstill
    rw [run_bind_ok hhead] at hended
    exact ⟨n, by omega, hended⟩

theorem whnfApp_parts (ih : PartsAt G l n) {h : Term β σ} {bs : List (Term β σ)} (has : as ≠ [])
    (hended : Ended (G.whnfApp h (bs ++ as) l (n + 1) w)) :
    G.Parts l (n + 2) as (G.whnfApp h bs l (n + 1)) w := by
  have hleft : ∃ k < n + 2, Ended (G.whnfApp h (bs ++ as) l k w) :=
    ⟨n + 1, Nat.lt_succ_self _, hended⟩
  by_cases happ : h.isApp = true
  · rw [whnfApp_of_isApp happ, ← Term.apps_apps] at hended
    rw [whnfApp_of_isApp happ]
    exact (ih.whnf has hended).mono (by omega)
  rw [Bool.not_eq_true] at happ
  by_cases hlam : ∃ k b, h = .lam k b
  · obtain ⟨k, b, rfl⟩ := hlam
    by_cases hk : k ≤ bs.length
    · rw [Ground.whnfApp, Reduce.whnfApp, if_pos (by rw [List.length_append]; omega),
        List.take_append_of_le_length hk, List.drop_append_of_le_length hk] at hended
      rw [Ground.whnfApp, Reduce.whnfApp, if_pos hk]
      refine Parts.bind hended fun b' w' _ hb => ?_
      rw [← Term.apps_apps] at hb
      exact (ih.whnf has hb).mono (by omega)
    · rw [whnfApp_lam_of_lt (Nat.lt_of_not_le hk)]
      exact .pure rfl fun _ => hleft
  · cases hs : G.stepOf h with
    | none =>
        have hlam : ∀ k b, h ≠ .lam k b := fun k b heq => hlam ⟨k, b, heq⟩
        rw [whnfApp_of_none happ hlam hs]
        exact .pure happ fun _ => hleft
    | some s =>
        by_cases hle : s.arity ≤ bs.length
        · rw [whnfApp_step hs (by rw [List.length_append]; omega), firing_eq,
            List.take_append_of_le_length hle, List.drop_append_of_le_length hle] at hended
          rw [whnfApp_step hs hle, firing_eq]
          refine Parts.bind hended fun now w₁ hnow hrest => ?_
          refine Parts.bind hrest fun _ w₂ _ hrest => ?_
          refine Parts.bind hrest fun _ w₃ _ hrest => ?_
          refine Parts.bind hrest fun r w₄ _ hrest => ?_
          cases r with
          | some u =>
              dsimp only at hrest ⊢
              rw [← Term.apps_apps] at hrest
              exact (ih.whnf has hrest).mono (by omega)
          | none =>
              -- the step has all the arguments that it takes
              refine .pure happ fun hlacks => ?_
              have hlen := length_of_mapM hnow
              rw [List.length_take] at hlen
              rcases hlacks with ⟨k, b, rfl, -⟩ | ⟨s', hs', hlt⟩
              · cases hs
              · obtain rfl : s = s' := Option.some.inj (hs.symm.trans hs')
                rw [List.length_append] at hlt
                omega
        · rw [whnfApp_step_of_lt hs (Nat.lt_of_not_le hle)]
          exact .pure happ fun _ => hleft

theorem whnf_parts (ih : PartsAt G l n) {t : Term β σ} (has : as ≠ [])
    (hended : Ended (G.whnf (t.apps as) l (n + 1) w)) :
    G.Parts l (n + 1) as (G.whnf t l (n + 1)) w := by
  by_cases happ : t.isApp = true
  · obtain ⟨f, bs, rfl⟩ := Term.isApp_eq_true_iff.mp happ
    obtain ⟨a, as', rfl⟩ := List.exists_cons_of_ne_nil has
    rw [Term.apps, whnf, Reduce.whnf] at hended
    rw [whnf, Reduce.whnf]
    exact Parts.bind hended fun u w' _ hu => ih.whnfApp has hu
  · rw [Bool.not_eq_true] at happ
    rw [Term.apps_of_not_isApp happ has, whnf, Reduce.whnf] at hended
    have hsame := steady_whnf l n t w hended.of_bind
    rw [Parts, hsame]
    refine ⟨hended.of_bind, ?_⟩
    rcases Ended.bind_iff.mp hended with ⟨u, w', hr, hu⟩ | ⟨e, w', hr⟩
    · show G.Leaves l (n + 1) as (Reduce.whnf (G.reduction l) n t w)
      rw [hr]
      rintro x xs rfl hlacks
      obtain ⟨k, hk, hrest⟩ := hlacks.collect hu
      exact ⟨k, Nat.lt_succ_of_le hk, hrest⟩
    · show G.Leaves l (n + 1) as (Reduce.whnf (G.reduction l) n t w)
      rw [hr]
      trivial

theorem partsAt (G : Ground β σ) (l n : Nat) : PartsAt G l n := by
  induction n with
  | zero => exact ⟨fun _ h => h.elim, fun _ h => h.elim⟩
  | succ n ih => exact ⟨whnf_parts ih, whnfApp_parts ih⟩

end Ground

end TacticEngine
