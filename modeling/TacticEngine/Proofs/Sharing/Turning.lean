/-
# TacticEngine.Proofs.Sharing.Turning -- what terms fire before they go on as values.

A term turns into a value, firing some steps, if whatever further arguments it gets its reduction first
fires these and then goes on as the value does with the arguments.  This is what the machine may claim for
the work it has done: it has fired these steps, and it has the value.

A value that has been kept is had for nothing.  A term turns into it as well, and what the term is known
to fire with one value it fires with every other one.
-/
import TacticEngine.Proofs.Agreement.Halting
import TacticEngine.Proofs.Sharing.Reporting

namespace TacticEngine

variable {β σ α : Type}

namespace Ground

open Machine (Value sources)

section

variable (G : Ground β σ)

/-- Whatever it is applied to, the term fires these and then goes on as the value does. -/
def Turns (t : Term β σ) (v : Value β σ) (M : List (Firing β σ)) : Prop :=
  ∀ m as N, G.GoodArgs as → G.Goes m (G.App v as) N → G.Goes m (G.whnf (t.apps as)) (M ++ N)

/-- Whatever it is applied to, the term fires these, and reducing it breaks off for this reason. -/
def Breaks (t : Term β σ) (e : Halt β) (M : List (Firing β σ)) : Prop :=
  ∀ as, G.GoodArgs as → G.Goes (throw e) (G.whnf (t.apps as)) M

/-- Applied to arguments, the one value fires these and then goes on as the other one does. -/
def TurnsInto (v : Value β σ) (args : List (Term β σ)) (u : Value β σ) (M : List (Firing β σ)) : Prop :=
  ∀ m as N, G.GoodArgs as → G.Goes m (G.App u as) N → G.Goes m (G.App v (args ++ as)) (M ++ N)

/-- Applied to arguments, the value fires these and breaks off for this reason. -/
def BreaksInto (v : Value β σ) (args : List (Term β σ)) (e : Halt β) (M : List (Firing β σ)) : Prop :=
  ∀ as, G.GoodArgs as → G.Goes (throw e) (G.App v (args ++ as)) M

end

variable {G : Ground β σ} {Γ : List (Term β σ)} {t : Term β σ} {v u : Value β σ}
  {args : List (Term β σ)} {e : Halt β} {m : Ideal β (Term β σ)} {M N : List (Firing β σ)}

/-! ## One after the other -/

theorem Turns.into (hargs : G.GoodArgs args) (h : G.Turns t v M) (hv : G.TurnsInto v args u N) :
    G.Turns (t.apps args) u (M ++ N) := by
  intro m as K has hm
  rw [Term.apps_apps, List.append_assoc]
  exact h m _ _ (hargs.append has) (hv m as K has hm)

theorem Turns.breaksInto (hargs : G.GoodArgs args) (h : G.Turns t v M)
    (hv : G.BreaksInto v args e N) : G.Breaks (t.apps args) e (M ++ N) := by
  intro as has
  rw [Term.apps_apps]
  exact h _ _ _ (hargs.append has) (hv as has)

theorem Breaks.apps (hargs : G.GoodArgs args) (h : G.Breaks t e M) : G.Breaks (t.apps args) e M := by
  intro as has
  rw [Term.apps_apps]
  exact h _ (hargs.append has)

theorem Breaks.goes (h : G.Breaks t e M) : G.Goes (throw e) (G.whnf t) M := by
  have hnil := h [] .nil
  rwa [Term.apps_nil] at hnil

theorem Breaks.of_goes (happ : t.isApp = false) (h : G.Goes (throw e) (G.whnf t) M) :
    G.Breaks t e M := by
  intro as _
  by_cases hnil : as = []
  · subst hnil
    rwa [Term.apps_nil]
  · rw [Term.apps_of_not_isApp happ hnil]
    exact h.app_throw

theorem Turns.mono (h : G.Turns t v M) (hN : N.Sublist M) : G.Turns t v N :=
  fun m as K has hm => (h m as K has hm).mono (hN.append_right K)

theorem TurnsInto.refl (v : Value β σ) : G.TurnsInto v [] v [] := fun _ _ _ _ hm => hm

/-- Arguments that are only collected. -/
theorem TurnsInto.collect (hf : u.isFunction = v.isFunction) (hs : u.source = v.source.apps args) :
    G.TurnsInto v args u [] := by
  intro m as N _ hm
  rwa [app_eq hf hs] at hm

/-! ## Values without arguments -/

theorem Forced.goes_app (hv : G.Forced Γ v) : G.Goes (pure v.source) (G.App v []) [] := by
  refine ⟨hv.comes_app, fun L w r _ hL hy _ => ?_⟩
  obtain rfl := (hv.yields_app w).unique hy
  rwa [List.append_nil]

theorem Turns.goes (hv : G.Forced Γ v) (h : G.Turns t v M) : G.Goes (pure v.source) (G.whnf t) M := by
  have hnil := h _ [] [] .nil hv.goes_app
  rwa [Term.apps_nil, List.append_nil] at hnil

section

variable (hG : G.Lawful) (hq : G.Quiet)

include hG

/-- What is given for free may take the place of what is given. -/
theorem Goes.of_pure {x : Term β σ} {F : Family (Halt β) (World β σ) (Term β σ)} (hx : G.Good x)
    (hm : G.Goes m (fun _ _ => pure x) N) (hF : G.Goes (pure x) F M) : G.Goes m F (M ++ N) :=
  ⟨Comes.of_pure hG hm.gives hF.gives hx, hm.fires.of_pure hF.fires⟩

include hq

/-- A term that turns into a value becomes it. -/
theorem Turns.becomes (hv : G.Forced Γ v) (h : G.Turns t v M) : G.Becomes t v := by
  intro m as has hm
  have hfires : G.Fires (G.App v as) [] := by
    rw [App]
    cases v.isFunction with
    | true => exact fires_whnf hG hq (hv.1.good.apps has)
    | false => exact .const fun _ => rfl
  exact (h m as [] has ⟨hm, hfires⟩).gives

/-- The source of a value turns into the value. -/
theorem Turns.refl (hv : G.Forced Γ v) : G.Turns v.source v [] := by
  intro m as N has hm
  rw [App] at hm
  by_cases hf : v.isFunction = true
  · rwa [if_pos hf] at hm
  · rw [if_neg hf] at hm
    have hgood := hv.1.good.apps has
    have hfinal := hv.final (Bool.not_eq_true _ ▸ hf) as
    exact Goes.of_pure hG hgood hm ⟨hfinal.comes hG hgood, fires_whnf hG hq hgood⟩

/-- A term that is no application turns into the value that it is reduced to. -/
theorem Turns.of_goes (hv : G.Forced Γ v) (happ : t.isApp = false)
    (h : G.Goes (pure v.source) (G.whnf t) M) : G.Turns t v M := by
  have hgood := hv.1.good
  intro m as N has hm
  by_cases hnil : as = []
  · subst hnil
    rw [Term.apps_nil]
    have hpure : G.Goes m (fun _ _ => pure v.source) N := by
      refine ⟨hm.gives.of_yields fun w r hy => ?_, hm.fires.of_yields fun w r hy => ?_⟩
      · obtain rfl := hy.unique (hv.yields_app w)
        exact Yields.const (pure v.source) w
      · obtain rfl := (Yields.const (pure v.source) w).unique hy
        exact hv.yields_app w
    exact Goes.of_pure hG hgood hpure h
  · rw [Term.apps_of_not_isApp happ hnil]
    refine h.app hq ?_
    rw [App] at hm
    by_cases hf : v.isFunction = true
    · rw [if_pos hf] at hm
      exact hm.of_shifts ((hv.1.waiting hf).shifts hnil)
    · rw [if_neg hf] at hm
      replace hf := Bool.not_eq_true _ ▸ hf
      have hfinal := hv.final hf []
      rw [Term.apps_nil] at hfinal
      rcases hfinal.waiting_or_comes hG hgood with hw | hcomes
      · exact absurd hw ((hv.settled hf).not_waiting hG hgood)
      · exact Goes.of_pure hG (hgood.apps has) hm ⟨hcomes as has, fires_whnfApp hG hq hgood has⟩

/-! ## One value for another -/

omit hq in
/-- Values that a term is reduced to go on in the same way. -/
theorem Forced.app_congr (hv : G.Forced Γ v) (hu : G.Forced Γ u) (heq : u.source = v.source) :
    G.App u = G.App v := by
  have hsame : u.isFunction = v.isFunction := by
    cases hf : v.isFunction with
    | true =>
        by_contra hne
        have hsettled := hu.settled (Bool.not_eq_true _ ▸ hne)
        exact hsettled.not_waiting hG (heq ▸ hv.1.good) (hv.1.waiting hf)
    | false =>
        by_contra hne
        have hsettled := hv.settled hf
        exact hsettled.not_waiting hG (heq ▸ hv.1.good) (hu.1.waiting (Bool.not_eq_false _ ▸ hne))
  funext as
  rw [App, App, hsame, heq]

/-- What a term fires when it turns into one value, it fires when it turns into another one. -/
theorem Turns.exchange (hv : G.Forced Γ v) (hu : G.Forced Γ u) (h : G.Turns t v M)
    (h' : G.Turns t u []) : G.Turns t u M := by
  intro m as N has hm
  refine ⟨(h' m as N has hm).gives, fun L w r hw hL hy hr => ?_⟩
  -- if the application ends, then so does the term itself, with the source of both values
  have hended : ∃ k, Ended (G.whnf t k k w) := by
    obtain ⟨k, hk⟩ := hy
    have hrun := hk k (Nat.le_refl k) k (Nat.le_refl k)
    refine ⟨k, ?_⟩
    by_cases hnil : as = []
    · subst hnil
      rw [Term.apps_nil] at hrun
      rwa [hrun]
    · exact ((partsAt G k k).whnf hnil (by rwa [hrun])).1
  obtain ⟨k, hk⟩ := hended
  have hlasts := hG.lasts_whnf k k t
  have hmv := (h.goes hv).gives.matches hlasts hw hk
  have hmu := (h'.goes hu).gives.matches hlasts hw hk
  have heq : u.source = v.source := by
    change G.ideal.Matches _ (.ok v.source ()) _ at hmv
    change G.ideal.Matches _ (.ok u.source ()) _ at hmu
    change Ended (Reduce.whnf (G.reduction k) k t w) at hk
    generalize Reduce.whnf (G.reduction k) k t w = r₁ at hk hmv hmu
    cases hmv with
    | ok hv' _ =>
        cases hmu with
        | ok hu' _ => exact (hu'.eq hq.strict).trans (hv'.eq hq.strict).symm
    | escape he =>
        subst he
        exact hk.elim
  rw [hv.app_congr hG hu heq] at hm
  exact (h m as N has hm).fires L w r hw hL hy hr

end

end Ground

end TacticEngine
