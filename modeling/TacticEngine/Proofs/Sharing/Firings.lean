/-
# TacticEngine.Proofs.Sharing.Firings -- what a reduction fires.

The journal of a world lists the firings of steps, each with its normalized arguments.  A family of runs
`Fires` a list of them if every run that ends has added at least these, in this order.  Here likeness of
terms is equality, and nothing but the evaluators fires steps; so what one part of a run fires can be put
in front of what the next part fires.

`Reports` says this together with the outcome: there is one rule for each way in which a reduction goes
on, as there is for outcomes alone.
-/
import TacticEngine.Proofs.Agreement.Parting
import TacticEngine.Proofs.Run.Outcome

namespace TacticEngine

variable {β σ α α' γ γ' : Type}

/-- A firing of a step: the step, and the arguments in normal form. -/
abbrev Firing (β σ : Type) := Step σ × List (Term β σ)

namespace World

/-- The firings of steps, in order. -/
def firings (w : World β σ) : List (Firing β σ) :=
  w.journal.reverse.filterMap fun
    | .fired s ts => some (s, ts)
    | _ => none

theorem firings_fired (s : Step σ) (ts : List (Term β σ)) (w : World β σ) :
    (w.noted (.fired s ts)).firings = w.firings ++ [(s, ts)] := by
  simp [firings, noted]

end World

/-- What comes after a part of a run that is known. -/
theorem Yields.rest {ε ρ : Type} {F : Family ε ρ α} {K : α → Family ε ρ γ} {s s' : ρ} {a : α}
    {r : EStateM.Result ε ρ γ} (h : Yields F s (.ok a s'))
    (hr : Yields (fun l n => F l n >>= fun x => K x l n) s r) : Yields (K a) s' r := by
  obtain ⟨N, hN⟩ := h
  obtain ⟨N', hN'⟩ := hr
  refine ⟨max N N', fun l hl n hn => ?_⟩
  exact (run_bind_ok (hN l (by omega) n (by omega))).symm.trans (hN' l (by omega) n (by omega))

namespace Ground

section

variable (G : Ground β σ)

/-- Terms are like only themselves, and what steps do fires no steps. -/
structure Quiet : Prop where
  strict : G.like.Strict
  interp : ∀ l {s} ts w, G.like.step s s →
    (final (G.interp l s.body G.env ts w)).firings = w.firings

/-- Every run that ends has fired these, in this order. -/
def Fires (F : Family (Halt β) (World β σ) α) (M : List (Firing β σ)) : Prop :=
  ∀ L w r, G.world w → L.Sublist w.firings → Yields F w r → Ended r →
    (L ++ M).Sublist (final r).firings

/-- The family gives the outcome, and it fires these on the way. -/
structure Reports (V : α → α' → Prop) (m : Ideal β α) (F : Family (Halt β) (World β σ) α')
    (M : List (Firing β σ)) : Prop where
  gives : G.Gives V m F
  fires : G.Fires F M

/-- A term is reported. -/
abbrev Goes (m : Ideal β (Term β σ)) (F : Family (Halt β) (World β σ) (Term β σ))
    (M : List (Firing β σ)) : Prop := G.Reports (G.like.Alike 0) m F M

/-- A list of terms is reported. -/
abbrev GoAll (m : Ideal β (List (Term β σ))) (F : Family (Halt β) (World β σ) (List (Term β σ)))
    (M : List (Firing β σ)) : Prop := G.Reports (G.like.AlikeArgs 0) m F M

end

variable {G : Ground β σ} {V : α → α' → Prop} {U : γ → γ' → Prop} {m : Ideal β α} {m' : Ideal β γ}
  {F F' : Family (Halt β) (World β σ) α'} {M N : List (Firing β σ)}

/-! ## Firings of families -/

theorem Fires.mono (h : G.Fires F M) (hN : N.Sublist M) : G.Fires F N :=
  fun L w r hw hL hy hr => (hN.append_left L).trans (h L w r hw hL hy hr)

theorem Fires.of_yields (hF : ∀ w r, Yields F' w r → Yields F w r) (h : G.Fires F M) :
    G.Fires F' M :=
  fun L w r hw hL hy hr => h L w r hw hL (hF w r hy) hr

/-- One run that leaves the firings as they are. -/
theorem Fires.const {act : Act β σ α'} (h : ∀ w, (final (act w)).firings = w.firings) :
    G.Fires (fun _ _ => act) [] := by
  intro L w r _ hL hy _
  obtain rfl := (Yields.const act w).unique hy
  rwa [h, List.append_nil]

/-- What does nothing fires nothing, so what it fires may follow on anything. -/
theorem Fires.of_pure {a : α} (h : G.Fires (fun _ _ => pure a) N) (hF : G.Fires F M) :
    G.Fires F (M ++ N) := by
  intro L w r hw hL hy hr
  have hself := h w.firings w _ hw (List.Sublist.refl _) (Yields.const (pure a) w) trivial
  have hlen : (w.firings ++ N).length ≤ w.firings.length := hself.length_le
  rw [List.length_append] at hlen
  obtain rfl := List.eq_nil_of_length_eq_zero (show N.length = 0 by omega)
  rw [List.append_nil]
  exact hF L w r hw hL hy hr

theorem Fires.bind {a : α} {K : α' → Family (Halt β) (World β σ) γ'} (h : G.Gives V (pure a) F)
    (hF : G.Fires F M) (hK : ∀ a', V a a' → G.Fires (K a') N) :
    G.Fires (fun l n => F l n >>= fun x => K x l n) (M ++ N) := by
  intro L w r hw hL hy hr
  obtain ⟨r₁, hy₁, hm⟩ := gives_iff.mp h w hw
  cases hm with
  | ok ha hw' =>
      rw [← List.append_assoc]
      exact hK _ ha _ _ r hw' (hF L w _ hw hL hy₁ trivial) (hy₁.rest hy) hr
  | escape he =>
      subst he
      obtain rfl := hy₁.bind_error.unique hy
      exact hr.elim

theorem Fires.bind_throw {e : Halt β} {K : α' → Family (Halt β) (World β σ) γ'}
    (h : G.Gives V (throw e) F) (hF : G.Fires F M) :
    G.Fires (fun l n => F l n >>= fun x => K x l n) M := by
  intro L w r hw hL hy hr
  obtain ⟨r₁, hy₁, hm⟩ := gives_iff.mp h w hw
  have hbreak {e' : Halt β} {w' : World β σ} (hy₁ : Yields F w (.error e' w')) :
      (L ++ M).Sublist (final r).firings := by
    obtain rfl := hy₁.bind_error.unique hy
    exact hF L w _ hw hL hy₁ (by cases e' <;> exact hr)
  cases hm with
  | error _ _ => exact hbreak hy₁
  | escape _ => exact hbreak hy₁

/-- What is known to leave the range of a machine word is known to fire anything. -/
theorem Fires.of_overflow (h : G.Gives V (throw .overflow) F) : G.Fires F M := by
  intro L w r hw _ hy hr
  obtain ⟨r', hy', hm⟩ := gives_iff.mp h w hw
  obtain rfl := hy'.unique hy
  cases hm with
  | error he _ =>
      cases he with
      | overflow => exact hr.elim
  | escape he =>
      subst he
      exact hr.elim

theorem Fires.bounded {a? : Option α} {K : α → Family (Halt β) (World β σ) γ'}
    (h : ∀ a, a? = some a → G.Fires (K a) M) :
    G.Fires (fun l n => Act.bounded a? >>= fun a => K a l n) M := by
  cases a? with
  | none =>
      intro L w r _ _ hy hr
      have hover : Yields (fun l n => Act.bounded (none : Option α) >>= fun a => K a l n) w
          (.error .overflow w) := Yields.const (throw Halt.overflow) w
      obtain rfl := hover.unique hy
      exact hr.elim
  | some a => exact h a rfl

/-! ## Outcomes with firings -/

namespace Reports

theorem pure {a : α} {a' : α'} (h : V a a') : G.Reports V (Pure.pure a) (fun _ _ => Pure.pure a') [] :=
  ⟨.pure h, Fires.const fun _ => rfl⟩

theorem mono (h : G.Reports V m F M) (hN : N.Sublist M) : G.Reports V m F N :=
  ⟨h.gives, h.fires.mono hN⟩

theorem bind_pure {a : α} {K : α' → Family (Halt β) (World β σ) γ'} (h : G.Reports V (Pure.pure a) F M)
    (hK : ∀ a', V a a' → G.Reports U m' (K a') N) :
    G.Reports U m' (fun l n => F l n >>= fun x => K x l n) (M ++ N) :=
  ⟨h.gives.bind_pure fun a' ha => (hK a' ha).gives, h.fires.bind h.gives fun a' ha => (hK a' ha).fires⟩

theorem bind_throw {e : Halt β} {K : α' → Family (Halt β) (World β σ) γ'}
    (h : G.Reports V (throw e) F M) :
    G.Reports U (throw e) (fun l n => F l n >>= fun x => K x l n) M :=
  ⟨h.gives.bind_throw, h.fires.bind_throw h.gives⟩

theorem bounded {a? : Option α} {K : α → Family (Halt β) (World β σ) γ'}
    (h : ∀ a, a? = some a → G.Reports U m' (K a) M) :
    G.Reports U m' (fun l n => Act.bounded a? >>= fun a => K a l n) M :=
  ⟨.bounded fun a ha => (h a ha).gives, .bounded fun a ha => (h a ha).fires⟩

/-- How fuel is counted makes no difference. -/
theorem shift (a b : Nat) (hshift : ∀ l n, F' l (n + a) = F l (n + b)) (h : G.Reports V m F M) :
    G.Reports V m F' M :=
  ⟨Tie.Follows.shift a b hshift h.gives,
    h.fires.of_yields fun w _ => Yields.shift b a fun l n => by rw [hshift]⟩

theorem of_shifts (hshifts : Shifts F F') (h : G.Reports V m F M) : G.Reports V m F' M := by
  obtain ⟨a, b, hshift⟩ := hshifts
  exact h.shift a b hshift

theorem of_succ (hsucc : ∀ l n, F' l (n + 1) = F l n) (h : G.Reports V m F M) : G.Reports V m F' M :=
  h.shift 1 0 hsucc

theorem succ (h : G.Reports V m (fun l n => F l (n + 1)) M) : G.Reports V m F M :=
  h.of_succ fun _ _ => rfl

theorem of_overflow (h : G.Gives V (throw Halt.overflow) F) : G.Reports V m F M :=
  ⟨h.of_overflow, Fires.of_overflow h⟩

theorem note (hG : G.Lawful) {s : Step σ} {ts : List (Term β σ)} (hs : G.like.step s s)
    (hts : G.GoodArgs ts) : G.Reports (fun _ _ => True) (Pure.pure ())
      (fun _ _ => Act.note (.fired s ts)) [(s, ts)] := by
  refine ⟨hG.gives_note hs hts, fun L w r _ hL hy _ => ?_⟩
  obtain rfl := (Yields.const (Act.note (.fired s ts)) w).unique hy
  exact (World.firings_fired s ts w).symm ▸ hL.append_right [(s, ts)]

theorem debug (hG : G.Lawful) (level : LogLevel) (text : String) :
    G.Reports (fun _ _ => True) (Pure.pure ()) (fun _ _ => Act.debug level fun _ => some text) [] := by
  refine ⟨hG.gives_debug level text, .const fun w => ?_⟩
  rw [Act.debug_run]
  cases w.debugging <;> rfl

theorem act (hq : G.Quiet) {s : Step σ} {ts : List (Term β σ)} {m : Ideal β (Option (Term β σ))}
    (hs : G.like.step s s) (h : G.Acts m s ts) :
    G.Reports (Option.Rel (G.like.Alike 0)) m (G.act s ts) [] := by
  refine ⟨h, fun L w r _ hL hy _ => ?_⟩
  obtain ⟨N, hN⟩ := hy
  have hrun := hN N (Nat.le_refl N) N (Nat.le_refl N)
  rw [← hrun, List.append_nil]
  exact (hq.interp N ts w hs).symm ▸ hL

end Reports

/-! ## What has been fired stays in the journal -/

section Keeping

variable (hG : G.Lawful) (hq : G.Quiet) (keep : List (Firing β σ) → Prop)
  (hkeep : ∀ L x, keep L → keep (L ++ [x]))

include hG hq hkeep

/-- Reductions keep what is kept by adding further firings. -/
theorem Quiet.alikeAt (l n : Nat) :
    Reduce.AlikeAt (Tie.keeping (fun w => G.world w ∧ keep w.firings) fun _ => True) G.like
      (G.reduction l) (G.reduction 0) G.interp n := by
  have hfair : (Tie.keeping (fun w => G.world w ∧ keep w.firings) fun _ => True).Fair G.like := by
    refine ⟨nofun, .inl nofun, ?_, fun level text => .const ?_⟩
    · rintro w _ s s' ts ts' ⟨rfl, hw, hk⟩ hs hts
      obtain rfl := hq.strict.step_eq hs
      obtain rfl := hts.eq hq.strict
      refine ⟨rfl, (hG.fair.fired ⟨hw, hw⟩ hs hts).1, ?_⟩
      rw [World.firings_fired]
      exact hkeep _ _ hk
    · rintro w _ ⟨rfl, hw, hk⟩
      have hworld := Makes.of_follows (V := fun _ => True) (hG.fair.debug level text)
        (fun _ _ _ => trivial) w hw
      rw [Act.debug_run] at hworld ⊢
      cases hd : w.debugging with
      | false => exact .ok trivial ⟨rfl, hw, hk⟩
      | true =>
          rw [hd] at hworld
          exact .ok trivial ⟨rfl, hworld.2, hk⟩
  have hlike := hG.reduction_like l
  refine Reduce.alikeAt hfair hG.arity ⟨hlike.flags, hlike.lookup, hlike.unfoldable, ?_⟩ n
  intro s s' ts ts' hs hts
  obtain rfl := hq.strict.step_eq hs
  obtain rfl := hts.eq hq.strict
  have hact : Keeps (fun w => G.world w ∧ keep w.firings) (fun _ => True)
      (fun r => ∀ u, r = some u → G.Good u) (G.interp l s.body G.env ts) := by
    intro w ⟨hw, hk⟩
    have hmakes := keeps_act hG l hs hts w hw
    have hquiet := hq.interp l ts w hs
    generalize G.interp l s.body G.env ts w = r at hmakes hquiet ⊢
    cases r with
    | ok u w' => exact ⟨hmakes.1.1, hmakes.2, hquiet.symm ▸ hk⟩
    | error e w' =>
        cases e with
        | issue e => exact ⟨trivial, hmakes.2, hquiet.symm ▸ hk⟩
        | _ => trivial
  refine ((hG.lasts l s.body ts).follows hact).imp ?_
  rintro r _ ⟨rfl, hr⟩
  cases r with
  | none => exact .none
  | some u => exact .some (hr u rfl)

end Keeping

/-- A run that ended kept what it started with. -/
theorem Keeps.ended {keep : World β σ → Prop} {raised : Issue β → Prop} {V : α → Prop}
    {act : Act β σ α} (h : Keeps keep raised V act) {w : World β σ} (hw : keep w)
    (hend : Ended (act w)) : keep (final (act w)) := by
  have hact := h w hw
  generalize act w = r at hact hend ⊢
  cases r with
  | ok a w' => exact hact.2
  | error e w' =>
      cases e with
      | issue e => exact hact.2
      | _ => exact hend.elim

theorem Fires.of_keeps {F : Family (Halt β) (World β σ) α}
    (h : ∀ L l n, Keeps (fun w => G.world w ∧ List.Sublist L w.firings) (fun _ => True)
      (fun _ => True) (F l n)) : G.Fires F [] := by
  intro L w r hw hL ⟨N, hN⟩ hr
  have hrun := hN N (Nat.le_refl N) N (Nat.le_refl N)
  rw [← hrun] at hr ⊢
  rw [List.append_nil]
  exact (Keeps.ended (h L N N) ⟨hw, hL⟩ hr).2

section

variable (hG : G.Lawful) (hq : G.Quiet)

include hG hq

/-- Reductions keep a part of what has been fired. -/
theorem Quiet.sublistAt (L : List (Firing β σ)) (l n : Nat) : Reduce.AlikeAt
    (Tie.keeping (fun w => G.world w ∧ L.Sublist w.firings) fun _ => True) G.like (G.reduction l)
    (G.reduction 0) G.interp n :=
  Quiet.alikeAt hG hq (L.Sublist ·) (fun _ x h => h.trans (List.sublist_append_left _ [x])) l n

theorem fires_whnf {t : Term β σ} (ht : G.Good t) : G.Fires (G.whnf t) [] :=
  .of_keeps fun L l n => ((Quiet.sublistAt hG hq L l n).whnf ht).keeps fun _ _ _ => trivial

theorem fires_whnfApp {h : Term β σ} {as : List (Term β σ)} (hh : G.Good h) (has : G.GoodArgs as) :
    G.Fires (G.whnfApp h as) [] :=
  .of_keeps fun L l n => ((Quiet.sublistAt hG hq L l n).whnfApp hh has).keeps fun _ _ _ => trivial

theorem fires_norms {ts : List (Term β σ)} (hts : G.GoodArgs ts) : G.Fires (G.norms ts) [] :=
  .of_keeps fun L l n => (Tie.Follows.mapM (fun _ _ h => (Quiet.sublistAt hG hq L l n).norm h)
    (Term.alikeArgs_iff_forall₂.mp hts)).keeps fun _ _ _ => trivial

/-- What a normalization fires comes after all that had been fired. -/
theorem prefix_norm {t : Term β σ} (ht : G.Good t) {l n : Nat} {w : World β σ} (hw : G.world w)
    (hend : Ended (Reduce.norm (G.reduction l) n t w)) :
    w.firings <+: (final (Reduce.norm (G.reduction l) n t w)).firings := by
  have hlike := Quiet.alikeAt hG hq (w.firings <+: ·)
    (fun _ x h => h.trans (List.prefix_append _ [x])) l n
  have hkeeps := (hlike.norm ht).keeps (V := fun _ => True) fun _ _ _ => trivial
  exact (Keeps.ended hkeeps ⟨hw, List.prefix_rfl⟩ hend).2

end

end Ground

end TacticEngine
