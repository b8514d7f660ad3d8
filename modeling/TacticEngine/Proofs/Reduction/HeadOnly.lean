/-
# TacticEngine.Proofs.Reduction.HeadOnly -- normalization of the head only.

With the flag for it, normalization leaves the arguments of the head application alone.  The arguments that
a step is fired on come out of that same normalization, so then they are weak head normal forms only.  A step
that looks into them may do something else than on normal arguments (`headOnly_changes_firing`).

As long as steps happen to be fired on normal arguments, normalization of the head is what full
normalization begins with: normalizing its result fully gives what normalizing the term gives, and under
the same head (`headOnly_then_full`).  Which arguments steps were fired on, the journal tells.
-/
import TacticEngine.Proofs.Reduction.Normal

namespace TacticEngine.Reduce

variable {β σ : Type}

/-- The setting in which only the head is wanted. -/
def Setting.headOnly (cfg : Setting β σ) : Setting β σ :=
  { cfg with flags := { cfg.flags with hnf := true } }

variable {cfg : Setting β σ} {acts : Deeds β σ} {t u v : Term β σ}

/-- What steps do on normal arguments. -/
def onNormal (cfg : Setting β σ) (acts acts' : Deeds β σ) : Deeds β σ :=
  fun s as x => acts' s as x ∧ ∀ a ∈ as, Normal cfg acts a

/-! ## Reduction of the head is the same -/

/-- What is in weak head normal form and happens to be normal is what normalization gives. -/
theorem ToWhnf.toNorm (hf : cfg.flags.hnf = false) (h : ToWhnf cfg acts t (.ok u))
    (hu : Normal cfg acts u) : ToNorm cfg acts t (.ok u) := by
  cases hu with
  | hnf hf' => rw [hf] at hf'; cases hf'
  | app _ hhead has =>
      have hargs := ToNorm.args hf h (toNorms_self fun a ha => (has a ha).toNorm)
      rwa [hhead.apps_eq] at hargs
  | head _ _ happ => exact .head hf h happ

-- By induction on the derivation.  The arguments of a step are only reduced in the head, but being normal they
-- are what full normalization gives as well.
mutual
theorem ToWhnf.of_headOnly (hf : cfg.flags.hnf = false) : ∀ {t : Term β σ}
    {r : Except (Halt β) (Term β σ)}, ToWhnf cfg.headOnly (onNormal cfg acts acts) t r →
      ∀ u, r = .ok u → ToWhnf cfg acts t (.ok u)
  | _, _, .annotated h => fun u hu => .annotated (h.of_headOnly hf u hu)
  | _, _, .ascribed hs h => fun u hu => .ascribed hs (h.of_headOnly hf u hu)
  | _, _, .ascribed_kept hs => by rintro _ ⟨⟩; exact .ascribed_kept hs
  | _, _, .reify hr h => fun u hu => .reify hr (h.of_headOnly hf u hu)
  | _, _, .reify_kept hr => by rintro _ ⟨⟩; exact .reify_kept hr
  | _, _, .unfold hb h => fun u hu => .unfold hb (h.of_headOnly hf u hu)
  | _, _, .const hb h => fun u hu => .const hb (h.of_headOnly hf u hu)
  | _, _, .native h => fun u hu => .native (h.of_headOnly hf u hu)
  | _, _, .rigid hr => by rintro _ ⟨⟩; exact .rigid hr
  | _, _, .app hh h => fun u hu => .app (hh.of_headOnly hf _ rfl) (h.of_headOnly hf u hu)
  | _, _, .app_error _ => nofun
  | _, _, .case hs hb h => fun u hu => .case (hs.of_headOnly hf _ rfl) hb (h.of_headOnly hf u hu)
  | _, _, .case_overflow _ _ => nofun
  | _, _, .case_stuck hs hb => by rintro _ ⟨⟩; exact .case_stuck (hs.of_headOnly hf _ rfl) hb
  | _, _, .case_error _ => nofun

theorem ToApp.of_headOnly (hf : cfg.flags.hnf = false) : ∀ {h : Term β σ} {as : List (Term β σ)}
    {r : Except (Halt β) (Term β σ)}, ToApp cfg.headOnly (onNormal cfg acts acts) h as r →
      ∀ u, r = .ok u → ToApp cfg acts h as (.ok u)
  | _, _, _, .merge h => fun u hu => .merge (h.of_headOnly hf u hu)
  | _, _, _, .beta hn hb h => fun u hu => .beta hn hb (h.of_headOnly hf u hu)
  | _, _, _, .beta_overflow _ _ => nofun
  | _, _, _, .short hn => by rintro _ ⟨⟩; exact .short hn
  | _, _, _, .inert happ hlam hs => by rintro _ ⟨⟩; exact .inert happ hlam hs
  | _, _, _, .waiting hs hlen => by rintro _ ⟨⟩; exact .waiting hs hlen
  | _, _, _, .fired hs hlen hnow hact h => fun u hu =>
      .fired hs hlen (hnow.of_headOnly hf _ rfl hact.2) hact.1 (h.of_headOnly hf u hu)
  | _, _, _, .declined hs hlen hnow hact => by
      rintro _ ⟨⟩
      exact .declined hs hlen (hnow.of_headOnly hf _ rfl hact.2) hact.1
  | _, _, _, .failed _ _ _ _ => nofun
  | _, _, _, .args_error _ _ _ => nofun

theorem ToNorm.of_headOnly (hf : cfg.flags.hnf = false) : ∀ {t : Term β σ}
    {r : Except (Halt β) (Term β σ)}, ToNorm cfg.headOnly (onNormal cfg acts acts) t r →
      ∀ u, r = .ok u → ToWhnf cfg acts t (.ok u)
  | _, _, .hnf _ h => h.of_headOnly hf
  | _, _, .args hf' _ _ => nomatch hf'
  | _, _, .args_error hf' _ _ => nomatch hf'
  | _, _, .head hf' _ _ => nomatch hf'
  | _, _, .error _ => nofun

theorem ToNorms.of_headOnly (hf : cfg.flags.hnf = false) : ∀ {ts : List (Term β σ)}
    {r : Except (Halt β) (List (Term β σ))},
    ToNorms cfg.headOnly (onNormal cfg acts acts) ts r →
      ∀ us, r = .ok us → (∀ u ∈ us, Normal cfg acts u) → ToNorms cfg acts ts (.ok us)
  | _, _, .nil => by rintro _ ⟨⟩ _; exact .nil
  | _, _, .cons h hs => by
      rintro _ ⟨⟩ hus
      obtain ⟨hu, hus⟩ := List.forall_mem_cons.mp hus
      exact .cons ((h.of_headOnly hf _ rfl).toNorm hf hu) (hs.of_headOnly hf _ rfl hus)
  | _, _, .head_error _ => nofun
  | _, _, .tail_error _ _ => nofun
end

/-! ## What is left to be done after the head -/

/-- A term and its weak head normal form have the same normal form. -/
theorem toNorm_iff_of_toWhnf (hacts : Sure cfg acts) (h : ToWhnf cfg acts t (.ok u))
    (r : Except (Halt β) (Term β σ)) : ToNorm cfg acts t r ↔ ToNorm cfg acts u r := by
  have hu := (h.headNormal hacts u rfl).toWhnf
  constructor
  · exact fun ht => ht.of_toWhnf fun r hr => h.unique hacts hr ▸ hu
  · exact fun ht => ht.of_toWhnf fun r hr => hu.unique hacts hr ▸ h

/-- Normalizing the arguments changes neither the head nor their number. -/
theorem ToNorm.headArgs_eq (hacts : Sure cfg acts) (h : ToWhnf cfg acts t (.ok u))
    (hv : ToNorm cfg acts t (.ok v)) :
    v.headArgs.1 = u.headArgs.1 ∧ v.headArgs.2.length = u.headArgs.2.length := by
  cases hv with
  | hnf _ hw =>
      cases h.unique hacts hw
      exact ⟨rfl, rfl⟩
  | args _ hw has =>
      cases h.unique hacts hw
      have hhead := (h.headNormal hacts _ rfl).app_of_toNorms hacts has
      rw [hhead.apps_eq]
      exact ⟨rfl, has.length_eq⟩
  | head _ hw _ =>
      cases h.unique hacts hw
      exact ⟨rfl, rfl⟩

/-! ## What the journal tells -/

/-- All steps in the journal were fired on normal arguments. -/
def NormalFirings (cfg : Setting β σ) (w : World β σ) : Prop :=
  ∀ s as, .fired s as ∈ w.journal → ∀ a ∈ as, Normal cfg (doesAct cfg) a

/-- If every firing in the journal is one on normal arguments, the head was reduced as it always is. -/
theorem toWhnf_of_headOnly {p : Step σ → Prop} (hpure : cfg.Pure p) (hf : cfg.flags.hnf = false)
    (hgrows : ∀ s as w e, e ∈ w.journal → e ∈ (final (cfg.interp s cfg.env as w)).journal)
    (ht : t.StepsAmong p) {n : Nat} {w w' : World β σ} (hu : norm cfg.headOnly n t w = .ok u w')
    (hargs : NormalFirings cfg w') :
    ToWhnf cfg (doesAct cfg) t (.ok u) ∧ u.StepsAmong p := by
  have hfire : ∀ s as, Traced (NormalFirings cfg)
      (Act.note (.fired s as) >>= fun _ => cfg.headOnly.interp s.body cfg.headOnly.env as)
      (onNormal cfg (doesAct cfg) (mayAct cfg) s as) := by
    intro s as w hw
    -- The journal at the end still has this firing, and all that came before it.
    have hjournal : ∀ e ∈ (w.noted (.fired s as)).journal, e ∈ (final
        ((Act.note (.fired s as) >>= fun _ => cfg.interp s.body cfg.env as) w)).journal :=
      hgrows s.body as (w.noted (.fired s as))
    refine ⟨fun s' as' hmem => hw s' as' (hjournal _ (List.mem_cons_of_mem _ hmem)), fun _ => ?_⟩
    exact ⟨⟨w.noted (.fired s as), rfl⟩, hw s as (hjournal _ List.mem_cons_self)⟩
  have htraced : Traced (NormalFirings cfg) (norm cfg.headOnly n t)
      (ToNorm cfg.headOnly (onNormal cfg (doesAct cfg) (mayAct cfg)) t) :=
    (traced (fun _ _ h => h) hfire n).2.2 t
  have hend := (htraced w (by rw [hu]; exact hargs)).2 (by rw [hu]; nofun)
  rw [hu] at hend
  have hstays : Stays cfg.headOnly (onNormal cfg (doesAct cfg) (mayAct cfg))
      (onNormal cfg (doesAct cfg) (doesAct cfg)) (.among β False p) :=
    { lookup := hpure.stays.lookup
      unfoldable := hpure.stays.unfoldable
      deed := fun s as x hs has hx => ⟨hpure.stays.deed s as x hs has hx.1, hx.2⟩
      result := fun s as u hs has hx => hpure.stays.result s as u hs has hx.1 }
  obtain ⟨hnorm, halike⟩ := hend.stays hstays (Term.alike_among_iff.mpr ⟨False.elim, ht⟩)
  exact ⟨hnorm.of_headOnly hf u rfl, (Term.alike_among_iff.mp (halike u rfl)).2⟩

/-- With pure steps, if normalizing the head ends and every step in its journal was fired on normal
arguments, then normalizing the result fully ends as normalizing the term does, and what it gives has the
head of that result and as many arguments. -/
theorem headOnly_then_full {p : Step σ → Prop} (hpure : cfg.Pure p) (hf : cfg.flags.hnf = false)
    (hgrows : ∀ s as w e, e ∈ w.journal → e ∈ (final (cfg.interp s cfg.env as w)).journal)
    (ht : t.StepsAmong p) {n : Nat} {w w' : World β σ} (hu : norm cfg.headOnly n t w = .ok u w')
    (hargs : NormalFirings cfg w') (w₁ : World β σ) :
    (∀ x, Settles (fun n => norm cfg n t) w₁ x ↔ Settles (fun n => norm cfg n u) w₁ x) ∧
    ∀ v, Settles (fun n => norm cfg n t) w₁ (.ok v) →
      v.headArgs.1 = u.headArgs.1 ∧ v.headArgs.2.length = u.headArgs.2.length := by
  obtain ⟨hwhnf, husteps⟩ := toWhnf_of_headOnly hpure hf hgrows ht hu hargs
  refine ⟨fun x => ?_, fun v hv => ?_⟩
  · rw [hpure.toNorm_iff ht, hpure.toNorm_iff husteps]
    exact toNorm_iff_of_toWhnf (sure_doesAct cfg) hwhnf _
  · exact ((hpure.toNorm_iff ht).mp hv).headArgs_eq (sure_doesAct cfg) hwhnf

/-- A step that is fired in the head on a variable, and one that waits in an argument. -/
def waitingSample : Term Unit Sample :=
  .app (.lam 1 (.app (.const "first")
    [.ctor "Some", .bvar 0, .app (.const "first") [.bvar 0, .bvar 0]])) [.free "x"]

/-- What the journal says after the head of that is normalized. -/
theorem normalFirings_waitingSample : NormalFirings (sample .tactic)
    { journal := [.fired ⟨0, "first", 2, {}, .first⟩ [.ctor "Some", .free "x"]] } := by
  intro s as hmem a ha
  obtain ⟨rfl, rfl⟩ := Event.fired.inj (List.mem_singleton.mp hmem)
  rcases List.mem_pair.mp ha with rfl | rfl <;> exact .head rfl (.rigid rfl) rfl

/-- The inner application is still there after the head is normalized, and gone after that. -/
theorem headOnly_then_full_waiting : Settles (fun n => norm (sample .tactic) n
    (.app (.ctor "Some") [.app (.const "first") [.free "x", .free "x"]])) {}
    (.ok (.app (.ctor "Some") [.free "x"])) := by
  refine ((headOnly_then_full (pure_sample .tactic) rfl (fun _ _ _ _ h => h) (t := waitingSample)
    (fun _ _ => trivial) (n := 12) (w := {}) rfl normalFirings_waitingSample {}).1 _).mp ?_
  refine ⟨12, fun n hn => ?_⟩
  obtain ⟨n, rfl⟩ := Nat.exists_eq_add_of_le' hn
  rfl

/-- A step that gives a literal out of a constructor application, on an application to be reduced. -/
def pendingSample : Term Unit Sample :=
  .app (.native ⟨2, "inner", 1, {}, .inner⟩)
    [.app (.ctor "Some") [.app (.lam 1 (.bvar 0)) [.lit (.int 1)]]]

/-- The step fires when everything is normalized, and declines when only the head is. -/
theorem headOnly_changes_firing :
    Settles (fun n => norm (sample .tactic) n pendingSample) {} (.ok (.lit (.int 1))) ∧
    Settles (fun n => norm (sample .tactic).headOnly n pendingSample) {} (.ok pendingSample) := by
  constructor
  · refine ⟨12, fun n hn => ?_⟩
    obtain ⟨n, rfl⟩ := Nat.exists_eq_add_of_le' hn
    rfl
  · refine ⟨12, fun n hn => ?_⟩
    obtain ⟨n, rfl⟩ := Nat.exists_eq_add_of_le' hn
    rfl

end TacticEngine.Reduce
