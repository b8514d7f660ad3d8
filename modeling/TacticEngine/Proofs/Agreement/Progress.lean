/-
# TacticEngine.Proofs.Agreement.Progress -- where reduction ends, the machine ends.

The induction is on the fuel of a reduction that has ended.  Whatever the machine does is done by this
reduction with less fuel, but for two things.  A variable is looked up without any reduction taking
place; then the machine goes on with a smaller value.  And a head is evaluated on its own, while
reduction works on the whole application; but an application that ends does so part by part.
-/
import TacticEngine.Proofs.Agreement.Halting

namespace TacticEngine

variable {β σ α γ : Type}

namespace Ground

open Machine (Code Delayed Value Memory Eval compile sources branchSources)
open Term (instantiateArgs instantiateBranches)

variable {G : Ground β σ} {Γ : List (Term β σ)} {n : Nat}

section

variable (G)

/-- Where reduction ends with so much fuel, the machine ends. -/
structure ProgressAt (n : Nat) : Prop where
  run : ∀ {Γ t code frame}, G.Compiled Γ t code → G.like.Alike frame.length t t →
    (∀ f ∈ frame, G.Formed Γ f) → G.EndsIn n (t.instantiate 0 (sources frame)) [] →
    G.Halts Γ fun l k => Machine.run (G.machine l) k code frame
  force : ∀ {Γ v}, G.Formed Γ v → G.EndsIn n v.source [] →
    G.Halts Γ fun l k => Machine.force (G.machine l) k v
  applyForced : ∀ {Γ f args}, G.Forced Γ f → (∀ a ∈ args, G.Formed Γ a) →
    (f.isFunction = true → G.HeadEndsIn n f.head (sources f.args ++ sources args)) →
    G.Halts Γ fun l k => Machine.applyForced (G.machine l) k f args
  readback : ∀ {Γ v}, G.Formed Γ v → G.NormEndsIn n v.source →
    G.Halts Γ fun l k => Machine.readback (G.machine l) k v

end

variable (hG : G.Lawful)

/-! ## Reading back -/

section

theorem NormsEndIn.first {t : Term β σ} {ts : List (Term β σ)} (h : G.NormsEndIn n (t :: ts)) :
    G.NormEndsIn n t := by
  obtain ⟨ts', l, w, hts, hw, hend⟩ := h
  cases hts with
  | cons ht _ =>
      rw [norms_cons_eq] at hend
      exact ⟨_, l, w, ht, hw, hend.of_bind⟩

include hG

theorem NormsEndIn.rest {t u : Term β σ} {ts : List (Term β σ)} (h : G.NormsEndIn n (t :: ts))
    (hu : G.Comes (pure u) (G.norm t)) : G.NormsEndIn n ts := by
  obtain ⟨ts', l, w, hts, hw, hend⟩ := h
  cases hts with
  | cons ht hts =>
      rename_i t' ts'
      rw [norms_cons_eq] at hend
      have hcomes := hu.congr_norm hG ht
      rcases Ended.bind_iff.mp hend with ⟨u', w', hr, hrest⟩ | ⟨e, w', hr⟩
      · exact ⟨ts', l, w', hts, (hcomes.of_ok (hG.lasts_norm l n t') hw hr).2, hrest.of_bind⟩
      · exact absurd hr (hcomes.ne_issue (hG.lasts_norm l n t') hw)

/-- Arguments in normal form end with themselves. -/
theorem NormsEndIn.drop {xs ts : List (Term β σ)} (hxs : ∀ x ∈ xs, G.Normal x)
    (h : G.NormsEndIn n (xs ++ ts)) : G.NormsEndIn n ts := by
  induction xs with
  | nil => exact h
  | cons x xs ih =>
      exact ih (fun y hy => hxs y (List.mem_cons_of_mem x hy))
        (h.rest hG (hxs x List.mem_cons_self))

theorem NormEndsIn.not_overflow {t : Term β σ} (h : G.NormEndsIn n t) :
    ¬ G.Comes (throw .overflow) (G.norm t) := by
  intro hover
  obtain ⟨t', l, w, ht, hw, hend⟩ := h
  exact (hover.congr_norm hG ht).not_overflow (hG.lasts_norm l n t') hw hend

theorem ProgressAt.readbacks (ih : G.ProgressAt n) {vs : List (Value β σ)}
    (hvs : ∀ v ∈ vs, G.Formed Γ v) (hend : G.NormsEndIn n (sources vs)) :
    G.Halts Γ fun l k => vs.mapM (Machine.readback (G.machine l) k) := by
  induction vs generalizing Γ with
  | nil =>
      simp only [List.mapM_nil]
      exact .pure []
  | cons v vs ihvs =>
      simp only [List.mapM_cons]
      rw [sources] at hend
      have hv := hvs v List.mem_cons_self
      refine (ih.readback hv hend.first).bind (fun l k => (soundAt hG l k).readback hv)
        (hend.first.not_overflow hG) fun Γ₁ t hΓ ht => ?_
      exact (ihvs (fun u hu => (hvs u (List.mem_cons_of_mem v hu)).mono hΓ)
        (hend.rest hG ht.2)).map (t :: ·)

/-- Normalizing the arguments of something like a head with arguments. -/
theorem Headed.normsEndIn {t u : Term β σ} {as : List (Term β σ)} {l : Nat} {w : World β σ}
    (ht : G.Headed t) (hu : G.like.Alike 0 (t.apps as) u) (hw : G.world w)
    (hend : Ended (G.normArgs u l n w)) : G.NormsEndIn n as := by
  obtain ⟨happ, -, hxs⟩ := ht
  rename_i h xs
  rw [Term.apps_apps] at hu
  by_cases hnil : xs ++ as = []
  · obtain ⟨-, rfl⟩ := List.append_eq_nil_iff.mp hnil
    exact ⟨[], l, w, .nil, hw, trivial⟩
  · rw [Term.apps_of_not_isApp happ hnil] at hu
    cases hu with
    | @app _ _ _ _ ys _ _ hys =>
        have hall : G.NormsEndIn n (xs ++ as) := ⟨ys, l, w, hys, hw, Ended.of_bind hend⟩
        exact hall.drop hG hxs

theorem ProgressAt.readback_forced (ih : G.ProgressAt n) {u : Value β σ} (hu : G.Forced Γ u)
    {t : Term β σ} {l : Nat} {w : World β σ} (ht : G.like.Alike 0 u.source t) (hw : G.world w)
    (hend : Ended (G.normArgs t l n w)) :
    G.Halts Γ fun l k => Machine.bounded u.head? >>= fun h =>
      u.args.mapM (Machine.readback (G.machine l) k) >>= fun ts => pure (h.apps ts) := by
  refine (Halts.of_fuelless (.bounded _)).bind
    (fun _ _ => Ensures.bounded (E := fun _ => False)) id fun Γ₁ h hΓ _ => ?_
  rw [Value.source_eq] at ht
  exact (ih.readbacks hG (formed_mono hΓ hu.1.args)
    (hu.headed.normsEndIn hG ht hw hend)).map (h.apps ·)

theorem ProgressAt.readback_succ (ih : G.ProgressAt n) {v : Value β σ} (hv : G.Formed Γ v)
    (hend : G.NormEndsIn (n + 1) v.source) :
    G.Halts Γ fun l k => Machine.readback (G.machine l) k v := by
  obtain ⟨t, l, w, ht, hw, hend⟩ := hend
  rw [norm_succ] at hend
  have hforce : G.EndsIn n v.source [] := endsIn_nil_iff.mpr ⟨t, l, w, ht, hw, hend.of_bind⟩
  refine .succ ?_
  simp only [Machine.readback_succ]
  refine (ih.force hv hforce).bind (fun l k => (soundAt hG l k).force hv) (hforce.not_fails hG)
    fun Γ₁ u _ hu => ?_
  simp only [hu.1.2, Bool.false_eq_true, if_false]
  have hcomes := (hu.2.comes hu.1).congr_whnf hG ht
  rcases Ended.bind_iff.mp hend with ⟨u', w', hr, hrest⟩ | ⟨e, w', hr⟩
  · obtain ⟨hlike, hw'⟩ := hcomes.of_ok (hG.lasts_whnf l n t) hw hr
    exact ih.readback_forced hG hu.1 hlike hw' hrest
  · exact absurd hr (hcomes.ne_issue (hG.lasts_whnf l n t) hw)

end

/-! ## Application -/

section

/-- A value that is no function only collects its arguments. -/
theorem Forced.halts_applyForced {f : Value β σ} (hf : G.Forced Γ f) (hfun : f.isFunction = false)
    (args : List (Value β σ)) : G.Halts Γ fun l k => Machine.applyForced (G.machine l) k f args := by
  obtain ⟨-, hthunk⟩ := hf
  refine .succ ?_
  cases f with
  | lam | step => cases hfun
  | thunk => cases hthunk
  | _ =>
      simp only [Machine.applyForced]
      exact .pure _

include hG

/-- The head of an application that ends is applied to its arguments. -/
theorem halts_applyForced (ih : ∀ k < n, G.ProgressAt k) {t : Term β σ} {v : Value β σ}
    {args : List (Value β σ)} (hend : G.EndsIn n t (sources args)) (hne : args ≠ [])
    (hv : G.Forced Γ v) (hb : G.Becomes t v) (hargs : ∀ a ∈ args, G.Formed Γ a) :
    G.Halts Γ fun l k => Machine.applyForced (G.machine l) k v args := by
  by_cases hfun : v.isFunction = true
  · have hsources : sources args ≠ [] := fun hnil => hne (Machine.sources_eq_nil_iff.mp hnil)
    obtain ⟨k, hk, hhead⟩ := hend.function hG hsources hv hb hfun
    exact (ih k hk).applyForced hv hargs fun _ => hhead
  · exact hv.halts_applyForced (Bool.not_eq_true _ ▸ hfun) _

/-- The result of an application is applied to what is left. -/
theorem halts_applyRest (ih : ∀ k < n, G.ProgressAt k) {t : Term β σ} {v : Value β σ}
    {rest : List (Value β σ)} (hend : G.EndsIn n t (sources rest)) (hv : G.Forced Γ v)
    (hb : G.Becomes t v) (hrest : ∀ a ∈ rest, G.Formed Γ a) :
    G.Halts Γ fun l k => Machine.applyRest (G.machine l) k v rest := by
  refine .succ ?_
  simp only [Machine.applyRest]
  cases rest with
  | nil => exact .pure v
  | cons a as => exact halts_applyForced hG ih hend (List.cons_ne_nil a as) hv hb hrest

/-- The parts of a firing that has ended. -/
theorem ended_firing {s : Step σ} {h : Term β σ} {as : List (Term β σ)} {l : Nat} {w : World β σ}
    (hs : G.like.step s s) (hend : Ended (G.firing s h as l n w)) :
    Ended (G.norms (as.take s.arity) l n w) ∧
      ∀ now w₁, G.norms (as.take s.arity) l n w = .ok now w₁ → G.GoodArgs now → G.world w₁ →
        ∃ w₂, G.world w₂ ∧ Ended (G.act s now l n w₂) ∧ ∀ u w₃,
          G.act s now l n w₂ = .ok (some u) w₃ → Ended (G.whnf (u.apps (as.drop s.arity)) l n w₃) := by
  rw [firing_eq] at hend
  refine ⟨hend.of_bind, fun now w₁ hr hnow hw₁ => ?_⟩
  rw [run_bind_ok hr] at hend
  have hdebug := hG.gives_debug .trace ("firing " ++ s.name ++ " on " ++ toString now.length
    ++ " arguments")
  rcases Ended.bind_iff.mp hend with ⟨_, w₂, hr₂, hend⟩ | ⟨e, w₂, hr₂⟩
  · have hw₂ := (hdebug.of_ok (Lasts.const _) hw₁ hr₂).2
    have hnote := hG.gives_note hs hnow
    rcases Ended.bind_iff.mp hend with ⟨_, w₃, hr₃, hend⟩ | ⟨e, w₃, hr₃⟩
    · refine ⟨w₃, (hnote.of_ok (Lasts.const _) hw₂ hr₃).2, hend.of_bind, fun u w₄ hr₄ => ?_⟩
      rwa [run_bind_ok hr₄] at hend
    · exact absurd hr₃ (hnote.ne_issue (Lasts.const _) hw₂)
  · exact absurd hr₂ (hdebug.ne_issue (Lasts.const _) hw₁)

/-- A step that ends in one world ends in every world. -/
theorem halts_act {s s' : Step σ} {ts ts' : List (Term β σ)} {l : Nat} {w : World β σ}
    (hs : G.like.step s' s) (hts : G.like.AlikeArgs 0 ts' ts) (hw : G.world w)
    (hend : Ended (G.interp l s'.body G.env ts' w)) :
    G.Halts Γ fun l _ => Machine.inWorld (G.interp l s.body G.env ts) := by
  refine .inWorld (A := fun l _ => G.interp l s.body G.env ts) fun w₁ hw₁ => ?_
  rcases hG.interp l hs hts w w₁ ⟨hw, hw₁⟩ with ⟨e, w', hr, rfl⟩ | ⟨r, hy, hm⟩
  · rw [hr] at hend
    exact hend.elim
  · refine ⟨r, hy, fun w' hr => ?_⟩
    subst hr
    generalize G.interp l s'.body G.env ts' w = r' at hm
    cases hm with
    | error he _ => cases he
    | escape he => exact he.elim

section

variable {t t' : Term β σ} {s s' : Step σ} {now later : List (Value β σ)} {as : List (Term β σ)}
  {l : Nat} {w : World β σ}

/-- Where a firing has ended, the step has ended on the normalized arguments, and so has what it gave,
applied to what is left. -/
theorem ended_act (hs' : G.like.step s' s')
    (has : G.like.AlikeArgs 0 (sources now) (as.take s'.arity)) (hw : G.world w)
    (hend : Ended (G.firing s' t' as l n w)) {ts : List (Term β σ)}
    (hts : G.ComeAll (pure ts) (G.norms (sources now))) :
    ∃ ts' w', G.like.AlikeArgs 0 ts ts' ∧ G.world w' ∧ Ended (G.act s' ts' l n w') ∧
      ∀ u w'', G.act s' ts' l n w' = .ok (some u) w'' →
        Ended (G.whnf (u.apps (as.drop s'.arity)) l n w'') := by
  obtain ⟨hnorms, hrest⟩ := ended_firing hG hs' hend
  have hgives := hts.congr_norms hG has
  cases hr : G.norms (as.take s'.arity) l n w with
  | error e w₁ =>
      cases e with
      | issue e => exact absurd hr (hgives.ne_issue (hG.lasts_norms l n _) hw)
      | _ =>
          rw [hr] at hnorms
          exact hnorms.elim
  | ok ts' w₁ =>
      obtain ⟨hlike, hw₁⟩ := hgives.of_ok (hG.lasts_norms l n _) hw hr
      obtain ⟨w₂, hw₂, hacted, hgo⟩ := hrest ts' w₁ hr (hG.goodArgs_right hlike) hw₁
      exact ⟨ts', w₂, hlike, hw₂, hacted, hgo⟩

theorem ProgressAt.fire (ih : G.ProgressAt n) (hs : G.like.step s s') (hs' : G.like.step s' s)
    (hnow : ∀ a ∈ now, G.Formed Γ a) (has : G.like.AlikeArgs 0 (sources now) (as.take s'.arity))
    (hw : G.world w) (hend : Ended (G.firing s' t' as l n w)) :
    G.Halts Γ fun l k =>
      Machine.fire (G.machine l) (Machine.readback (G.machine l) k) s now := by
  have hself : G.like.step s s := hG.trans.step hs hs'
  have hself' : G.like.step s' s' := hG.trans.step hs' hs
  obtain ⟨hnorms, hrest⟩ := ended_firing hG hself' hend
  have hdirect (l : Nat) : (G.machine l).direct s.body = none := hG.direct hself
  simp only [Machine.fire, hdirect]
  have hnorms_in : G.NormsEndIn n (sources now) := ⟨_, l, w, has, hw, hnorms⟩
  refine (ih.readbacks hG hnow hnorms_in).bind (fun l k => (soundAt hG l k).readbacks hnow) ?_
    fun Γ₁ ts _ hts => ?_
  · intro hover
    exact (hover.congr_norms hG has).not_overflow (hG.lasts_norms l n _) hw hnorms
  obtain ⟨-, hgood, hts⟩ := hts
  obtain ⟨ts', w₁, hlike, hw₁, hact, -⟩ := ended_act hG hself' has hw hend hts
  refine (Halts.inWorld (A := fun _ _ => Act.note (.fired s ts)) fun w _ =>
    ⟨_, Yields.const _ w, fun w' h => by cases h⟩).bind
    (fun _ _ => Ensures.inWorld (E := fun _ => False) (keeps_note hG hself hgood)) id
    fun Γ₂ _ _ _ => ?_
  refine (halts_act hG hs' (hlike.symm hG.symm) hw₁ hact).bind
    (fun l _ => Ensures.inWorld (E := fun h => h ≠ .overflow)
      ((keeps_act hG l hself hgood).imp (fun _ _ h => by cases h) fun _ h => h))
    (fun h => h rfl) fun Γ₃ r _ _ => ?_
  cases r with
  | none => exact .pure none
  | some u => exact (Halts.of_fuelless (.ofTerm u)).map some

/-- What the step of an ended firing has given ends, applied to what is left. -/
theorem endsIn_of_firing (hs' : G.like.step s' s') (hss : G.like.step s s')
    (has : G.like.AlikeArgs 0 (sources now) (as.take s'.arity))
    (hlater : G.like.AlikeArgs 0 (sources later) (as.drop s'.arity)) (hw : G.world w)
    (hend : Ended (G.firing s' t' as l n w)) {v : Value β σ} {ts : List (Term β σ)}
    (hts : G.ComeAll (pure ts) (G.norms (sources now)))
    (hact : G.Acts (pure (some v.source)) s ts) : G.EndsIn n v.source (sources later) := by
  obtain ⟨ts', w₁, hlike, hw₁, hacted, hgo⟩ := ended_act hG hs' has hw hend hts
  have hact' := hact.congr hG hss hlike
  cases hr : G.act s' ts' l n w₁ with
  | error e w₂ =>
      cases e with
      | issue e => exact absurd hr (hact'.ne_issue (hG.lasts l _ _) hw₁)
      | _ =>
          rw [hr] at hacted
          exact hacted.elim
  | ok r w₂ =>
      obtain ⟨hrel, hw₂⟩ := hact'.of_ok (hG.lasts l _ _) hw₁ hr
      cases hrel with
      | some hu => exact ⟨_, _, l, w₂, hu, hlater, hw₂, hgo _ w₂ hr⟩

/-- A step with enough arguments, where reduction has fired one like it. -/
theorem halts_fires (ih : ∀ k ≤ n, G.ProgressAt k) (hss : G.like.step s s')
    (hnow : ∀ a ∈ now, G.Formed Γ a) (hlater : ∀ a ∈ later, G.Formed Γ a)
    (has : G.like.AlikeArgs 0 (sources now) (as.take s'.arity))
    (has' : G.like.AlikeArgs 0 (sources later) (as.drop s'.arity)) (hw : G.world w)
    (hend : Ended (G.firing s' t' as l n w)) :
    G.Halts Γ fun l k => (do
      match ← Machine.fire (G.machine l) (Machine.readback (G.machine l) k) s now with
      | some v => do
        let v ← Machine.force (G.machine l) k v
        Machine.applyRest (G.machine l) k v later
      | none => do
        let terms ← now.mapM (Machine.readback (G.machine l) k)
        return .neutral (t.apps terms) later) := by
  have hss' := hG.symm.step hss
  have hself := hG.trans.step hss hss'
  have hself' := hG.trans.step hss' hss
  have hended : Ended (G.norms (as.take s'.arity) l n w) := (ended_firing hG hself' hend).1
  have hnorms : G.NormsEndIn n (sources now) := ⟨_, l, w, has, hw, hended⟩
  have hfire := (ih n (Nat.le_refl n)).fire hG hss hss' hnow has hw hend
  refine hfire.bind (fun l k => (soundAt hG l k).fire hG hself hnow) ?_ fun Γ₁ r hΓ hr => ?_
  · -- neither normalizing the arguments nor the step left the range of machine words
    rintro (hover | ⟨ts, hts, hover⟩)
    · exact (hover.congr_norms hG has).not_overflow (hG.lasts_norms l n _) hw hended
    · obtain ⟨ts', w₁, hlike, hw₁, hacted, -⟩ := ended_act hG hself' has hw hend hts
      exact (hover.congr hG hss hlike).not_overflow (hG.lasts l _ _) hw₁ hacted
  obtain ⟨hformed, ts, hts, hact⟩ := hr
  cases r with
  | none =>
      have hterms := (ih n (Nat.le_refl n)).readbacks hG (formed_mono hΓ hnow) hnorms
      exact hterms.map fun terms => Value.neutral (t.apps terms) later
  | some v =>
      have hend' := endsIn_of_firing hG hself' hss has has' hw hend hts hact
      refine ((ih n (Nat.le_refl n)).force (hformed v rfl) hend'.head).bind
        (fun l k => (soundAt hG l k).force (hformed v rfl)) (hend'.head.not_fails hG)
        fun Γ₂ u hΓ' hu => ?_
      exact halts_applyRest hG (fun k hk => ih k (Nat.le_of_lt hk)) hend' hu.1 hu.2
        (formed_mono (hΓ.trans hΓ') hlater)

end

/-- Where reduction ends from a lambda with enough arguments, it ends from the body with values for the variables. -/
theorem endsIn_body {arity : Nat} {b : Term β σ} {code : Code β σ} {frame vs : List (Value β σ)}
    (hs : G.Saturated Γ arity b code frame vs)
    (hend : G.HeadEndsIn (n + 1) ((Term.lam arity b).instantiate 0 (sources frame)) (sources vs)) :
    G.EndsIn n (b.instantiate 0 (sources ((vs.take arity).reverse ++ frame))) (sources (vs.drop arity)) := by
  obtain ⟨h', as, l, w, hh, has, hw, hend⟩ := hend
  rw [Term.instantiate_lam hs.positive] at hh
  cases hh with
  | @lam _ _ _ b' _ hbb =>
      have hle : arity ≤ as.length := by
        rw [← has.length_eq, Machine.length_sources]
        exact hs.enough
      rw [Ground.whnfApp, Reduce.whnfApp, if_pos hle] at hend
      have hlike := Term.Alike.beta? (has.take arity)
        (by rwa [List.length_take, Machine.length_sources, Nat.min_eq_left hs.enough])
      cases hb' : b'.beta? (as.take arity) with
      | none =>
          rw [hb'] at hend
          exact hend.elim
      | some c' =>
          rw [hb'] at hend hlike
          generalize hb₁ : (b.instantiate arity (sources frame)).beta? _ = x at hlike
          cases hlike with
          | some hc' =>
              rw [← Machine.sources_take] at hb₁
              rw [Machine.sources_drop]
              have hlen := List.length_take_of_le hs.enough
              obtain rfl := instantiate_bound (formed_closed hG hs.captured) (by rwa [hlen])
              exact ⟨c', as.drop arity, l, w, hc', has.drop arity, hw, hend⟩

theorem ProgressAt.applyForced_lam (ih : ∀ k ≤ n, G.ProgressAt k) {arity : Nat} {b : Term β σ}
    {code : Code β σ} {frame held args : List (Value β σ)}
    (hf : G.Forced Γ (.lam arity (.lam arity b) code frame held)) (hargs : ∀ a ∈ args, G.Formed Γ a)
    (hend : G.HeadEndsIn (n + 1) ((Term.lam arity b).instantiate 0 (sources frame))
      (sources (held ++ args))) :
    G.Halts Γ fun l k =>
      Machine.applyForced (G.machine l) k (.lam arity (.lam arity b) code frame held) args := by
  refine .succ ?_
  simp only [Machine.applyForced]
  by_cases hfew : (held ++ args).length < arity
  · simp only [if_pos hfew]
    exact .pure _
  · simp only [if_neg hfew]
    have hs := hf.saturated hargs (Nat.le_of_not_lt hfew)
    have hbody := endsIn_body hG hs hend
    refine ((ih n (Nat.le_refl n)).run hs.compiled hs.body hs.values hbody.head).bind
      (fun l k => (soundAt hG l k).run hs.compiled hs.body hs.values) (hbody.head.not_fails hG)
      fun Γ₁ v hΓ hv => ?_
    exact halts_applyRest hG (fun k hk => ih k (Nat.le_of_lt hk)) hbody hv.1 hv.2
      (formed_mono hΓ hs.later)

theorem ProgressAt.applyForced_step (ih : ∀ k ≤ n, G.ProgressAt k) {t : Term β σ} {s : Step σ}
    {held args : List (Value β σ)} (hf : G.Forced Γ (.step t s held))
    (hargs : ∀ a ∈ args, G.Formed Γ a)
    (hend : G.HeadEndsIn (n + 1) t (sources (held ++ args))) :
    G.Halts Γ fun l k => Machine.applyForced (G.machine l) k (.step t s held) args := by
  refine .succ ?_
  simp only [Machine.applyForced]
  by_cases hfew : (held ++ args).length < s.arity
  · simp only [if_pos hfew]
    exact .pure _
  · simp only [if_neg hfew]
    have hs := hf.due hargs (Nat.le_of_not_lt hfew)
    obtain ⟨t', as, l, w, hh, has, hw, hend⟩ := hend
    obtain ⟨s', hs', hss⟩ := exists_stepOf hG hs.stepOf hh
    have harity : s.arity = s'.arity := (hG.arity hss).2
    rw [whnfApp_step hs' (by rw [← has.length_eq, Machine.length_sources]; omega)] at hend
    refine halts_fires hG ih hss hs.now hs.later ?_ ?_ hw hend
    · rw [Machine.sources_take, harity]
      exact has.take _
    · rw [Machine.sources_drop, harity]
      exact has.drop _

end

end Ground

end TacticEngine
