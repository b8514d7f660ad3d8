/-
# TacticEngine.Proofs.Agreement.Soundness -- what the machine gives, reduction gives.

The machine works on well-formed code, values and heaps.  If it gives a value, the term that was
compiled becomes this value; if it applies one, the application goes on as the result does; if it reads
one back, normalizing the source of the value gives this term.  If it breaks off with an issue, so does
reduction.

The proof is an induction on the fuel of the machine, with one lemma for each of its functions.
-/
import TacticEngine.Proofs.Agreement.Filled

namespace TacticEngine

variable {β σ α γ : Type}

namespace Ground

open Machine (Code Delayed Value Heap Slots Memory Eval compile sources branchSources)
open Term (instantiateArgs instantiateBranches)

variable {G : Ground β σ} {Γ Γ' : List (Term β σ)}

/-! ## Heads -/

/-- A head that is no application, with arguments in normal form if it has any. -/
inductive Headed (G : Ground β σ) : Term β σ → Prop where
  | intro {h : Term β σ} {xs} : h.isApp = false → G.Good (h.apps xs) → (∀ x ∈ xs, G.Normal x) →
      Headed G (h.apps xs)

theorem Headed.good {t : Term β σ} (ht : G.Headed t) : G.Good t := by
  obtain ⟨-, hg, -⟩ := ht
  exact hg

theorem Forced.headed {v : Value β σ} (hv : G.Forced Γ v) : G.Headed v.head := by
  have halone {h : Term β σ} (happ : h.isApp = false) (hg : G.Good h) : G.Headed h := by
    have hnil : G.Headed (h.apps []) := .intro happ (by rwa [Term.apps_nil]) (by simp)
    rwa [Term.apps_nil] at hnil
  obtain ⟨hv, hthunk⟩ := hv
  cases hv with
  | ctor => exact halone rfl .ctor
  | lit => exact halone rfl .lit
  | blob hb => exact halone rfl hb
  | @lam n b code frame held hb _ hframe _ hlt =>
      have hg := good_instantiate hb (good_sources hframe)
      refine halone ?_ hg
      rw [Value.head, Term.instantiate_lam (Nat.lt_of_le_of_lt (Nat.zero_le _) hlt)]
      rfl
  | step hs ht => exact halone (isApp_of_stepOf hs) ht
  | stuck hg => exact halone rfl hg
  | thunk => cases hthunk
  | neutral ht hg =>
      cases ht with
      | declined hs _ hnow _ => exact .intro (isApp_of_stepOf hs) hg hnow
      | _ => exact halone rfl hg

/-- Normalizing leaves the head and goes on with the arguments. -/
theorem Headed.comes_normArgs {t : Term β σ} (ht : G.Headed t) {as ts : List (Term β σ)}
    (hts : G.ComeAll (pure ts) (G.norms as)) :
    G.Comes (pure (t.apps ts)) (G.normArgs (t.apps as)) := by
  obtain ⟨happ, hg, hxs⟩ := ht
  rw [Term.apps_apps, Term.apps_apps]
  exact Comes.normArgs happ (good_apps happ hg).1 ((comeAll_of_normal hxs).append hts)

theorem Headed.comes_normArgs_throw {t : Term β σ} (ht : G.Headed t) {as : List (Term β σ)}
    {e : Halt β} (hts : G.ComeAll (throw e) (G.norms as)) :
    G.Comes (throw e) (G.normArgs (t.apps as)) := by
  obtain ⟨happ, -, hxs⟩ := ht
  rw [Term.apps_apps]
  exact Comes.normArgs_throw happ ((comeAll_of_normal hxs).append_throw hts)

/-! ## What the machine ensures -/

section

variable (G)

/-- The evaluation gives a value that the term becomes. -/
abbrev Evaluates (Γ : List (Term β σ)) (m : Eval β σ (Value β σ)) (t : Term β σ) : Prop :=
  G.Ensures Γ m (fun Γ' v => G.Forced Γ' v ∧ G.Becomes t v) (G.Fails t)

/-- The evaluation gives a value as which the given one goes on when it is applied. -/
abbrev Applies (Γ : List (Term β σ)) (m : Eval β σ (Value β σ)) (f : Value β σ)
    (args : List (Term β σ)) : Prop :=
  G.Ensures Γ m (fun Γ' v => G.Forced Γ' v ∧ G.Into f args v) (G.FailsInto f args)

/-- The evaluation gives the normal form of the term. -/
abbrev Normalizes (Γ : List (Term β σ)) (m : Eval β σ (Term β σ)) (t : Term β σ) : Prop :=
  G.Ensures Γ m (fun _ u => G.Good u ∧ G.Comes (pure u) (G.norm t))
    fun h => G.Comes (throw h) (G.norm t)

/-- With a given amount of fuel, all that the machine does is what reduction does. -/
structure SoundAt (l n : Nat) : Prop where
  run : ∀ {Γ t code frame}, G.Compiled Γ t code → G.like.Alike frame.length t t →
    (∀ f ∈ frame, G.Formed Γ f) →
    G.Evaluates Γ (Machine.run (G.machine l) n code frame) (t.instantiate 0 (sources frame))
  unfold : ∀ {Γ c}, G.steps.lookup c = none →
    G.Evaluates Γ (Machine.unfold (G.machine l) n c) (.const c)
  force : ∀ {Γ v}, G.Formed Γ v → G.Evaluates Γ (Machine.force (G.machine l) n v) v.source
  /-- A step may be applied to nothing, even if it takes nothing and so is no value. -/
  step : ∀ {Γ t s}, G.stepOf t = some s → G.Good t →
    G.Evaluates Γ (Machine.apply (G.machine l) n (.step t s []) []) t
  apply : ∀ {Γ f args}, G.Forced Γ f → (∀ a ∈ args, G.Formed Γ a) →
    G.Applies Γ (Machine.apply (G.machine l) n f args) f (sources args)
  applyForced : ∀ {Γ f args}, G.Forced Γ f → (∀ a ∈ args, G.Formed Γ a) →
    G.Applies Γ (Machine.applyForced (G.machine l) n f args) f (sources args)
  constant : ∀ {Γ t s}, G.stepOf t = some s → G.Good t → s.arity = 0 →
    G.Evaluates Γ (Machine.applyForced (G.machine l) n (.step t s []) []) t
  applyRest : ∀ {Γ v rest}, G.Forced Γ v → (∀ a ∈ rest, G.Formed Γ a) →
    G.Applies Γ (Machine.applyRest (G.machine l) n v rest) v (sources rest)
  readback : ∀ {Γ v}, G.Formed Γ v →
    G.Normalizes Γ (Machine.readback (G.machine l) n v) v.source

end

/-! ## Reading back -/

section

variable (hG : G.Lawful) {l n : Nat} (ih : G.SoundAt l n)

include ih

theorem SoundAt.readbacks : ∀ {Γ : List (Term β σ)} {vs : List (Value β σ)},
    (∀ v ∈ vs, G.Formed Γ v) → G.Ensures Γ (vs.mapM (Machine.readback (G.machine l) n))
      (fun _ ts => ts.length = vs.length ∧ G.GoodArgs ts ∧
        G.ComeAll (pure ts) (G.norms (sources vs)))
      fun h => G.ComeAll (throw h) (G.norms (sources vs))
  | _, [], _ => by
      rw [List.mapM_nil]
      exact .pure ⟨rfl, .nil, norms_nil⟩
  | Γ, v :: vs, hvs => by
      rw [List.mapM_cons, sources]
      refine ((ih.readback (hvs v List.mem_cons_self)).imp (fun _ _ _ h => h)
        fun h hfail => ComeAll.throw_cons hfail).bind fun Γ₁ t hΓ ht => ?_
      have hrest := SoundAt.readbacks fun u hu => (hvs u (List.mem_cons_of_mem v hu)).mono hΓ
      refine (hrest.imp (fun _ _ _ h => h) fun h hfail => ComeAll.cons_throw ht.2 hfail).bind
        fun Γ₂ ts _ hts => ?_
      obtain ⟨hlen, hgood, hts⟩ := hts
      exact .pure ⟨congrArg Nat.succ hlen, .cons ht.1 hgood, ComeAll.cons ht.2 hts⟩

include hG

/-- Reading back a value, once it is forced, normalizes what is reduced to it. -/
theorem SoundAt.readback_forced {u : Value β σ} {t : Term β σ} (hu : G.Forced Γ u)
    (hcomes : G.Comes (pure u.source) (G.whnf t)) :
    G.Normalizes Γ (Machine.bounded u.head? >>= fun h =>
      u.args.mapM (Machine.readback (G.machine l) n) >>= fun ts => pure (h.apps ts)) t := by
  refine Ensures.bounded.bind fun Γ₁ h hΓ hh => ?_
  obtain rfl := Value.head_of_head? hh
  have hargs := ih.readbacks (formed_mono hΓ hu.1.args)
  have hhead := hu.headed
  rw [Value.source_eq u] at hcomes
  refine (hargs.imp (fun _ _ _ h => h) fun h hfail => ?_).bind fun Γ₂ ts _ hts => .pure ⟨?_, ?_⟩
  · exact Comes.norm hcomes fun _ => (hhead.comes_normArgs_throw hfail).congr_normArgs hG
  · exact hhead.good.apps hts.2.1
  · exact Comes.norm hcomes fun _ => (hhead.comes_normArgs hts.2.2).congr_normArgs hG

theorem SoundAt.readback_succ {v : Value β σ} (hv : G.Formed Γ v) :
    G.Normalizes Γ (Machine.readback (G.machine l) (n + 1) v) v.source := by
  rw [Machine.readback_succ]
  refine ((ih.force hv).imp (fun _ _ _ h => h) fun h hfail => Comes.norm_throw hfail.comes).bind
    fun Γ₁ u _ hu => ?_
  rw [hu.1.2]
  exact ih.readback_forced hG hu.1 (hu.2.comes hu.1)

end

/-! ## Firing -/

section

variable {m : Ideal β (Term β σ)} {t : Term β σ} {s : Step σ}

/-- A step with enough arguments is fired. -/
theorem step_shifts (hs : G.stepOf t = some s) {as : List (Term β σ)} (harity : s.arity ≠ 0)
    (hle : s.arity ≤ as.length) : Shifts (G.firing s t as) (G.whnf (t.apps as)) := by
  have hne : as ≠ [] := by
    rintro rfl
    exact harity (Nat.le_zero.mp hle)
  rw [Term.apps_of_not_isApp (isApp_of_stepOf hs) hne]
  refine ⟨3, 1, fun l n => ?_⟩
  rw [whnf_app_of_still (still_step hs harity), whnfApp_step hs hle]

theorem apps_ne_lit (hs : G.stepOf t = some s) (as : List (Term β σ)) (x : Literal) :
    t.apps as ≠ .lit x := by
  intro heq
  obtain ⟨rfl, -⟩ := Term.apps_inj (isApp_of_stepOf hs) rfl
    (heq.trans (Term.apps_nil (Term.lit x)).symm)
  cases hs

theorem take_sources {now later : List (Value β σ)} {k : Nat} (hlen : now.length = k)
    (as : List (Term β σ)) : (sources (now ++ later) ++ as).take k = sources now := by
  rw [Machine.sources_append, List.append_assoc, ← hlen, ← Machine.length_sources, List.take_left]

theorem drop_sources {now later : List (Value β σ)} {k : Nat} (hlen : now.length = k)
    (as : List (Term β σ)) : (sources (now ++ later) ++ as).drop k = sources later ++ as := by
  rw [Machine.sources_append, List.append_assoc, ← hlen, ← Machine.length_sources, List.drop_left]

/-- A firing goes on with what the step gives, applied to what is left. -/
theorem Comes.firing_some (hG : G.Lawful) (hs : G.like.step s s) {now later : List (Value β σ)}
    (hlen : now.length = s.arity) (hnow : ∀ a ∈ now, G.Formed Γ a) (hlater : ∀ a ∈ later, G.Formed Γ a)
    {ts as : List (Term β σ)} {u : Term β σ} (hts : G.ComeAll (pure ts) (G.norms (sources now)))
    (hact : G.Acts (pure (some u)) s ts) (has : G.GoodArgs as)
    (hm : G.Comes m (G.whnf (u.apps (sources later ++ as)))) :
    G.Comes m (G.firing s t (sources (now ++ later) ++ as)) := by
  have hargs : G.GoodArgs (sources (now ++ later) ++ as) := by
    rw [Machine.sources_append]
    exact ((good_sources hnow).append (good_sources hlater)).append has
  refine Comes.fire_some hG hs hargs ?_ hact ?_
  · rwa [take_sources hlen]
  · rwa [drop_sources hlen]

variable (hG : G.Lawful) {l n : Nat} (ih : G.SoundAt l n)

include hG ih

/-- What a step does to values that it gets read back: what it does to the normalized arguments. -/
theorem SoundAt.fire (hs : G.like.step s s) {now : List (Value β σ)}
    (hnow : ∀ a ∈ now, G.Formed Γ a) :
    G.Ensures Γ (Machine.fire (G.machine l) (Machine.readback (G.machine l) n) s now)
      (fun Γ' r => (∀ v, r = some v → G.Formed Γ' v) ∧
        ∃ ts, G.ComeAll (pure ts) (G.norms (sources now)) ∧ G.Acts (pure (r.map Value.source)) s ts)
      fun h => G.ComeAll (throw h) (G.norms (sources now)) ∨
        ∃ ts, G.ComeAll (pure ts) (G.norms (sources now)) ∧ G.Acts (throw h) s ts := by
  have hdirect : (G.machine l).direct s.body = none := hG.direct hs
  rw [Machine.fire, hdirect]
  refine ((ih.readbacks hnow).imp (fun _ _ _ h => h) fun h hfail => .inl hfail).bind
    fun Γ₁ ts _ hts => ?_
  replace hts := hts.2
  refine (Ensures.inWorld (keeps_note hG hs hts.1)).bind fun Γ₂ _ _ _ => ?_
  have hact := keeps_act hG l hs hts.1
  refine (Ensures.inWorld (hact.imp (fun e he => .inr ⟨ts, hts.2, he⟩) fun _ h => h)).bind
    fun Γ₃ r _ hr => ?_
  cases r with
  | none => exact .pure ⟨(by simp), ts, hts.2, hr.2⟩
  | some u =>
      refine (Ensures.ofTerm (hr.1 u rfl)).bind fun Γ₄ v _ hv => .pure ⟨?_, ts, hts.2, ?_⟩
      · rintro _ ⟨⟩
        exact hv.1
      · rw [Option.map_some, hv.2]
        exact hr.2

/-- What is done with a step that has enough arguments. -/
theorem SoundAt.fires (hs : G.stepOf t = some s) (ht : G.Good t) {now later : List (Value β σ)}
    (hlen : now.length = s.arity) (hnow : ∀ a ∈ now, G.Formed Γ a)
    (hlater : ∀ a ∈ later, G.Formed Γ a) :
    G.Ensures Γ (do
      match ← Machine.fire (G.machine l) (Machine.readback (G.machine l) n) s now with
      | some v => do
        let v ← Machine.force (G.machine l) n v
        Machine.applyRest (G.machine l) n v later
      | none => do
        let terms ← now.mapM (Machine.readback (G.machine l) n)
        return .neutral (t.apps terms) later)
      (fun Γ' u => G.Forced Γ' u ∧ ∀ m as, G.GoodArgs as → G.Comes m (G.App u as) →
        G.Comes m (G.firing s t (sources (now ++ later) ++ as)))
      fun h => ∀ as, G.GoodArgs as → G.Comes (throw h) (G.firing s t (sources (now ++ later) ++ as)) := by
  have hstep := stepOf_like hG hs ht
  have hgood := good_sources hlater
  have htake (as : List (Term β σ)) :
      (sources (now ++ later) ++ as).take s.arity = sources now := take_sources hlen as
  have hdrop (as : List (Term β σ)) :
      (sources (now ++ later) ++ as).drop s.arity = sources later ++ as := drop_sources hlen as
  have hargs {as : List (Term β σ)} (has : G.GoodArgs as) :
      G.GoodArgs (sources (now ++ later) ++ as) := by
    rw [Machine.sources_append]
    exact ((good_sources hnow).append hgood).append has
  refine ((ih.fire hG hstep hnow).imp (fun _ _ _ h => h) ?_).bind fun Γ₁ r hΓ hr => ?_
  · rintro h hfail as has
    rcases hfail with hfail | ⟨ts, hts, hact⟩
    · exact Comes.fire_throw (by rwa [htake])
    · exact Comes.fire_issue hG hstep (by rwa [htake]) hact
  obtain ⟨hformed, ts, hts, hact⟩ := hr
  cases r with
  | some v =>
      have hgo {m : Ideal β (Term β σ)} {as : List (Term β σ)} (has : G.GoodArgs as)
          (hm : G.Comes m (G.whnf (v.source.apps (sources later ++ as)))) :
          G.Comes m (G.firing s t (sources (now ++ later) ++ as)) :=
        Comes.firing_some hG hstep hlen hnow hlater hts hact has hm
      refine ((ih.force (hformed v rfl)).imp (fun _ _ _ h => h) fun h hfail as has => ?_).bind
        fun Γ₂ v' hΓ' hv => ?_
      · exact hgo has (hfail _ (hgood.append has))
      refine (ih.applyRest hv.1 (formed_mono (hΓ.trans hΓ') hlater)).imp
        (fun Γ₃ u _ hu => ⟨hu.1, fun m as has hm => ?_⟩) fun h hfail as has => ?_
      · exact hgo has (hv.2 m _ (hgood.append has) (hu.2 m as has hm))
      · exact hgo has (hv.2 _ _ (hgood.append has) (hfail as has))
  | none =>
      have hnone (ts' : List (Term β σ)) (hts' : G.ComeAll (pure ts') (G.norms (sources now)))
          (hact' : G.Acts (pure none) s ts') {as : List (Term β σ)} (has : G.GoodArgs as) :
          G.Comes (pure ((t.apps ts').apps (sources later ++ as)))
            (G.firing s t (sources (now ++ later) ++ as)) := by
        rw [Term.apps_apps, ← hdrop as]
        exact Comes.fire_none hG hstep ht (hargs has) (by rwa [htake]) hact'
      refine ((ih.readbacks (formed_mono hΓ hnow)).imp (fun _ _ _ h => h)
        fun h hfail as _ => Comes.fire_throw (by rwa [htake])).bind fun Γ₂ ts' hΓ' hts' => ?_
      obtain ⟨hlen', hgood', hts'⟩ := hts'
      -- the arguments have been normalized twice, to the same terms
      rcases hts.normal_or_overflow hG (good_sources hnow) hts' with ⟨hlike, hnormal⟩ | hover
      · have hact' := hact.congr hG hstep hlike
        have hu : G.Forced Γ₂ (.neutral (t.apps ts') later) := by
          refine ⟨.neutral (.declined hs (hlen'.trans hlen) hnormal hact') (ht.apps hgood') ?_ ?_, rfl⟩
          · exact fun x hx => absurd hx (apps_ne_lit hs ts' x)
          · exact formed_mono (hΓ.trans hΓ') hlater
        refine .pure ⟨hu, fun m as has hm => ?_⟩
        rw [App, if_neg (by simp [Value.isFunction]), Value.source, Term.apps_apps] at hm
        have hrefl := (ht.apps hgood').apps (hgood.append has)
        exact Comes.of_pure hG hm (hnone ts' hts' hact' has) hrefl
      · exact .of_overflow fun as _ => Comes.fire_throw (by rwa [htake])

end

/-! ## Application -/

section

theorem app_of_function {v : Value β σ} (hf : v.isFunction = true) (as : List (Term β σ)) :
    G.App v as = G.whnf (v.source.apps as) := if_pos hf

theorem app_eq {v u : Value β σ} {as : List (Term β σ)} (hf : u.isFunction = v.isFunction)
    (hs : u.source = v.source.apps as) (bs : List (Term β σ)) : G.App u bs = G.App v (as ++ bs) := by
  rw [App, App, hf, hs, Term.apps_apps]

/-- Arguments that are only collected. -/
theorem Into.collect {v u : Value β σ} {args : List (Term β σ)} (hf : u.isFunction = v.isFunction)
    (hs : u.source = v.source.apps args) : G.Into v args u := by
  intro m as _ hm
  rwa [app_eq hf hs] at hm

/-- The body of a lambda in the frame of its closure, with values for its variables. -/
theorem comes_lam {m : Ideal β (Term β σ)} {n : Nat} {b : Term β σ} {now frame : List (Value β σ)}
    {later : List (Term β σ)} (hlen : now.length = n) (hn : 0 < n)
    (hframe : ∀ f ∈ frame, f.source.Canonical ∧ f.source.Closed)
    (hm : G.Comes m (G.whnf ((b.instantiate 0 (sources (now.reverse ++ frame))).apps later))) :
    G.Comes m (G.whnf (((Term.lam n b).instantiate 0 (sources frame)).apps (sources now ++ later))) := by
  have hnow : now ≠ [] := List.ne_nil_of_length_pos (hlen ▸ hn)
  have hne := List.append_ne_nil_of_left_ne_nil (mt Machine.sources_eq_nil_iff.mp hnow) later
  have hlength : (sources now).length = n := by rw [Machine.length_sources, hlen]
  rw [Term.instantiate_lam hn, Term.apps_of_not_isApp rfl hne]
  refine Comes.app_of_still (still_lam _ _) (Comes.beta ?_ fun b' hb' => ?_)
  · rw [List.length_append, hlength]
    exact Nat.le_add_right _ _
  · rw [List.take_left' hlength, ← hlen] at hb'
    rwa [instantiate_bound hframe hb', List.drop_left' hlength]

/-- A step that gets enough arguments is fired. -/
theorem Due.comes {m : Ideal β (Term β σ)} {t : Term β σ} {s : Step σ} {held args : List (Value β σ)}
    {as : List (Term β σ)} (hs : G.Due Γ t s (held ++ args))
    (hm : G.Comes m (G.firing s t (sources ((held ++ args).take s.arity ++ (held ++ args).drop s.arity) ++ as))) :
    G.Comes m (G.App (.step t s held) (sources args ++ as)) := by
  have hle := hs.enough
  rw [List.take_append_drop] at hm
  rw [app_of_function rfl, Value.source, Term.apps_apps, ← List.append_assoc, ← Machine.sources_append]
  refine hm.of_shifts (step_shifts hs.stepOf (Nat.ne_of_gt hs.positive) ?_)
  rw [List.length_append, Machine.length_sources]
  omega

variable (hG : G.Lawful) {l n : Nat} (ih : G.SoundAt l n)

include hG in
theorem formed_closed {frame : List (Value β σ)} (hframe : ∀ f ∈ frame, G.Formed Γ f) :
    ∀ f ∈ frame, f.source.Canonical ∧ f.source.Closed := by
  intro f hf
  have hg := (hframe f hf).good
  exact ⟨hg.canonical hG.canonical, hg.closedBelow hG.closed⟩

include hG in
/-- A closure that gets enough arguments goes on with its body. -/
theorem Saturated.comes {m : Ideal β (Term β σ)} {arity : Nat} {b : Term β σ} {code : Code β σ}
    {frame held args : List (Value β σ)} {as : List (Term β σ)}
    (hs : G.Saturated Γ arity b code frame (held ++ args))
    (hm : G.Comes m (G.whnf ((b.instantiate 0
      (sources (((held ++ args).take arity).reverse ++ frame))).apps
        (sources ((held ++ args).drop arity) ++ as)))) :
    G.Comes m (G.App (.lam arity (.lam arity b) code frame held) (sources args ++ as)) := by
  rw [app_of_function rfl, Value.source, Term.apps_apps, ← List.append_assoc, ← Machine.sources_append,
    ← List.take_append_drop arity (held ++ args), Machine.sources_append, List.append_assoc]
  exact comes_lam (List.length_take_of_le hs.enough) hs.positive (formed_closed hG hs.captured) hm

include hG ih

theorem SoundAt.applyForced_lam {arity : Nat} {b : Term β σ} {code : Code β σ}
    {frame held args : List (Value β σ)} (hf : G.Forced Γ (.lam arity (.lam arity b) code frame held))
    (hargs : ∀ a ∈ args, G.Formed Γ a) :
    G.Applies Γ (Machine.applyForced (G.machine l) (n + 1)
      (.lam arity (.lam arity b) code frame held) args)
      (.lam arity (.lam arity b) code frame held) (sources args) := by
  rw [Machine.applyForced]
  by_cases hfew : (held ++ args).length < arity
  · rw [if_pos hfew]
    refine .pure ⟨hf.collect_lam hargs hfew, Into.collect rfl ?_⟩
    rw [Value.source, Value.source, Machine.sources_append, Term.apps_apps]
  · rw [if_neg hfew]
    have hs := hf.saturated hargs (Nat.le_of_not_lt hfew)
    have hgood := good_sources hs.later
    refine ((ih.run hs.compiled hs.body hs.values).imp (fun _ _ _ h => h)
      fun h hfail as has => ?_).bind fun Γ₁ v hΓ hv => ?_
    · exact hs.comes hG (hfail _ (hgood.append has))
    · refine (ih.applyRest hv.1 (formed_mono hΓ hs.later)).imp
        (fun Γ₂ u _ hu => ⟨hu.1, fun m as has hm => ?_⟩) fun h hfail as has => ?_
      · exact hs.comes hG (hv.2 m _ (hgood.append has) (hu.2 m as has hm))
      · exact hs.comes hG (hv.2 _ _ (hgood.append has) (hfail as has))

theorem SoundAt.applyForced_step {t : Term β σ} {s : Step σ} {held args : List (Value β σ)}
    (hf : G.Forced Γ (.step t s held)) (hargs : ∀ a ∈ args, G.Formed Γ a) :
    G.Applies Γ (Machine.applyForced (G.machine l) (n + 1) (.step t s held) args)
      (.step t s held) (sources args) := by
  rw [Machine.applyForced]
  dsimp only
  by_cases hfew : (held ++ args).length < s.arity
  · rw [if_pos hfew]
    refine .pure ⟨hf.collect_step hargs hfew, Into.collect rfl ?_⟩
    rw [Value.source, Value.source, Machine.sources_append, Term.apps_apps]
  · rw [if_neg hfew]
    have hs := hf.due hargs (Nat.le_of_not_lt hfew)
    exact (ih.fires hG hs.stepOf hs.good (List.length_take_of_le hs.enough) hs.now hs.later).imp
      (fun _ u _ hu => ⟨hu.1, fun m as has hm => hs.comes (hu.2 m as has hm)⟩)
      fun h hfail as has => hs.comes (hfail as has)

/-- A step that takes no arguments is fired. -/
theorem SoundAt.constant_succ {t : Term β σ} {s : Step σ} (hs : G.stepOf t = some s)
    (ht : G.Good t) (harity : s.arity = 0) :
    G.Evaluates Γ (Machine.applyForced (G.machine l) (n + 1) (.step t s []) []) t := by
  rw [Machine.applyForced]
  dsimp only
  rw [if_neg (by rw [harity]; exact Nat.not_lt_zero _)]
  have htake : ([] ++ [] : List (Value β σ)).take s.arity = [] := List.take_nil
  have hdrop : ([] ++ [] : List (Value β σ)).drop s.arity = [] := List.drop_nil
  have hlen : ([] : List (Value β σ)).length = s.arity := harity.symm
  have hfires := ih.fires (Γ := Γ) hG hs ht hlen formed_nil formed_nil
  rw [htake, hdrop]
  refine hfires.imp (fun _ u _ hu => ⟨hu.1, ?_⟩) fun h hfail => ?_
  · refine Becomes.of_comes hG hu.1 ht (isApp_of_stepOf hs) (Tie.Follows.shift 2 0 (whnf_firing hs harity) ?_)
    have hm := hu.2 _ [] .nil hu.1.comes_app
    simpa [sources] using hm
  · refine Fails.of_comes (isApp_of_stepOf hs) (Tie.Follows.shift 2 0 (whnf_firing hs harity) ?_)
    have hm := hfail [] .nil
    simpa [sources] using hm

theorem SoundAt.applyForced_succ {f : Value β σ} {args : List (Value β σ)} (hf : G.Forced Γ f)
    (hargs : ∀ a ∈ args, G.Formed Γ a) :
    G.Applies Γ (Machine.applyForced (G.machine l) (n + 1) f args) f (sources args) := by
  have hf' := hf
  obtain ⟨hformed, hthunk⟩ := hf'
  cases hformed with
  | lam => exact ih.applyForced_lam hG hf hargs
  | step => exact ih.applyForced_step hG hf hargs
  | thunk => cases hthunk
  | ctor hheld =>
      rw [Machine.applyForced]
      refine .pure ⟨⟨.ctor (formed_append hheld hargs), rfl⟩, Into.collect rfl ?_⟩
      rw [Value.source, Value.source, Machine.sources_append, Term.apps_apps]
  | neutral ht hg hlit hheld =>
      rw [Machine.applyForced]
      refine .pure ⟨⟨.neutral ht hg ?_ (formed_append hheld hargs), rfl⟩, Into.collect rfl ?_⟩
      · exact fun x hx => List.append_ne_nil_of_left_ne_nil (hlit x hx) args
      · rw [Value.source, Value.source, Machine.sources_append, Term.apps_apps]
  | stuck hg hcomes hs hframe hheld =>
      rw [Machine.applyForced]
      refine .pure ⟨⟨.stuck hg hcomes hs hframe (formed_append hheld hargs), rfl⟩, Into.collect rfl ?_⟩
      rw [Value.source, Value.source, Machine.sources_append, Term.apps_apps]
  | lit =>
      rw [Machine.applyForced]
      cases args with
      | nil => exact .pure ⟨hf, Into.refl _⟩
      | cons a as =>
          exact .pure ⟨⟨.neutral .lit .lit (fun _ _ => List.cons_ne_nil a as) hargs, rfl⟩,
            Into.collect rfl rfl⟩
  | blob hb =>
      rw [Machine.applyForced]
      cases args with
      | nil => exact .pure ⟨hf, Into.refl _⟩
      | cons a as =>
          exact .pure ⟨⟨.neutral .blob hb (by simp) hargs, rfl⟩, Into.collect rfl rfl⟩

omit hG in
theorem SoundAt.applyRest_succ {v : Value β σ} {rest : List (Value β σ)} (hv : G.Forced Γ v)
    (hrest : ∀ a ∈ rest, G.Formed Γ a) :
    G.Applies Γ (Machine.applyRest (G.machine l) (n + 1) v rest) v (sources rest) := by
  rw [Machine.applyRest]
  cases rest with
  | nil => exact .pure ⟨hv, Into.refl v⟩
  | cons a as => exact ih.applyForced hv hrest

omit hG in
/-- Forcing a value that is forced does nothing. -/
theorem SoundAt.apply_succ {f : Value β σ} {args : List (Value β σ)} (hf : G.Forced Γ f)
    (hargs : ∀ a ∈ args, G.Formed Γ a) :
    G.Applies Γ (Machine.apply (G.machine l) (n + 1) f args) f (sources args) := by
  rw [Machine.apply]
  cases n with
  | zero => exact .exhausted
  | succ n =>
      rw [Machine.force_of_forced hf.2, pure_bind]
      exact ih.applyForced hf hargs

omit hG in
theorem SoundAt.step_succ {t : Term β σ} {s : Step σ} (hs : G.stepOf t = some s) (ht : G.Good t) :
    G.Evaluates Γ (Machine.apply (G.machine l) (n + 1) (.step t s []) []) t := by
  rw [Machine.apply]
  cases n with
  | zero => exact .exhausted
  | succ n =>
      rw [Machine.force_of_forced rfl, pure_bind]
      by_cases harity : s.arity = 0
      · exact ih.constant hs ht harity
      · have hf : G.Forced Γ (.step t s []) :=
          ⟨.step hs ht (by simp) (Nat.pos_of_ne_zero harity), rfl⟩
        have hsource : (Value.step t s []).source = t := by
          rw [Value.source, sources, Term.apps_nil]
        refine (ih.applyForced hf formed_nil).imp
          (fun Γ₁ u _ hu => ⟨hu.1, fun m as has hm => ?_⟩) fun h hfail as has => ?_
        · have hgo := hu.2 m as has hm
          rwa [sources, List.nil_append, app_of_function rfl, hsource] at hgo
        · have hgo := hfail as has
          rwa [sources, List.nil_append, app_of_function rfl, hsource] at hgo

/-! ## Evaluation -/

omit ih in
/-- A term whose reduction goes on with another one. -/
theorem Evaluates.of_comes {m : Eval β σ (Value β σ)} {t t' : Term β σ} (h : G.Evaluates Γ m t)
    (ht : G.Good t') (happ : t'.isApp = false)
    (hgo : ∀ {o}, G.Comes o (G.whnf t) → G.Comes o (G.whnf t')) : G.Evaluates Γ m t' :=
  h.imp (fun _ _ _ hv => ⟨hv.1, Becomes.of_comes hG hv.1 ht happ (hgo (hv.2.comes hv.1))⟩)
    fun _ hfail => Fails.of_comes happ (hgo hfail.comes)

theorem SoundAt.force_succ {v : Value β σ} (hv : G.Formed Γ v) :
    G.Evaluates Γ (Machine.force (G.machine l) (n + 1) v) v.source := by
  cases hv' : v.isThunk with
  | false =>
      rw [Machine.force_of_forced hv']
      exact .pure ⟨⟨hv, hv'⟩, Becomes.refl hG ⟨hv, hv'⟩⟩
  | true =>
      cases hv with
      | @thunk slot src frame code? hslot hsrc hcode hframe =>
          rw [Machine.force, Value.source]
          refine .orElse (fun v hv hbecomes => ⟨hv, hbecomes _ hslot⟩) ?_
          have hrun (Γ₁ : List (Term β σ)) (code : Code β σ) (hΓ : Γ <+: Γ₁)
              (hcode : G.Compiled Γ₁ src code) : G.Evaluates Γ₁ (do
                let v ← Machine.run (G.machine l) n code frame
                Machine.inHeap (·.fill slot v)) (src.instantiate 0 (sources frame)) := by
            refine (ih.run hcode hsrc (formed_mono hΓ hframe)).bind fun Γ₂ u hΓ' hu => ?_
            have hslot' := getElem?_mono (hΓ.trans hΓ') hslot
            refine (Ensures.fill hu.1 fun t ht => ?_).imp (fun Γ₃ u' hΓ'' hu' => ⟨hu'.1, ?_⟩)
              fun _ h => h
            · rw [hslot'] at ht
              cases ht
              exact hu.2
            · exact hu'.2 _ (getElem?_mono hΓ'' hslot')
          cases code? with
          | some code => exact hrun Γ code List.prefix_rfl (hcode code rfl)
          | none => exact (Ensures.reserve (compile_compiled hG Γ src)).bind hrun
      | _ => cases hv'

theorem SoundAt.unfold_succ {c : String} (hc : G.steps.lookup c = none) :
    G.Evaluates Γ (Machine.unfold (G.machine l) (n + 1) c) (.const c) := by
  rw [Machine.unfold, env_machine]
  cases hbody : G.env.unfoldable c with
  | none =>
      have hv : G.Forced Γ (.neutral (.const c) []) :=
        ⟨.neutral (.const hc hbody) (.const (hG.const c)) (by simp) (by simp), rfl⟩
      exact .pure ⟨hv, Becomes.refl hG hv⟩
  | some body =>
      refine (Ensures.reserve (compile_compiled hG Γ body)).bind fun Γ₁ code _ hcode => ?_
      have hrun : G.Evaluates Γ₁ (Machine.run (G.machine l) n code [])
          (body.instantiate 0 (sources [])) := ih.run hcode (hG.unfoldable hbody) formed_nil
      rw [sources, Term.instantiate_nil] at hrun
      exact hrun.of_comes hG (.const (hG.const c)) rfl (.unfold hc hbody)

omit hG ih in
/-- A case distinction has kept the branches that it was compiled from. -/
theorem CompiledBranches.branchSources_eq {brs : List (Branch (Term β σ))}
    {cs : List (Branch (Term β σ × Code β σ))} (h : G.CompiledBranches Γ brs cs) :
    branchSources cs = brs := by
  induction brs generalizing cs with
  | nil =>
      cases h
      rfl
  | cons br brs ih =>
      cases h with
      | cons _ hcs => exact congrArg (List.cons _) (ih hcs)

omit ih in
/-- A case distinction is stuck if its scrutinee has a value that no branch is for. -/
theorem Forced.stuck {v : Value β σ} {frame : List (Value β σ)} {brs : List (Branch (Term β σ))}
    {cs : List (Branch (Term β σ × Code β σ))} (hv : G.Forced Γ v) (hcs : G.CompiledBranches Γ brs cs)
    (hbrs : G.like.AlikeBranches 0 (instantiateBranches (sources frame) brs)
      (instantiateBranches (sources frame) brs)) (hframe : ∀ f ∈ frame, G.Formed Γ f)
    (hnone : Reduce.select v.source (instantiateBranches (sources frame) brs) = none) :
    G.Forced Γ (.stuck v (branchSources cs) frame []) := by
  have hhead : G.Good (.case v.source (instantiateBranches (sources frame) brs)) := .case hv.1.good hbrs
  have hstill := Comes.case_none ((Becomes.refl hG hv).comes hv) hbrs hnone
  rw [hcs.branchSources_eq]
  exact ⟨.stuck hhead hstill hv.1 hframe (by simp), rfl⟩

omit ih in
/-- A source of its own. -/
theorem evaluates_pure {v : Value β σ} (hv : G.Forced Γ v) : G.Evaluates Γ (pure v) v.source :=
  .pure ⟨hv, Becomes.refl hG hv⟩

theorem SoundAt.run_case {s : Term β σ} {brs : List (Branch (Term β σ))} {c : Code β σ}
    {cs : List (Branch (Term β σ × Code β σ))} {frame : List (Value β σ)}
    (hc : G.Compiled Γ s c) (hcs : G.CompiledBranches Γ brs cs)
    (ht : G.like.Alike frame.length (.case s brs) (.case s brs))
    (hframe : ∀ f ∈ frame, G.Formed Γ f) :
    G.Evaluates Γ (Machine.run (G.machine l) (n + 1) (.case c cs) frame)
      ((Term.case s brs).instantiate 0 (sources frame)) := by
  have hgood := good_instantiate ht (good_sources hframe)
  have hgoodbrs := good_instantiateBranches ht (good_sources hframe)
  rw [Term.instantiate_case] at hgood ⊢
  rw [Machine.run]
  cases ht with
  | case hs hbrs =>
      refine ((ih.run hc hs hframe).imp (fun _ _ _ h => h)
        fun h hfail => Fails.of_comes rfl (.case_throw hfail.comes)).bind fun Γ₁ v hΓ hv => ?_
      have hcomes := hv.2.comes hv.1
      have hcs₁ := hcs.mono hΓ
      cases hsel : Machine.select v cs with
      | some p =>
          obtain ⟨⟨src, body⟩, bound⟩ := p
          obtain ⟨b?, hb?, hchosen⟩ := select_some hv.1 (formed_closed hG hframe) hcs₁ hbrs hsel
          have hframe' := hchosen.frame (formed_mono hΓ hframe)
          refine (ih.run hchosen.compiled hchosen.body hframe').of_comes hG hgood rfl fun hm => ?_
          exact Comes.case_some hG hcomes hgoodbrs hb? fun b heq => by rwa [hchosen.term b heq]
      | none =>
          have hnone := select_none hv.1 (formed_closed hG hframe) hcs₁ hbrs hsel
          have hu := Forced.stuck hG hv.1 hcs₁ hgoodbrs (formed_mono hΓ hframe) hnone
          refine .pure ⟨hu, Becomes.of_comes hG hu hgood rfl ?_⟩
          have hgo := Comes.case_none hcomes hgoodbrs hnone
          rw [hcs.branchSources_eq]
          exact hgo

theorem SoundAt.run_app {h : Term β σ} {as : List (Term β σ)} {c : Code β σ}
    {ds : List (Delayed β σ)} {frame : List (Value β σ)} (hc : G.Compiled Γ h c)
    (hds : G.CompiledArgs Γ as ds) (ht : G.like.Alike frame.length (.app h as) (.app h as))
    (hframe : ∀ f ∈ frame, G.Formed Γ f) :
    G.Evaluates Γ (Machine.run (G.machine l) (n + 1) (.app c ds) frame)
      ((Term.app h as).instantiate 0 (sources frame)) := by
  rw [Term.instantiate_app (ht.canonical hG.canonical), Machine.run]
  cases ht with
  | app _ hh has =>
      have hgoodas := good_instantiateArgs has (good_sources hframe)
      refine ((ih.run hc hh hframe).imp (fun _ _ _ h => h)
        fun _ hfail => hfail.apps hgoodas).bind fun Γ₁ f hΓ hf => ?_
      refine (Ensures.delayed hG (hds.mono hΓ) has (formed_mono hΓ hframe)).bind
        fun Γ₂ vs hΓ' hvs => ?_
      obtain ⟨hvs, heq⟩ := hvs
      rw [← heq] at hgoodas ⊢
      exact (ih.apply (hf.1.mono hΓ') hvs).imp
        (fun _ u _ hu => ⟨hu.1, hf.2.into hgoodas hu.2⟩) fun _ hfail => hf.2.failsInto hgoodas hfail

omit hG ih in
theorem instantiate_of_stepOf {t : Term β σ} {s : Step σ} (hs : G.stepOf t = some s)
    (vals : List (Term β σ)) : t.instantiate 0 vals = t := by
  cases t with
  | const c => exact Term.instantiate_eq_self (t := .const c) trivial trivial vals
  | native s => exact Term.instantiate_eq_self (t := .native s) trivial trivial vals
  | _ => cases hs

/-- Running code goes on as reducing the term does that it was compiled from. -/
theorem SoundAt.run_succ {frame : List (Value β σ)} (hframe : ∀ f ∈ frame, G.Formed Γ f) :
    ∀ {t : Term β σ} {code : Code β σ}, G.Compiled Γ t code → G.like.Alike frame.length t t →
      G.Evaluates Γ (Machine.run (G.machine l) (n + 1) code frame)
        (t.instantiate 0 (sources frame))
  | _, _, .bvar, .bvar hi => by
      rw [Machine.run]
      refine (Ensures.lookup (hi hG.closed) hframe).bind fun Γ₁ v _ hv => ?_
      rw [← hv.2]
      exact ih.force hv.1
  | _, _, @Compiled.const _ _ _ _ c slot hc hslot, _ => by
      rw [Term.instantiate_eq_self (t := .const c) trivial trivial, Machine.run]
      refine .orElse (fun v hv hbecomes => ⟨hv, hbecomes _ hslot⟩) ?_
      refine (ih.unfold hc).bind fun Γ₁ v hΓ hv => ?_
      have hslot₁ := getElem?_mono hΓ hslot
      refine (Ensures.fill hv.1 fun t ht => ?_).imp (fun Γ₂ u hΓ' hu => ⟨hu.1, ?_⟩) fun _ h => h
      · rw [hslot₁] at ht
        cases ht
        exact hv.2
      · exact hu.2 _ (getElem?_mono hΓ' hslot₁)
  | t, _, @Compiled.step _ _ _ _ _ s hs, ht => by
      have hgood := good_instantiate ht (good_sources hframe)
      rw [instantiate_of_stepOf hs] at hgood ⊢
      rw [Machine.run]
      exact ih.step hs hgood
  | _, _, @Compiled.ctor _ _ _ _ c, _ => by
      rw [Term.instantiate_eq_self (t := .ctor c) trivial trivial, Machine.run]
      exact evaluates_pure hG ⟨.ctor (by simp), rfl⟩
  | _, _, @Compiled.free _ _ _ _ x, _ => by
      rw [Term.instantiate_eq_self (t := .free x) trivial trivial, Machine.run]
      exact evaluates_pure hG ⟨.neutral .free .free (by simp) (by simp), rfl⟩
  | _, _, @Compiled.uvar _ _ _ _ u, _ => by
      rw [Term.instantiate_eq_self (t := .uvar u) trivial trivial, Machine.run]
      exact evaluates_pure hG ⟨.neutral .uvar .uvar (by simp) (by simp), rfl⟩
  | _, _, @Compiled.lit _ _ _ _ x, _ => by
      rw [Term.instantiate_eq_self (t := .lit x) trivial trivial, Machine.run]
      exact evaluates_pure hG ⟨.lit, rfl⟩
  | _, _, @Compiled.blob _ _ _ _ b, .blob hb => by
      rw [Term.instantiate_eq_self (t := .blob b) trivial trivial, Machine.run]
      exact evaluates_pure hG ⟨.blob (.blob hb), rfl⟩
  | _, _, .app hc hds, ht => ih.run_app hG hc hds ht hframe
  | _, _, .lam hc, .lam hn hb => by
      rw [Machine.run]
      refine evaluates_pure hG (v := .lam _ _ _ frame []) ⟨?_, rfl⟩
      exact .lam (.lam hn hb) hc hframe (by simp) (hn hG.canonical)
  | _, _, .case hc hcs, ht => ih.run_case hG hc hcs ht hframe
  | _, _, @Compiled.ascribed _ _ _ _ e t c hc, ht => by
      have hgood := good_instantiate ht (good_sources hframe)
      rw [Term.instantiate_ascribed] at hgood ⊢
      cases ht with
      | ascribed he _ => exact (run_succ hframe hc he).of_comes hG hgood rfl fun h => h.ascribed _
  | _, _, .annotated hc, ht => by
      have hgood := good_instantiate ht (good_sources hframe)
      rw [Term.instantiate_annotated] at hgood ⊢
      cases ht with
      | annotated he => exact (run_succ hframe hc he).of_comes hG hgood rfl fun h => h.annotated _
  | _, _, .reify hc, ht => by
      have hgood := good_instantiate ht (good_sources hframe)
      rw [Term.instantiate_reify] at hgood ⊢
      cases ht with
      | reify he => exact (run_succ hframe hc he).of_comes hG hgood rfl fun h => h.reify

omit ih in
/-- The machine does what reduction does, whatever its fuel. -/
theorem soundAt (l n : Nat) : G.SoundAt l n := by
  induction n with
  | zero =>
      constructor
      all_goals
        intros
        exact .exhausted
  | succ n ih =>
      exact {
        run := fun hc ht hframe => ih.run_succ hG hframe hc ht
        unfold := ih.unfold_succ hG
        force := ih.force_succ hG
        step := ih.step_succ
        apply := ih.apply_succ
        applyForced := ih.applyForced_succ hG
        constant := ih.constant_succ hG
        applyRest := ih.applyRest_succ
        readback := ih.readback_succ hG }

end

end Ground

end TacticEngine
