/-
# TacticEngine.Proofs.Sharing.Tracing -- what the machine fires, reduction fires.

The machine fires some steps while it evaluates a term to a value; reduction fires these before it goes on
as the value does, and perhaps others between them.  It is the same for applying values and for reading
them back.  A suspended computation and a constant are evaluated at their first use only, and then what
they turn into is known; reduction starts over at each use.

A step that declines its arguments has them read back a second time.  That time the machine fires nothing:
what it needs is in the heap.

The induction is the one on fuel that shows what the machine gives, now with the firings.
-/
import TacticEngine.Proofs.Sharing.Stage

namespace TacticEngine

variable {β σ α γ : Type}

namespace Ground

open Machine (Code Delayed Value Heap Slots Memory Eval Silent compile sources branchSources)
open Term (instantiateArgs instantiateBranches)

variable {G : Ground β σ} {κ : G.Stage} {Γ : List (Term β σ)} {M N : List (Firing β σ)}

/-! ## Normalizing below a head -/

section

variable (hG : G.Lawful) (hq : G.Quiet) {t : Term β σ} {as ts : List (Term β σ)}

include hG hq

theorem Headed.goes_normArgs (ht : G.Headed t) (hts : G.GoAll (pure ts) (G.norms as) M) :
    G.Goes (pure (t.apps ts)) (G.normArgs (t.apps as)) M := by
  obtain ⟨happ, hg, hxs⟩ := ht
  obtain ⟨hh, hgoodxs⟩ := good_apps happ hg
  rw [Term.apps_apps, Term.apps_apps]
  exact Goes.normArgs happ hh ((goAll_of_normal hG hq hgoodxs hxs).append hts)

theorem Headed.goes_normArgs_throw (ht : G.Headed t) {e : Halt β}
    (hts : G.GoAll (throw e) (G.norms as) M) : G.Goes (throw e) (G.normArgs (t.apps as)) M := by
  obtain ⟨happ, hg, hxs⟩ := ht
  rw [Term.apps_apps]
  exact Goes.normArgs_throw happ
    ((goAll_of_normal hG hq (good_apps happ hg).2 hxs).append_throw hts)

end

/-! ## What the machine tells -/

section

variable (G)

/-- The evaluation gives a value that the term turns into, and fires what the term does. -/
abbrev Traces (κ : G.Stage) (m : Eval β σ (Value β σ)) (t : Term β σ) : Prop :=
  Tells κ m (fun κ' M v => G.Forced κ'.terms v ∧ G.Turns t v M) (G.Breaks t)

/-- The evaluation gives a value that the given one turns into when it is applied. -/
abbrev TracesInto (κ : G.Stage) (m : Eval β σ (Value β σ)) (f : Value β σ)
    (args : List (Term β σ)) : Prop :=
  Tells κ m (fun κ' M v => G.Forced κ'.terms v ∧ G.TurnsInto f args v M) (G.BreaksInto f args)

/-- The evaluation gives a value that the term turns into, and from then on gives it for nothing. -/
abbrev TracesOnce (κ : G.Stage) (m : Eval β σ (Value β σ)) (t : Term β σ) : Prop :=
  Tells κ m (fun κ' M v => G.Forced κ'.terms v ∧ G.Turns t v M ∧ Again κ' m v) (G.Breaks t)

/-- The evaluation gives the normal form of the term, and from then on gives it for nothing. -/
abbrev ReadsBack (κ : G.Stage) (m : Eval β σ (Term β σ)) (t : Term β σ) : Prop :=
  Tells κ m (fun κ' M u => G.Good u ∧ G.Goes (pure u) (G.norm t) M ∧ Again κ' m u)
    fun h M => G.Goes (throw h) (G.norm t) M

/-- With a given amount of fuel, all that the machine fires reduction fires. -/
structure TracesAt (l n : Nat) : Prop where
  run : ∀ {κ : G.Stage} {t code frame}, G.Compiled κ.terms t code →
    G.like.Alike frame.length t t → (∀ f ∈ frame, G.Formed κ.terms f) →
    G.Traces κ (Machine.run (G.machine l) n code frame) (t.instantiate 0 (sources frame))
  unfold : ∀ {κ : G.Stage} {c}, G.steps.lookup c = none →
    G.Traces κ (Machine.unfold (G.machine l) n c) (.const c)
  force : ∀ {κ : G.Stage} {v}, G.Formed κ.terms v →
    G.TracesOnce κ (Machine.force (G.machine l) n v) v.source
  step : ∀ {κ : G.Stage} {t s}, G.stepOf t = some s → G.Good t →
    G.Traces κ (Machine.apply (G.machine l) n (.step t s []) []) t
  apply : ∀ {κ : G.Stage} {f args}, G.Forced κ.terms f → (∀ a ∈ args, G.Formed κ.terms a) →
    G.TracesInto κ (Machine.apply (G.machine l) n f args) f (sources args)
  applyForced : ∀ {κ : G.Stage} {f args}, G.Forced κ.terms f → (∀ a ∈ args, G.Formed κ.terms a) →
    G.TracesInto κ (Machine.applyForced (G.machine l) n f args) f (sources args)
  constant : ∀ {κ : G.Stage} {t s}, G.stepOf t = some s → G.Good t → s.arity = 0 →
    G.Traces κ (Machine.applyForced (G.machine l) n (.step t s []) []) t
  applyRest : ∀ {κ : G.Stage} {v rest}, G.Forced κ.terms v → (∀ a ∈ rest, G.Formed κ.terms a) →
    G.TracesInto κ (Machine.applyRest (G.machine l) n v rest) v (sources rest)
  readback : ∀ {κ : G.Stage} {v}, G.Formed κ.terms v →
    G.ReadsBack κ (Machine.readback (G.machine l) n v) v.source

end

/-- What is formed at a stage is so at all later ones. -/
theorem Stage.Le.formed {κ' : G.Stage} (hκ : κ.Le κ') {vs : List (Value β σ)}
    (h : ∀ v ∈ vs, G.Formed κ.terms v) : ∀ v ∈ vs, G.Formed κ'.terms v :=
  fun v hv => (h v hv).mono hκ.terms

/-! ## Reading back -/

section

variable (hG : G.Lawful) (hq : G.Quiet) {l n : Nat} (ih : G.TracesAt l n)

include ih

theorem TracesAt.readbacks : ∀ {κ : G.Stage} {vs : List (Value β σ)},
    (∀ v ∈ vs, G.Formed κ.terms v) → Tells κ (vs.mapM (Machine.readback (G.machine l) n))
      (fun κ' M ts => ts.length = vs.length ∧ G.GoodArgs ts ∧
        G.GoAll (pure ts) (G.norms (sources vs)) M ∧
        Again κ' (vs.mapM (Machine.readback (G.machine l) n)) ts)
      fun h M => G.GoAll (throw h) (G.norms (sources vs)) M
  | κ, [], _ => by
      rw [List.mapM_nil]
      exact .pure ⟨rfl, .nil, goAll_nil, .pure κ []⟩
  | κ, v :: vs, hvs => by
      obtain ⟨hv, hvs⟩ := List.forall_mem_cons.mp hvs
      rw [List.mapM_cons, sources]
      refine ((ih.readback hv).imp (fun _ _ _ _ h => h) fun h M hfail => GoAll.throw_cons hfail).bind
        fun κ₁ M t hκ ht => ?_
      obtain ⟨hgood, ht, hagain⟩ := ht
      have hrest := TracesAt.readbacks (hκ.formed hvs)
      refine (hrest.imp (fun _ _ _ _ h => h) fun h N hfail => GoAll.cons_throw ht hfail).map
        fun κ₂ N ts hκ' hts => ?_
      obtain ⟨hlen, hgoods, hts, hagains⟩ := hts
      exact ⟨congrArg Nat.succ hlen, .cons hgood hgoods, GoAll.cons ht hts,
        (hagain.mono hκ').bind (hagains.bind (.pure κ₂ (t :: ts)))⟩

include hG hq

/-- Reading back a value, once it is forced, normalizes what is reduced to it. -/
theorem TracesAt.readback_forced {u : Value β σ} {t : Term β σ} (hu : G.Forced κ.terms u)
    (hgoes : G.Goes (pure u.source) (G.whnf t) M) :
    Tells κ (Machine.bounded u.head? >>= fun h =>
        u.args.mapM (Machine.readback (G.machine l) n) >>= fun ts => pure (h.apps ts))
      (fun κ' N x => G.Good x ∧ G.Goes (pure x) (G.norm t) (M ++ N) ∧
        Again κ' (Machine.bounded u.head? >>= fun h =>
          u.args.mapM (Machine.readback (G.machine l) n) >>= fun ts => pure (h.apps ts)) x)
      fun h N => G.Goes (throw h) (G.norm t) (M ++ N) := by
  refine Tells.bounded.bind fun κ₁ K h hκ hh => ?_
  obtain ⟨rfl, hh⟩ := hh
  obtain rfl := Value.head_of_head? hh
  have hargs := ih.readbacks (hκ.formed hu.1.args)
  have hhead := hu.headed
  rw [Value.source_eq u] at hgoes
  refine (hargs.imp (fun _ _ _ _ h => h) fun h N hfail => ?_).map fun κ₂ N ts hκ' hts => ?_
  · exact Goes.norm hq hgoes (hhead.goes_normArgs_throw hG hq hfail)
  · obtain ⟨-, hgood, hts, hagain⟩ := hts
    exact ⟨hhead.good.apps hgood, Goes.norm hq hgoes (hhead.goes_normArgs hG hq hts),
      (Again.bounded κ₂ hh).bind (hagain.bind (.pure κ₂ _))⟩

theorem TracesAt.readback_succ {v : Value β σ} (hv : G.Formed κ.terms v) :
    G.ReadsBack κ (Machine.readback (G.machine l) (n + 1) v) v.source := by
  rw [Machine.readback_succ]
  refine ((ih.force hv).imp (fun _ _ _ _ h => h) fun h M hfail => Goes.norm_throw hfail.goes).bind
    fun κ₁ M u _ hu => ?_
  obtain ⟨hu, hturns, hagain⟩ := hu
  have hread := ih.readback_forced hG hq hu (hturns.goes hu)
  simp only [hu.2, Bool.false_eq_true, if_false]
  refine hread.imp (fun κ₂ N x hκ' hx => ⟨hx.1, hx.2.1, (hagain.mono hκ').bind ?_⟩) fun _ _ h => h
  simp only [hu.2, Bool.false_eq_true, if_false]
  exact hx.2.2

end

/-! ## Firing -/

section

variable {m : Ideal β (Term β σ)} {t : Term β σ} {s : Step σ}

variable (hG : G.Lawful) (hq : G.Quiet) {l n : Nat} (ih : G.TracesAt l n)

include hG hq ih

/-- Firing a step fires what normalizing its arguments does, and then the step itself. -/
theorem TracesAt.fire (hs : G.like.step s s) {now : List (Value β σ)}
    (hnow : ∀ a ∈ now, G.Formed κ.terms a) :
    Tells κ (Machine.fire (G.machine l) (Machine.readback (G.machine l) n) s now)
      (fun κ' M r => (∀ v, r = some v → G.Formed κ'.terms v) ∧ ∃ ts K, M = K ++ [(s, ts)] ∧
        ts.length = now.length ∧ G.GoodArgs ts ∧ G.GoAll (pure ts) (G.norms (sources now)) K ∧
        Again κ' (now.mapM (Machine.readback (G.machine l) n)) ts ∧
        G.Acts (pure (r.map Value.source)) s ts)
      fun h M => G.GoAll (throw h) (G.norms (sources now)) M ∨ ∃ ts K, M = K ++ [(s, ts)] ∧
        G.GoAll (pure ts) (G.norms (sources now)) K ∧ G.Acts (throw h) s ts := by
  have hdirect : (G.machine l).direct s.body = none := hG.direct hs
  rw [Machine.fire, hdirect]
  refine ((ih.readbacks hnow).imp (fun _ _ _ _ h => h) fun h _ hfail => .inl hfail).bind
    fun κ₁ K ts hκ hts => ?_
  obtain ⟨hlen, hgood, hts, hagain⟩ := hts
  refine (Tells.inWorld (keeps_note hG hs hgood) (World.firings_fired s ts)).bind
    fun κ₂ _ _ hκ₂ hnote => ?_
  obtain ⟨rfl, -⟩ := hnote
  have hact := keeps_act hG l hs hgood
  refine (Tells.inWorld (M := []) (hact.imp (fun e he => .inr ⟨ts, K, rfl, hts, he⟩) fun _ h => h)
    fun w => ?_).bind fun κ₃ _ r hκ₃ hr => ?_
  · rw [List.append_nil]
    exact hq.interp l ts w hs
  obtain ⟨rfl, hr⟩ := hr
  cases r with
  | none =>
      exact .pure ⟨(by simp), ts, K, rfl, hlen, hgood, hts, (hagain.mono hκ₂).mono hκ₃, hr.2⟩
  | some u =>
      refine (Tells.of_ensures hG hq (Silent.ofTerm u) (Ensures.ofTerm (hr.1 u rfl))).map
        fun κ₄ M v hκ₄ hv => ?_
      obtain ⟨rfl, hv⟩ := hv
      refine ⟨?_, ts, K, rfl, hlen, hgood, hts, ((hagain.mono hκ₂).mono hκ₃).mono hκ₄, ?_⟩
      · rintro _ ⟨⟩
        exact hv.1
      · rw [Option.map_some, hv.2]
        exact hr.2

/-- What is done with a step that has enough arguments. -/
theorem TracesAt.fires (hs : G.stepOf t = some s) (ht : G.Good t) {now later : List (Value β σ)}
    (hlen : now.length = s.arity) (hnow : ∀ a ∈ now, G.Formed κ.terms a)
    (hlater : ∀ a ∈ later, G.Formed κ.terms a) :
    Tells κ (do
      match ← Machine.fire (G.machine l) (Machine.readback (G.machine l) n) s now with
      | some v => do
        let v ← Machine.force (G.machine l) n v
        Machine.applyRest (G.machine l) n v later
      | none => do
        let terms ← now.mapM (Machine.readback (G.machine l) n)
        return .neutral (t.apps terms) later)
      (fun κ' M u => G.Forced κ'.terms u ∧ ∀ m as N, G.GoodArgs as → G.Goes m (G.App u as) N →
        G.Goes m (G.firing s t (sources (now ++ later) ++ as)) (M ++ N))
      fun h M => ∀ as, G.GoodArgs as →
        G.Goes (throw h) (G.firing s t (sources (now ++ later) ++ as)) M := by
  have hstep := stepOf_like hG hs ht
  have hgood := good_sources hlater
  have htake (as : List (Term β σ)) :
      (sources (now ++ later) ++ as).take s.arity = sources now := take_sources hlen as
  have hdrop (as : List (Term β σ)) :
      (sources (now ++ later) ++ as).drop s.arity = sources later ++ as := drop_sources hlen as
  have hargs {as : List (Term β σ)} (has : G.GoodArgs as) :
      G.GoodArgs (sources (now ++ later) ++ as) := by
    rw [Machine.sources_append]
    exact ((good_sources hnow).append hgood).append has
  refine ((ih.fire hG hq hstep hnow).imp (fun _ _ _ _ h => h) ?_).bind fun κ₁ K r hκ hr => ?_
  · rintro h M hfail as -
    rcases hfail with hfail | ⟨ts, K, rfl, hts, hact⟩
    · exact Goes.fire_throw (by rwa [htake])
    · exact Goes.fire_issue hG hq hstep (by rwa [htake]) hact
  obtain ⟨hformed, ts, K, rfl, hlength, hgoodts, hts, hagain, hact⟩ := hr
  cases r with
  | some v =>
      have hgo {m : Ideal β (Term β σ)} {as : List (Term β σ)} {N : List (Firing β σ)}
          (hm : G.Goes m (G.whnf (v.source.apps (sources later ++ as))) N) :
          G.Goes m (G.firing s t (sources (now ++ later) ++ as)) (K ++ [(s, ts)] ++ N) := by
        rw [List.append_assoc, List.singleton_append]
        refine Goes.fire_some hG hq hstep (by rwa [htake]) hact ?_
        rwa [hdrop]
      refine ((ih.force (hformed v rfl)).imp (fun _ _ _ _ h => h) fun h M hfail as has => ?_).bind
        fun κ₂ M v' hκ' hv => ?_
      · exact hgo (hfail _ (hgood.append has))
      obtain ⟨hforced, hturns, -⟩ := hv
      refine (ih.applyRest hforced (hκ'.formed (hκ.formed hlater))).imp
        (fun κ₃ L u _ hu => ⟨hu.1, fun m as N has hm => ?_⟩) fun h L hfail as has => ?_
      · have hgoes := hgo (hturns m _ _ (hgood.append has) (hu.2 m as N has hm))
        rwa [← List.append_assoc M, ← List.append_assoc (K ++ _)] at hgoes
      · exact hgo (hturns _ _ _ (hgood.append has) (hfail as has))
  | none =>
      -- the arguments are read back a second time, to the same terms and firing nothing
      refine Tells.again hagain ?_
      rcases ComeAll.normal_or_overflow hG (good_sources hnow) hts.gives hts.gives with ⟨-, hnormal⟩ | hover
      · have hu : G.Forced κ₁.terms (.neutral (t.apps ts) later) := by
          refine ⟨.neutral (.declined hs (hlength.trans hlen) hnormal hact) (ht.apps hgoodts) ?_
            (hκ.formed hlater), rfl⟩
          exact fun x hx => absurd hx (apps_ne_lit hs ts x)
        refine .pure ⟨hu, fun m as N has hm => ?_⟩
        rw [App, if_neg (by simp [Value.isFunction]), Value.source, Term.apps_apps] at hm
        have hrefl := (ht.apps hgoodts).apps (hgood.append has)
        rw [List.append_nil]
        refine Goes.of_pure hG hrefl hm ?_
        rw [Term.apps_apps, ← hdrop as]
        exact Goes.fire_none hG hq hstep ht (hargs has) (by rwa [htake]) hgoodts hact
      · refine .of_overflow (M := []) fun as _ => ?_
        exact Goes.fire_throw (by rw [htake]; exact .of_overflow hover)

end

/-! ## Application -/

section

/-- The body of a lambda in the frame of its closure, with values for its variables. -/
theorem goes_lam {m : Ideal β (Term β σ)} {n : Nat} {b : Term β σ} {now frame : List (Value β σ)}
    {later : List (Term β σ)} (hlen : now.length = n) (hn : 0 < n)
    (hframe : ∀ f ∈ frame, f.source.Canonical ∧ f.source.Closed)
    (hm : G.Goes m (G.whnf ((b.instantiate 0 (sources (now.reverse ++ frame))).apps later)) M) :
    G.Goes m (G.whnf (((Term.lam n b).instantiate 0 (sources frame)).apps (sources now ++ later))) M := by
  have hnow : now ≠ [] := List.ne_nil_of_length_pos (hlen ▸ hn)
  have hne := List.append_ne_nil_of_left_ne_nil (mt Machine.sources_eq_nil_iff.mp hnow) later
  have hlength : (sources now).length = n := by rw [Machine.length_sources, hlen]
  rw [Term.instantiate_lam hn, Term.apps_of_not_isApp rfl hne]
  refine Goes.app_of_still (still_lam _ _) (Goes.beta ?_ fun b' hb' => ?_)
  · rw [List.length_append, hlength]
    exact Nat.le_add_right _ _
  · rw [List.take_left' hlength, ← hlen] at hb'
    rwa [instantiate_bound hframe hb', List.drop_left' hlength]

/-- A closure that gets enough arguments goes on with its body. -/
theorem Saturated.goes (hG : G.Lawful) {Γ : List (Term β σ)} {m : Ideal β (Term β σ)} {arity : Nat} {b : Term β σ} {code : Code β σ}
    {frame held args : List (Value β σ)} {as : List (Term β σ)}
    (hs : G.Saturated Γ arity b code frame (held ++ args))
    (hm : G.Goes m (G.whnf ((b.instantiate 0
      (sources (((held ++ args).take arity).reverse ++ frame))).apps
        (sources ((held ++ args).drop arity) ++ as))) M) :
    G.Goes m (G.App (.lam arity (.lam arity b) code frame held) (sources args ++ as)) M := by
  rw [app_of_function rfl, Value.source, Term.apps_apps, ← List.append_assoc, ← Machine.sources_append,
    ← List.take_append_drop arity (held ++ args), Machine.sources_append, List.append_assoc]
  exact goes_lam (List.length_take_of_le hs.enough) hs.positive (formed_closed hG hs.captured) hm

/-- A step that gets enough arguments is fired. -/
theorem Due.goes {Γ : List (Term β σ)} {m : Ideal β (Term β σ)} {t : Term β σ} {s : Step σ}
    {held args : List (Value β σ)} {as : List (Term β σ)} (hs : G.Due Γ t s (held ++ args))
    (hm : G.Goes m (G.firing s t (sources ((held ++ args).take s.arity ++ (held ++ args).drop s.arity) ++ as)) M) :
    G.Goes m (G.App (.step t s held) (sources args ++ as)) M := by
  have hle := hs.enough
  rw [List.take_append_drop] at hm
  rw [app_of_function rfl, Value.source, Term.apps_apps, ← List.append_assoc, ← Machine.sources_append]
  refine hm.of_shifts (step_shifts hs.stepOf (Nat.ne_of_gt hs.positive) ?_)
  rw [List.length_append, Machine.length_sources]
  omega

variable (hG : G.Lawful) (hq : G.Quiet) {l n : Nat} (ih : G.TracesAt l n)

include ih

include hG in
theorem TracesAt.applyForced_lam {arity : Nat} {b : Term β σ} {code : Code β σ}
    {frame held args : List (Value β σ)}
    (hf : G.Forced κ.terms (.lam arity (.lam arity b) code frame held))
    (hargs : ∀ a ∈ args, G.Formed κ.terms a) :
    G.TracesInto κ (Machine.applyForced (G.machine l) (n + 1)
      (.lam arity (.lam arity b) code frame held) args)
      (.lam arity (.lam arity b) code frame held) (sources args) := by
  rw [Machine.applyForced]
  by_cases hfew : (held ++ args).length < arity
  · rw [if_pos hfew]
    refine .pure ⟨hf.collect_lam hargs hfew, TurnsInto.collect rfl ?_⟩
    rw [Value.source, Value.source, Machine.sources_append, Term.apps_apps]
  · rw [if_neg hfew]
    have hs := hf.saturated hargs (Nat.le_of_not_lt hfew)
    have hgood := good_sources hs.later
    refine ((ih.run hs.compiled hs.body hs.values).imp (fun _ _ _ _ h => h)
      fun h M hfail as has => ?_).bind fun κ₁ M v hκ hv => ?_
    · exact hs.goes hG (hfail _ (hgood.append has))
    · refine (ih.applyRest hv.1 (hκ.formed hs.later)).imp
        (fun κ₂ N u _ hu => ⟨hu.1, fun m as K has hm => ?_⟩) fun h N hfail as has => ?_
      · rw [List.append_assoc]
        exact hs.goes hG (hv.2 m _ _ (hgood.append has) (hu.2 m as K has hm))
      · exact hs.goes hG (hv.2 _ _ _ (hgood.append has) (hfail as has))

include hG hq in
theorem TracesAt.applyForced_step {t : Term β σ} {s : Step σ} {held args : List (Value β σ)}
    (hf : G.Forced κ.terms (.step t s held)) (hargs : ∀ a ∈ args, G.Formed κ.terms a) :
    G.TracesInto κ (Machine.applyForced (G.machine l) (n + 1) (.step t s held) args)
      (.step t s held) (sources args) := by
  rw [Machine.applyForced]
  dsimp only
  by_cases hfew : (held ++ args).length < s.arity
  · rw [if_pos hfew]
    refine .pure ⟨hf.collect_step hargs hfew, TurnsInto.collect rfl ?_⟩
    rw [Value.source, Value.source, Machine.sources_append, Term.apps_apps]
  · rw [if_neg hfew]
    have hs := hf.due hargs (Nat.le_of_not_lt hfew)
    exact (ih.fires hG hq hs.stepOf hs.good (List.length_take_of_le hs.enough) hs.now hs.later).imp
      (fun _ M u _ hu => ⟨hu.1, fun m as N has hm => hs.goes (hu.2 m as N has hm)⟩)
      fun h M hfail as has => hs.goes (hfail as has)

include hG hq in
/-- A step that takes no arguments is fired. -/
theorem TracesAt.constant_succ {t : Term β σ} {s : Step σ} (hs : G.stepOf t = some s)
    (ht : G.Good t) (harity : s.arity = 0) :
    G.Traces κ (Machine.applyForced (G.machine l) (n + 1) (.step t s []) []) t := by
  rw [Machine.applyForced]
  dsimp only
  rw [if_neg (by rw [harity]; exact Nat.not_lt_zero _)]
  have htake : ([] ++ [] : List (Value β σ)).take s.arity = [] := List.take_nil
  have hdrop : ([] ++ [] : List (Value β σ)).drop s.arity = [] := List.drop_nil
  have hlen : ([] : List (Value β σ)).length = s.arity := harity.symm
  have hfires := ih.fires (κ := κ) hG hq hs ht hlen formed_nil formed_nil
  rw [htake, hdrop]
  refine hfires.imp (fun _ M u _ hu => ⟨hu.1, ?_⟩) fun h M hfail => ?_
  · refine Turns.of_goes hG hq hu.1 (isApp_of_stepOf hs) (Reports.shift 2 0 (whnf_firing hs harity) ?_)
    have hm := hu.2 _ [] [] .nil hu.1.goes_app
    simpa [sources] using hm
  · refine Breaks.of_goes (isApp_of_stepOf hs) (Reports.shift 2 0 (whnf_firing hs harity) ?_)
    have hm := hfail [] .nil
    simpa [sources] using hm

include hG hq in
theorem TracesAt.applyForced_succ {f : Value β σ} {args : List (Value β σ)}
    (hf : G.Forced κ.terms f) (hargs : ∀ a ∈ args, G.Formed κ.terms a) :
    G.TracesInto κ (Machine.applyForced (G.machine l) (n + 1) f args) f (sources args) := by
  have hf' := hf
  obtain ⟨hformed, hthunk⟩ := hf'
  cases hformed with
  | lam => exact ih.applyForced_lam hG hf hargs
  | step => exact ih.applyForced_step hG hq hf hargs
  | thunk => cases hthunk
  | ctor hheld =>
      rw [Machine.applyForced]
      refine .pure ⟨⟨.ctor (formed_append hheld hargs), rfl⟩, TurnsInto.collect rfl ?_⟩
      rw [Value.source, Value.source, Machine.sources_append, Term.apps_apps]
  | neutral ht hg hlit hheld =>
      rw [Machine.applyForced]
      refine .pure ⟨⟨.neutral ht hg ?_ (formed_append hheld hargs), rfl⟩, TurnsInto.collect rfl ?_⟩
      · exact fun x hx => List.append_ne_nil_of_left_ne_nil (hlit x hx) args
      · rw [Value.source, Value.source, Machine.sources_append, Term.apps_apps]
  | stuck hg hcomes hs hframe hheld =>
      rw [Machine.applyForced]
      refine .pure ⟨⟨.stuck hg hcomes hs hframe (formed_append hheld hargs), rfl⟩, TurnsInto.collect rfl ?_⟩
      rw [Value.source, Value.source, Machine.sources_append, Term.apps_apps]
  | lit =>
      rw [Machine.applyForced]
      cases args with
      | nil => exact .pure ⟨hf, TurnsInto.refl _⟩
      | cons a as =>
          exact .pure ⟨⟨.neutral .lit .lit (fun _ _ => List.cons_ne_nil a as) hargs, rfl⟩,
            TurnsInto.collect rfl rfl⟩
  | blob hb =>
      rw [Machine.applyForced]
      cases args with
      | nil => exact .pure ⟨hf, TurnsInto.refl _⟩
      | cons a as =>
          exact .pure ⟨⟨.neutral .blob hb (by simp) hargs, rfl⟩, TurnsInto.collect rfl rfl⟩

theorem TracesAt.applyRest_succ {v : Value β σ} {rest : List (Value β σ)} (hv : G.Forced κ.terms v)
    (hrest : ∀ a ∈ rest, G.Formed κ.terms a) :
    G.TracesInto κ (Machine.applyRest (G.machine l) (n + 1) v rest) v (sources rest) := by
  rw [Machine.applyRest]
  cases rest with
  | nil => exact .pure ⟨hv, TurnsInto.refl v⟩
  | cons a as => exact ih.applyForced hv hrest

/-- Forcing a value that is forced does nothing. -/
theorem TracesAt.apply_succ {f : Value β σ} {args : List (Value β σ)} (hf : G.Forced κ.terms f)
    (hargs : ∀ a ∈ args, G.Formed κ.terms a) :
    G.TracesInto κ (Machine.apply (G.machine l) (n + 1) f args) f (sources args) := by
  rw [Machine.apply]
  cases n with
  | zero => exact .exhausted
  | succ n =>
      rw [Machine.force_of_forced hf.2, pure_bind]
      exact ih.applyForced hf hargs

theorem TracesAt.step_succ {t : Term β σ} {s : Step σ} (hs : G.stepOf t = some s) (ht : G.Good t) :
    G.Traces κ (Machine.apply (G.machine l) (n + 1) (.step t s []) []) t := by
  rw [Machine.apply]
  cases n with
  | zero => exact .exhausted
  | succ n =>
      rw [Machine.force_of_forced rfl, pure_bind]
      by_cases harity : s.arity = 0
      · exact ih.constant hs ht harity
      · have hf : G.Forced κ.terms (.step t s []) :=
          ⟨.step hs ht (by simp) (Nat.pos_of_ne_zero harity), rfl⟩
        have hsource : (Value.step t s []).source = t := by
          rw [Value.source, sources, Term.apps_nil]
        refine (ih.applyForced hf formed_nil).imp
          (fun κ₁ M u _ hu => ⟨hu.1, fun m as N has hm => ?_⟩) fun h M hfail as has => ?_
        · have hgo := hu.2 m as N has hm
          rwa [sources, List.nil_append, app_of_function rfl, hsource] at hgo
        · have hgo := hfail as has
          rwa [sources, List.nil_append, app_of_function rfl, hsource] at hgo

end

/-! ## Evaluation -/

section

variable (hG : G.Lawful) (hq : G.Quiet) {l n : Nat} (ih : G.TracesAt l n)

include hG hq

/-- A term whose reduction goes on with another one. -/
theorem Traces.of_goes {m : Eval β σ (Value β σ)} {t t' : Term β σ}
    (h : Tells κ m (fun κ' N v => G.Forced κ'.terms v ∧ G.Turns t v N) (G.Breaks t))
    (happ : t'.isApp = false)
    (hgo : ∀ {o N}, G.Goes o (G.whnf t) N → G.Goes o (G.whnf t') (M ++ N)) :
    Tells κ m (fun κ' N v => G.Forced κ'.terms v ∧ G.Turns t' v (M ++ N))
      fun h N => G.Breaks t' h (M ++ N) :=
  h.imp (fun _ _ _ _ hv => ⟨hv.1, Turns.of_goes hG hq hv.1 happ (hgo (hv.2.goes hv.1))⟩)
    fun _ _ hfail => Breaks.of_goes happ (hgo hfail.goes)

/-- A value turns into itself. -/
theorem traces_pure {v : Value β σ} (hv : G.Forced κ.terms v) : G.Traces κ (pure v) v.source :=
  .pure ⟨hv, Turns.refl hG hq hv⟩

include ih

theorem TracesAt.evaluate {src : Term β σ} {frame : List (Value β σ)} {code? : Option (Code β σ)}
    (hsrc : G.like.Alike frame.length src src) (hcode : ∀ c, code? = some c → G.Compiled κ.terms src c)
    (hframe : ∀ f ∈ frame, G.Formed κ.terms f) :
    G.Traces κ (Machine.evaluate (G.machine l) n src frame code?)
      (src.instantiate 0 (sources frame)) := by
  cases code? with
  | some code => exact ih.run (hcode code rfl) hsrc hframe
  | none =>
      refine (Tells.of_ensures hG hq (Silent.reserve _)
        (Ensures.reserve (compile_compiled hG κ.terms src))).bind fun κ₁ M code hκ hcode => ?_
      obtain ⟨rfl, hcode⟩ := hcode
      exact ih.run hcode hsrc (hκ.formed hframe)

/-- A suspended computation is evaluated unless it has been before. -/
theorem TracesAt.force_succ {v : Value β σ} (hv : G.Formed κ.terms v) :
    G.TracesOnce κ (Machine.force (G.machine l) (n + 1) v) v.source := by
  cases hv' : v.isThunk with
  | false =>
      rw [Machine.force_of_forced hv']
      exact .pure ⟨⟨hv, hv'⟩, Turns.refl hG hq ⟨hv, hv'⟩, .pure κ v⟩
  | true =>
      cases hv with
      | @thunk slot src frame code? hslot hsrc hcode hframe =>
          rw [Machine.force_thunk, Value.source]
          refine .orElse (fun v hread => ?_) ?_
          · obtain ⟨hv, hturns⟩ := κ.read hread
            exact ⟨hv, hturns _ hslot, Again.orElse hread _⟩
          · refine (ih.evaluate hG hq hsrc hcode hframe).bind fun κ₁ M u hκ hu => ?_
            refine (Tells.fill hG hq (getElem?_mono hκ.terms hslot) hu.1 hu.2).imp
              (fun κ₂ N u' _ hu' => ?_) fun _ _ h => h
            obtain ⟨rfl, hforced, hturns, hread⟩ := hu'
            rw [List.append_nil]
            exact ⟨hforced, hturns, Again.orElse hread _⟩
      | _ => cases hv'

theorem TracesAt.unfold_succ {c : String} (hc : G.steps.lookup c = none) :
    G.Traces κ (Machine.unfold (G.machine l) (n + 1) c) (.const c) := by
  rw [Machine.unfold, env_machine]
  cases hbody : G.env.unfoldable c with
  | none =>
      exact traces_pure hG hq
        ⟨.neutral (.const hc hbody) (.const (hG.const c)) (by simp) (by simp), rfl⟩
  | some body =>
      refine (Tells.of_ensures hG hq (Silent.reserve _)
        (Ensures.reserve (compile_compiled hG κ.terms body))).bind fun κ₁ M code _ hcode => ?_
      obtain ⟨rfl, hcode⟩ := hcode
      have hrun : G.Traces κ₁ (Machine.run (G.machine l) n code [])
          (body.instantiate 0 (sources [])) := ih.run hcode (hG.unfoldable hbody) formed_nil
      rw [sources, Term.instantiate_nil] at hrun
      exact Traces.of_goes (M := []) hG hq hrun rfl (Goes.unfold hc hbody)

theorem TracesAt.run_case {s : Term β σ} {brs : List (Branch (Term β σ))} {c : Code β σ}
    {cs : List (Branch (Term β σ × Code β σ))} {frame : List (Value β σ)}
    (hc : G.Compiled κ.terms s c) (hcs : G.CompiledBranches κ.terms brs cs)
    (ht : G.like.Alike frame.length (.case s brs) (.case s brs))
    (hframe : ∀ f ∈ frame, G.Formed κ.terms f) :
    G.Traces κ (Machine.run (G.machine l) (n + 1) (.case c cs) frame)
      ((Term.case s brs).instantiate 0 (sources frame)) := by
  have hgoodbrs := good_instantiateBranches ht (good_sources hframe)
  rw [Term.instantiate_case]
  rw [Machine.run]
  cases ht with
  | case hs hbrs =>
      refine ((ih.run hc hs hframe).imp (fun _ _ _ _ h => h)
        fun h M hfail => Breaks.of_goes rfl hfail.goes.case_throw).bind fun κ₁ M v hκ hv => ?_
      have hgoes := hv.2.goes hv.1
      have hcs₁ := hcs.mono hκ.terms
      cases hsel : Machine.select v cs with
      | some p =>
          obtain ⟨⟨src, body⟩, bound⟩ := p
          obtain ⟨b?, hb?, hchosen⟩ := select_some hv.1 (formed_closed hG hframe) hcs₁ hbrs hsel
          have hrun := ih.run hchosen.compiled hchosen.body (hchosen.frame (hκ.formed hframe))
          refine Traces.of_goes hG hq hrun rfl fun hm => ?_
          exact Goes.case_some hq hgoes hb? fun b heq => by rwa [hchosen.term b heq]
      | none =>
          have hnone := select_none hv.1 (formed_closed hG hframe) hcs₁ hbrs hsel
          have hu := Forced.stuck hG hv.1 hcs₁ hgoodbrs (hκ.formed hframe) hnone
          refine .pure ⟨hu, ?_⟩
          rw [List.append_nil]
          refine Turns.of_goes hG hq hu rfl ?_
          have hgo := Goes.case_none hq hgoes hgoodbrs hnone
          rw [hcs.branchSources_eq]
          exact hgo

theorem TracesAt.run_app {h : Term β σ} {as : List (Term β σ)} {c : Code β σ}
    {ds : List (Delayed β σ)} {frame : List (Value β σ)} (hc : G.Compiled κ.terms h c)
    (hds : G.CompiledArgs κ.terms as ds) (ht : G.like.Alike frame.length (.app h as) (.app h as))
    (hframe : ∀ f ∈ frame, G.Formed κ.terms f) :
    G.Traces κ (Machine.run (G.machine l) (n + 1) (.app c ds) frame)
      ((Term.app h as).instantiate 0 (sources frame)) := by
  rw [Term.instantiate_app (ht.canonical hG.canonical), Machine.run]
  cases ht with
  | app _ hh has =>
      have hgoodas := good_instantiateArgs has (good_sources hframe)
      refine ((ih.run hc hh hframe).imp (fun _ _ _ _ h => h)
        fun _ _ hfail => hfail.apps hgoodas).bind fun κ₁ M f hκ hf => ?_
      refine (Tells.of_ensures hG hq (Silent.mapM (Silent.delayed frame) ds)
        (Ensures.delayed hG (hds.mono hκ.terms) has (hκ.formed hframe))).bind
        fun κ₂ _ vs hκ' hvs => ?_
      obtain ⟨rfl, hvs, heq⟩ := hvs
      rw [← heq] at hgoodas ⊢
      exact (ih.apply (hf.1.mono hκ'.terms) hvs).imp
        (fun _ N u _ hu => ⟨hu.1, hf.2.into hgoodas hu.2⟩) fun _ N hfail => hf.2.breaksInto hgoodas hfail

/-- Running code fires what reducing the term does that it was compiled from. -/
theorem TracesAt.run_succ {t : Term β σ} {code : Code β σ} {frame : List (Value β σ)}
    (hcode : G.Compiled κ.terms t code) (ht : G.like.Alike frame.length t t)
    (hframe : ∀ f ∈ frame, G.Formed κ.terms f) :
    G.Traces κ (Machine.run (G.machine l) (n + 1) code frame) (t.instantiate 0 (sources frame)) := by
  have hgood := good_instantiate ht (good_sources hframe)
  cases hcode with
  | bvar =>
      rw [Machine.run]
      cases ht with
      | bvar hi =>
          refine (Tells.of_ensures hG hq (Silent.lookup frame _)
            (Ensures.lookup (hi hG.closed) hframe)).bind fun κ₁ _ v _ hv => ?_
          obtain ⟨rfl, hv, hsource⟩ := hv
          rw [← hsource]
          exact (ih.force hv).imp (fun _ _ _ _ hu => ⟨hu.1, hu.2.1⟩) fun _ _ h => h
  | @const c slot hc hslot =>
      rw [Term.instantiate_eq_self (t := .const c) trivial trivial, Machine.run]
      refine .orElse (fun v hread => ⟨(κ.read hread).1, (κ.read hread).2 _ hslot⟩) ?_
      refine (ih.unfold hc).bind fun κ₁ M v hκ hv => ?_
      refine (Tells.fill hG hq (getElem?_mono hκ.terms hslot) hv.1 hv.2).imp
        (fun κ₂ N u _ hu => ?_) fun _ _ h => h
      obtain ⟨rfl, hforced, hturns, -⟩ := hu
      rw [List.append_nil]
      exact ⟨hforced, hturns⟩
  | step hs =>
      rw [instantiate_of_stepOf hs] at hgood ⊢
      rw [Machine.run]
      exact ih.step hs hgood
  | @ctor c =>
      rw [Term.instantiate_eq_self (t := .ctor c) trivial trivial, Machine.run]
      exact traces_pure hG hq ⟨.ctor (by simp), rfl⟩
  | @free x =>
      rw [Term.instantiate_eq_self (t := .free x) trivial trivial, Machine.run]
      exact traces_pure hG hq ⟨.neutral .free .free (by simp) (by simp), rfl⟩
  | @uvar u =>
      rw [Term.instantiate_eq_self (t := .uvar u) trivial trivial, Machine.run]
      exact traces_pure hG hq ⟨.neutral .uvar .uvar (by simp) (by simp), rfl⟩
  | @lit x =>
      rw [Term.instantiate_eq_self (t := .lit x) trivial trivial, Machine.run]
      exact traces_pure hG hq ⟨.lit, rfl⟩
  | @blob b =>
      rw [Term.instantiate_eq_self (t := .blob b) trivial trivial] at hgood ⊢
      rw [Machine.run]
      exact traces_pure hG hq ⟨.blob hgood, rfl⟩
  | app hc hds => exact ih.run_app hG hq hc hds ht hframe
  | lam hc =>
      rw [Machine.run]
      cases ht with
      | lam hn hb =>
          refine traces_pure hG hq (v := .lam _ _ _ frame []) ⟨?_, rfl⟩
          exact .lam (.lam hn hb) hc hframe (by simp) (hn hG.canonical)
  | case hc hcs => exact ih.run_case hG hq hc hcs ht hframe
  | ascribed hc =>
      rw [Term.instantiate_ascribed]
      cases ht with
      | ascribed he _ =>
          exact Traces.of_goes (M := []) hG hq (TracesAt.run_succ hc he hframe) rfl fun h => h.ascribed _
  | annotated hc =>
      rw [Term.instantiate_annotated]
      cases ht with
      | annotated he =>
          exact Traces.of_goes (M := []) hG hq (TracesAt.run_succ hc he hframe) rfl fun h => h.annotated _
  | reify hc =>
      rw [Term.instantiate_reify]
      cases ht with
      | reify he =>
          exact Traces.of_goes (M := []) hG hq (TracesAt.run_succ hc he hframe) rfl fun h => h.reify
termination_by t

omit ih in
/-- The machine fires what reduction fires, whatever its fuel. -/
theorem tracesAt (l n : Nat) : G.TracesAt l n := by
  induction n with
  | zero =>
      constructor
      all_goals
        intros
        exact .exhausted
  | succ n ih =>
      exact {
        run := ih.run_succ hG hq
        unfold := ih.unfold_succ hG hq
        force := ih.force_succ hG hq
        step := ih.step_succ
        apply := ih.apply_succ
        applyForced := ih.applyForced_succ hG hq
        constant := ih.constant_succ hG hq
        applyRest := ih.applyRest_succ
        readback := ih.readback_succ hG hq }

end

end Ground

end TacticEngine
