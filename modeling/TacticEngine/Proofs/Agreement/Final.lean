/-
# TacticEngine.Proofs.Agreement.Final -- what reduction gives is final.

A term that reduction has given reduces to itself: its head waits for arguments, or there is nothing to
be done with it, or it is a step that declined the arguments it has.  In the last case these arguments
are in normal form, and the step will decline them again.  Normal forms normalize to themselves.

Finality is what makes it harmless that reduction looks at heads again and again: an application of a
final term reduces the head a second time, and a step that declined is fired a second time.
-/
import TacticEngine.Proofs.Agreement.Reducing

namespace TacticEngine

variable {β σ α γ : Type}

namespace Term

/-- Applications of heads that are no applications are equal only part by part. -/
theorem apps_inj {h h' : Term β σ} {as as' : List (Term β σ)} (hh : h.isApp = false)
    (hh' : h'.isApp = false) (heq : h.apps as = h'.apps as') : h = h' ∧ as = as' := by
  by_cases has : as = []
  · by_cases has' : as' = []
    · subst has has'
      rw [apps_nil, apps_nil] at heq
      exact ⟨heq, rfl⟩
    · subst has
      rw [apps_nil, apps_of_not_isApp hh' has'] at heq
      subst heq
      cases hh
  · rw [apps_of_not_isApp hh has] at heq
    by_cases has' : as' = []
    · subst has'
      rw [apps_nil] at heq
      subst heq
      cases hh'
    · rw [apps_of_not_isApp hh' has'] at heq
      cases heq
      exact ⟨rfl, rfl⟩

/-- Likeness of applications of heads that are no applications is likeness of the parts. -/
theorem Alike.of_apps {L : Likeness β σ} {k : Nat} {h h' : Term β σ} {as as' : List (Term β σ)}
    (hh : h.isApp = false) (hh' : h'.isApp = false) (hlike : L.Alike k (h.apps as) (h'.apps as')) :
    L.Alike k h h' ∧ L.AlikeArgs k as as' := by
  by_cases has : as = []
  · by_cases has' : as' = []
    · subst has has'
      rw [apps_nil, apps_nil] at hlike
      exact ⟨hlike, .nil⟩
    · subst has
      rw [apps_nil, apps_of_not_isApp hh' has'] at hlike
      cases hlike
      cases hh
  · rw [apps_of_not_isApp hh has] at hlike
    by_cases has' : as' = []
    · subst has'
      rw [apps_nil] at hlike
      cases hlike
      cases hh'
    · rw [apps_of_not_isApp hh' has'] at hlike
      cases hlike with
      | app _ h₁ h₂ => exact ⟨h₁, h₂⟩

end Term

theorem exists_of_forall₂_right {R : α → γ → Prop} {as : List α} {cs : List γ}
    (h : List.Forall₂ R as cs) {c : γ} (hc : c ∈ cs) : ∃ a ∈ as, R a c := by
  induction h with
  | nil => cases hc
  | @cons a c' as cs hr _ ih =>
      rcases List.mem_cons.mp hc with rfl | hc
      · exact ⟨a, List.mem_cons_self, hr⟩
      · obtain ⟨a', ha', hr'⟩ := ih hc
        exact ⟨a', List.mem_cons_of_mem a ha', hr'⟩

namespace Ground

variable {G : Ground β σ}

section

variable (G)

/-- A term in normal form. -/
def Normal (t : Term β σ) : Prop := G.Comes (pure t) (G.norm t)

/-- A term that reduction gives. -/
inductive Final : Term β σ → Prop where
  | lam {n b xs} : xs.length < n → Final ((Term.lam n b).apps xs)
  | step {h s xs} : G.stepOf h = some s → xs.length < s.arity → Final (h.apps xs)
  | rest {h xs} : h.isApp = false → (∀ n b, h ≠ .lam n b) → G.stepOf h = none →
      G.Comes (pure h) (G.whnf h) → Final (h.apps xs)
  | declined {h s now later} : G.stepOf h = some s → now.length = s.arity →
      (∀ t ∈ now, G.Normal t) → G.Acts (pure none) s now → Final (h.apps (now ++ later))

/-- A function that waits for more arguments. -/
inductive Waiting : Term β σ → Prop where
  | lam {n b xs} : xs.length < n → Waiting ((Term.lam n b).apps xs)
  | step {h s xs} : G.stepOf h = some s → xs.length < s.arity → Waiting (h.apps xs)

end

theorem isApp_of_stepOf {h : Term β σ} {s : Step σ} (hs : G.stepOf h = some s) :
    h.isApp = false := by
  cases h with
  | app => cases hs
  | _ => rfl

theorem good_apps {h : Term β σ} {as : List (Term β σ)} (hh : h.isApp = false)
    (hg : G.Good (h.apps as)) : G.Good h ∧ G.GoodArgs as := hg.of_apps hh hh

theorem stepOf_like (hG : G.Lawful) {h : Term β σ} {s : Step σ} (hs : G.stepOf h = some s)
    (hh : G.Good h) : G.like.step s s := by
  cases h with
  | const c => exact hG.lookup hs
  | native s' =>
      obtain rfl := Option.some.inj hs
      cases hh with
      | native hs => exact hs
  | _ => cases hs

/-- The body of a good lambda with good arguments is good. -/
theorem good_beta {n : Nat} {b b' : Term β σ} {as : List (Term β σ)}
    (hb : G.Good (.lam n b)) (has : G.GoodArgs as) (hlen : as.length = n)
    (hb' : b.beta? as = some b') : G.Good b' := by
  cases hb with
  | lam _ hb =>
      have hbeta := Term.Alike.beta? has (by rwa [hlen])
      rw [hb'] at hbeta
      cases hbeta with
      | some h => exact h

theorem comeAll_of_normal {ts : List (Term β σ)} (h : ∀ t ∈ ts, G.Normal t) :
    G.ComeAll (pure ts) (G.norms ts) := by
  induction ts with
  | nil => exact norms_nil
  | cons t ts ih =>
      exact ComeAll.cons (h t List.mem_cons_self) (ih fun u hu => h u (List.mem_cons_of_mem t hu))

/-! ## Final terms reduce to themselves -/

section

variable (hG : G.Lawful)

/-- What waits for arguments is left alone without further ado. -/
theorem Waiting.yields {u : Term β σ} (hu : G.Waiting u) (w : World β σ) :
    Yields (G.whnf u) w (.ok u w) := by
  have happ {h : Term β σ} {xs : List (Term β σ)} (happ : h.isApp = false) (hs : G.Still h)
      (hx : xs ≠ [] → ∀ l n, G.whnfApp h xs l (n + 1) = pure (h.apps xs)) :
      Yields (G.whnf (h.apps xs)) w (.ok (h.apps xs) w) := by
    by_cases hxs : xs = []
    · subst hxs
      rw [Term.apps_nil]
      exact hs.yields w
    · have hpure : Yields (G.whnfApp h xs) w (.ok (h.apps xs) w) :=
        (Yields.const (pure (h.apps xs)) w).shift 1 0 fun l n => by rw [hx hxs l n]
      have hwhnf : Yields (G.whnf (.app h xs)) w (.ok (h.apps xs) w) :=
        hpure.shift 3 2 fun l n => by rw [whnf_app_of_still hs xs l n]
      rwa [← Term.apps_of_not_isApp happ hxs] at hwhnf
  cases hu with
  | lam hlt => exact happ rfl (still_lam _ _) fun _ l n => whnfApp_lam_of_lt hlt l n
  | step hs hlt =>
      have harity : _ ≠ 0 := Nat.ne_of_gt (Nat.lt_of_le_of_lt (Nat.zero_le _) hlt)
      exact happ (isApp_of_stepOf hs) (still_step hs harity) fun _ l n =>
        whnfApp_step_of_lt hs hlt l n

include hG

theorem whnfApp_declined {h : Term β σ} {s : Step σ} {now later : List (Term β σ)}
    (hs : G.stepOf h = some s) (hlen : now.length = s.arity) (hnow : ∀ t ∈ now, G.Normal t)
    (hact : G.Acts (pure none) s now) (hh : G.Good h) (has : G.GoodArgs (now ++ later)) :
    G.Comes (pure (h.apps (now ++ later))) (G.firing s h (now ++ later)) := by
  have htake : (now ++ later).take s.arity = now := by rw [← hlen, List.take_left]
  have hdrop : (now ++ later).drop s.arity = later := by rw [← hlen, List.drop_left]
  have hall := comeAll_of_normal hnow
  have hfire : G.Comes (pure (h.apps (now ++ (now ++ later).drop s.arity)))
      (G.firing s h (now ++ later)) :=
    Comes.fire_none hG (stepOf_like hG hs hh) hh has (by rwa [htake]) hact
  rwa [hdrop] at hfire

/-- A final term reduces to itself. -/
theorem Final.comes {u : Term β σ} (hu : G.Final u) (hgood : G.Good u) :
    G.Comes (pure u) (G.whnf u) := by
  have hwaiting (hw : G.Waiting u) : G.Comes (pure u) (G.whnf u) :=
    gives_iff.mpr fun w hworld => ⟨_, hw.yields w, .ok hgood hworld⟩
  cases hu with
  | lam hlt => exact hwaiting (.lam hlt)
  | step hs hlt => exact hwaiting (.step hs hlt)
  | @rest h xs happ hlam hs hh =>
      obtain ⟨-, has⟩ := good_apps happ hgood
      by_cases hxs : xs = []
      · subst hxs
        rwa [Term.apps_nil]
      · have hpure : G.Comes (pure (h.apps xs)) (G.whnfApp h xs) :=
          Tie.Follows.of_succ (whnfApp_of_none happ hlam hs xs) (.pure hgood)
        rw [Term.apps_of_not_isApp happ hxs] at hpure ⊢
        exact Comes.app hG hh has hpure
  | @declined h s now later hs hlen hnow hact =>
      have happ := isApp_of_stepOf hs
      obtain ⟨hh, has⟩ := good_apps happ hgood
      have hfire := whnfApp_declined hG hs hlen hnow hact hh has
      by_cases harity : s.arity = 0
      · -- the step takes no arguments, so it is fired before it is applied to any
        obtain rfl := List.length_eq_zero_iff.mp (hlen.trans harity)
        have hhead : G.Comes (pure h) (G.whnf h) := by
          have hnil : G.Comes (pure (h.apps ([] ++ []))) (G.firing s h ([] ++ [])) :=
            whnfApp_declined hG hs hlen hnow hact hh .nil
          rw [List.nil_append, Term.apps_nil] at hnil
          exact Tie.Follows.shift 2 0 (whnf_firing hs harity) hnil
        rw [List.nil_append] at hfire has ⊢
        by_cases hlater : later = []
        · subst hlater
          rwa [Term.apps_nil]
        · have happs : G.Comes (pure (h.apps later)) (G.whnfApp h later) :=
            Tie.Follows.of_succ (whnfApp_step hs (by omega)) hfire
          rw [Term.apps_of_not_isApp happ hlater] at happs ⊢
          exact Comes.app hG hhead has happs
      · have hne : now ++ later ≠ [] := by
          intro hnil
          have hzero := congrArg List.length hnil
          rw [List.length_append, List.length_nil] at hzero
          omega
        have hle : s.arity ≤ (now ++ later).length := by
          rw [List.length_append]
          omega
        have happs : G.Comes (pure (h.apps (now ++ later))) (G.whnfApp h (now ++ later)) :=
          Tie.Follows.of_succ (whnfApp_step hs hle) hfire
        rw [Term.apps_of_not_isApp happ hne] at happs ⊢
        exact Comes.app_of_still (still_step hs harity) happs

/-- A final term that does not wait for arguments stays the head of any that it gets. -/
theorem Final.waiting_or_comes {u : Term β σ} (hu : G.Final u) (hgood : G.Good u) :
    G.Waiting u ∨ ∀ as, G.GoodArgs as → G.Comes (pure (u.apps as)) (G.whnfApp u as) := by
  -- an application is put together with the arguments and reduced once more
  have hsplit {h : Term β σ} {xs as : List (Term β σ)} (happ : h.isApp = false) (hxs : xs ≠ [])
      (hm : G.Comes (pure (h.apps (xs ++ as))) (G.whnf (h.apps (xs ++ as)))) :
      G.Comes (pure ((h.apps xs).apps as)) (G.whnfApp (h.apps xs) as) := by
    rw [Term.apps_apps]
    rw [← Term.apps_apps] at hm
    have hisApp : (h.apps xs).isApp = true := by
      rw [Term.apps_of_not_isApp happ hxs]
      rfl
    rw [← Term.apps_apps]
    exact Tie.Follows.of_succ (whnfApp_of_isApp hisApp as) hm
  cases hu with
  | lam hlt => exact .inl (.lam hlt)
  | step hs hlt => exact .inl (.step hs hlt)
  | @rest h xs happ hlam hs hh =>
      obtain ⟨hgh, hgxs⟩ := good_apps happ hgood
      refine .inr fun as has => ?_
      by_cases hxs : xs = []
      · subst hxs
        rw [Term.apps_nil]
        exact Tie.Follows.of_succ (whnfApp_of_none happ hlam hs as) (.pure (hgh.apps has))
      · refine hsplit happ hxs ?_
        exact (Final.rest happ hlam hs hh).comes hG (hgh.apps (hgxs.append has))
  | @declined h s now later hs hlen hnow hact =>
      have happ := isApp_of_stepOf hs
      obtain ⟨hgh, hgxs⟩ := good_apps happ hgood
      refine .inr fun as has => ?_
      by_cases hxs : now ++ later = []
      · obtain ⟨rfl, rfl⟩ := List.append_eq_nil_iff.mp hxs
        rw [List.append_nil, Term.apps_nil]
        refine Tie.Follows.of_succ (whnfApp_step hs (by rw [← hlen]; exact Nat.zero_le _)) ?_
        exact whnfApp_declined hG hs hlen hnow hact hgh has
      · refine hsplit happ hxs ?_
        rw [List.append_assoc]
        refine (Final.declined hs hlen hnow hact).comes hG (hgh.apps ?_)
        rw [← List.append_assoc]
        exact hgxs.append has

/-- Final terms with arguments in normal form are normal. -/
theorem Final.normal {h : Term β σ} {xs : List (Term β σ)} (hu : G.Final (h.apps xs))
    (happ : h.isApp = false) (hgood : G.Good (h.apps xs)) (hxs : ∀ x ∈ xs, G.Normal x) :
    G.Normal (h.apps xs) := by
  refine Comes.norm (hu.comes hG hgood) fun u' hu' => ?_
  refine Comes.congr_normArgs hG ?_ hu'
  exact Comes.normArgs happ (good_apps happ hgood).1 (comeAll_of_normal hxs)

end

/-! ## What reduction gives is final -/

section

variable (G)

/-- The act gives values with a property and leaves the world admissible, unless it breaks off. -/
abbrev Makes (V : α → Prop) (act : Act β σ α) : Prop := Keeps G.world (fun _ => True) V act

end

/-- What goes like anything at all makes what the comparison says. -/
theorem Makes.of_follows {α' : Type} {R : α → α' → Prop} {V : α → Prop} {act : Act β σ α}
    {F : Family (Halt β) (World β σ) α'} (h : G.tie.Follows R act F)
    (hV : ∀ a a', R a a' → V a) : G.Makes V act := by
  intro w hw
  rcases h w w ⟨hw, hw⟩ with ⟨e, w', hr, rfl⟩ | ⟨r', -, hm⟩
  · rw [hr]
    trivial
  · generalize act w = r at hm ⊢
    cases hm with
    | ok ha hw' => exact ⟨hV _ _ ha, hw'.1⟩
    | @error e _ _ _ _ hw' =>
        cases e with
        | issue e => exact ⟨trivial, hw'.1⟩
        | _ => trivial
    | escape he => exact he.elim

/-- Two properties of what an act gives. -/
theorem Makes.and {V U : α → Prop} {act : Act β σ α} (h : G.Makes V act) (h' : G.Makes U act) :
    G.Makes (fun a => V a ∧ U a) act := by
  intro w hw
  have hV := h w hw
  have hU := h' w hw
  generalize act w = r at hV hU ⊢
  cases r with
  | ok a w' => exact ⟨⟨hV.1, hU.1⟩, hV.2⟩
  | error e w' =>
      cases e with
      | issue e => exact hV
      | _ => trivial

theorem Makes.bounded {a? : Option α} {V : α → Prop} (h : ∀ a, a? = some a → V a) :
    G.Makes V (Act.bounded a?) := by
  cases a? with
  | none => exact fun _ _ => trivial
  | some a => exact Keeps.pure (h a rfl)

theorem Makes.mapM {V : γ → α → Prop} {f : γ → Act β σ α} :
    ∀ {cs : List γ}, (∀ c ∈ cs, G.Makes (V c) (f c)) → G.Makes (List.Forall₂ V cs) (cs.mapM f)
  | [], _ => by
      rw [List.mapM_nil]
      exact Keeps.pure .nil
  | c :: cs, h => by
      rw [List.mapM_cons]
      refine (h c List.mem_cons_self).bind fun a ha => ?_
      refine (Makes.mapM fun c' hc' => h c' (List.mem_cons_of_mem c hc')).bind fun as has => ?_
      exact Keeps.pure (.cons ha has)

section

variable (hG : G.Lawful)

/-- What an act gives that lasts is like the one thing that its family gives. -/
theorem Makes.of_gives {α' : Type} {V : α' → α → Prop} {a : α'} {act : Act β σ α}
    {F : Family (Halt β) (World β σ) α} (h : G.Gives V (pure a) F) (hl : Lasts act F)  :
    G.Makes (V a) act := by
  intro w hw
  rcases lasts_iff.mp hl w with ⟨w', hr⟩ | hy
  · rw [hr]
    trivial
  · obtain ⟨r, hy', hm⟩ := gives_iff.mp h w hw
    obtain rfl := hy.unique hy'
    generalize act w = r at hm ⊢
    cases hm with
    | ok ha hw' => exact ⟨ha, hw'⟩
    | escape he =>
        subst he
        trivial

/-- With a given amount of fuel, what reduction gives is final and what normalization gives is
normal. -/
structure FinalAt (G : Ground β σ) (l n : Nat) : Prop where
  whnf : ∀ {t}, G.Good t →
    G.Makes (fun u => G.Good u ∧ G.Final u) (Reduce.whnf (G.reduction l) n t)
  fireConstant : ∀ {s t}, G.stepOf t = some s → G.Good t →
    G.Makes (fun u => G.Good u ∧ G.Final u) (Reduce.fireConstant (G.reduction l) n s t)
  whnfApp : ∀ {h as}, G.Good h → G.Final h → G.GoodArgs as →
    G.Makes (fun u => G.Good u ∧ G.Final u) (Reduce.whnfApp (G.reduction l) n h as)
  norm : ∀ {t}, G.Good t →
    G.Makes (fun u => G.Good u ∧ G.Normal u) (Reduce.norm (G.reduction l) n t)

include hG

theorem keeps_note {raised : Issue β → Prop} {s : Step σ} {ts : List (Term β σ)}
    (hs : G.like.step s s) (hts : G.GoodArgs ts) :
    Keeps G.world raised (fun _ => True) (Act.note (.fired s ts)) :=
  fun _ hw => ⟨trivial, (hG.fair.fired ⟨hw, hw⟩ hs hts).1⟩

/-- What a step does in one world is known to be what it does in any world. -/
theorem keeps_act (l : Nat) {s : Step σ} {ts : List (Term β σ)} (hs : G.like.step s s)
    (hts : G.GoodArgs ts) : Keeps G.world (fun e => G.Acts (throw (.issue e)) s ts)
      (fun r => (∀ u, r = some u → G.Good u) ∧ G.Acts (pure r) s ts)
      (G.interp l s.body G.env ts) := by
  intro w hw
  have hmakes := Makes.of_follows (V := fun r => ∀ u, r = some u → G.Good u) (hG.interp l hs hts)
    (by
      rintro _ r' hr u rfl
      cases hr with
      | some hu => exact hG.good_left hu) w hw
  cases hr : G.interp l s.body G.env ts w with
  | ok r w' =>
      rw [hr] at hmakes
      exact ⟨⟨hmakes.1, hG.acts_of_ok hs hts hw hr⟩, hmakes.2⟩
  | error e w' =>
      rw [hr] at hmakes
      cases e with
      | issue e => exact ⟨hG.acts_of_issue hs hts hw hr, hmakes.2⟩
      | _ => trivial

/-- What a firing makes: the result of the step, or an application that the step has declined. -/
theorem makes_fire {l n : Nat} (ih : FinalAt G l n) {s : Step σ} {h : Term β σ}
    {as : List (Term β σ)} (hs : G.stepOf h = some s) (hh : G.Good h) (has : G.GoodArgs as)
    (hle : s.arity ≤ as.length) : G.Makes (fun p => G.Good p.2 ∧ (p.1 = false → G.Final p.2))
      (Reduce.fire (G.reduction l) (Reduce.norm (G.reduction l) n) s h as) := by
  have hstep := stepOf_like hG hs hh
  have hmem : ∀ a ∈ as.take s.arity, G.Good a := by
    have hself := List.forall₂_same.mp (Term.alikeArgs_iff_forall₂.mp (has.take s.arity))
    exact hself
  unfold Reduce.fire
  refine (Makes.mapM (V := fun _ u => G.Good u ∧ G.Normal u)
    fun a ha => ih.norm (hmem a ha)).bind fun now hnow => ?_
  have hlen : now.length = s.arity := by
    rw [← hnow.length_eq, List.length_take]
    omega
  have hgood : G.GoodArgs now := by
    refine Term.alikeArgs_iff_forall₂.mpr (List.forall₂_same.mpr fun u hu => ?_)
    obtain ⟨a, -, ha⟩ := exists_of_forall₂_right hnow hu
    exact ha.1
  have hnormal : ∀ u ∈ now, G.Normal u := by
    intro u hu
    obtain ⟨a, -, ha⟩ := exists_of_forall₂_right hnow hu
    exact ha.2
  refine (Makes.of_follows (V := fun _ => True) (hG.fair.debug _ _)
    fun _ _ _ => trivial).bind fun _ _ => ?_
  refine (keeps_note hG hstep hgood).bind fun _ _ => ?_
  refine ((keeps_act hG l hstep hgood).imp (fun _ _ => trivial) fun _ h => h).bind fun r hr => ?_
  cases r with
  | some u => exact Keeps.pure ⟨(hr.1 u rfl).apps (has.drop _), (by simp)⟩
  | none =>
      refine Keeps.pure ⟨hh.apps (hgood.append (has.drop _)), fun _ => ?_⟩
      exact .declined hs hlen hnormal hr.2

/-- Arguments may be replaced by their normal forms. -/
theorem Final.replace {h : Term β σ} {xs ys : List (Term β σ)} (hu : G.Final (h.apps xs))
    (happ : h.isApp = false) (hgood : G.Good (h.apps xs))
    (hys : List.Forall₂ (fun x y => (G.Good y ∧ G.Normal y) ∧ (G.Normal x → G.like.Alike 0 x y))
      xs ys) : G.Final (h.apps ys) := by
  generalize ht : h.apps xs = t at hu
  cases hu with
  | @lam n b xs' hlt =>
      obtain ⟨rfl, rfl⟩ := Term.apps_inj happ rfl ht
      exact .lam (by rwa [← hys.length_eq])
  | @step h' s xs' hs hlt =>
      obtain ⟨rfl, rfl⟩ := Term.apps_inj happ (isApp_of_stepOf hs) ht
      exact .step hs (by rwa [← hys.length_eq])
  | @rest h' xs' happ' hlam hs hh =>
      obtain ⟨rfl, -⟩ := Term.apps_inj happ happ' ht
      exact .rest happ hlam hs hh
  | @declined h' s now later hs hlen hnow hact =>
      obtain ⟨rfl, rfl⟩ := Term.apps_inj happ (isApp_of_stepOf hs) ht
      obtain ⟨hh, hxs⟩ := good_apps happ hgood
      -- the arguments that were declined were normal before, so the new ones are like them
      have hnow' := (List.forall₂_take s.arity hys)
      rw [show (now ++ later).take s.arity = now by rw [← hlen, List.take_left]] at hnow'
      have hlike : G.like.AlikeArgs 0 now (ys.take s.arity) := by
        refine Term.alikeArgs_iff_forall₂.mpr ?_
        have hboth := (List.forall₂_and_left _ _).mpr ⟨hnow, hnow'⟩
        exact hboth.imp fun x y hxy => hxy.2.2 hxy.1
      rw [← List.take_append_drop s.arity ys]
      refine .declined hs (by rw [← hlike.length_eq, hlen]) (fun y hy => ?_)
        (hact.congr hG (stepOf_like hG hs hh) hlike)
      obtain ⟨x, -, hx⟩ := exists_of_forall₂_right hnow' hy
      exact hx.1.2

theorem norm_final {l n : Nat} (ih : FinalAt G l n) {t : Term β σ} (ht : G.Good t) :
    G.Makes (fun u => G.Good u ∧ G.Normal u) (Reduce.norm (G.reduction l) (n + 1) t) := by
  rw [Reduce.norm]
  refine (ih.whnf ht).bind fun u hu => ?_
  obtain ⟨hgood, hfinal⟩ := hu
  have hdone (happ : u.isApp = false) : G.Good u ∧ G.Normal u := by
    have hnormal : G.Normal (u.apps []) :=
      Final.normal hG (by rwa [Term.apps_nil]) happ (by rwa [Term.apps_nil])
        fun x hx => absurd hx List.not_mem_nil
    rw [Term.apps_nil] at hnormal
    exact ⟨hgood, hnormal⟩
  cases u with
  | app h xs =>
      have hcanonical := hgood.canonical hG.canonical
      have happ : h.isApp = false := hcanonical.1
      have heq : Term.app h xs = h.apps xs := (Term.apps_of_not_isApp happ hcanonical.2.1).symm
      rw [heq] at hgood hfinal
      obtain ⟨hh, hxs⟩ := good_apps happ hgood
      have hself := List.forall₂_same.mp (Term.alikeArgs_iff_forall₂.mp hxs)
      have hnorm : ∀ x ∈ xs, G.Makes
          (fun y => (G.Good y ∧ G.Normal y) ∧ (G.Normal x → G.like.Alike 0 x y))
          (Reduce.norm (G.reduction l) n x) := by
        intro x hx
        by_cases hn : G.Normal x
        · exact ((ih.norm (hself x hx)).and (Makes.of_gives hn (hG.lasts_norm l n x))).imp
            (fun _ => id) fun y hy => ⟨hy.1, fun _ => hy.2⟩
        · exact (ih.norm (hself x hx)).imp (fun _ => id) fun y hy => ⟨hy, fun h => absurd h hn⟩
      refine (Makes.mapM hnorm).bind fun ys hys => ?_
      have hgoods : G.GoodArgs ys := by
        refine Term.alikeArgs_iff_forall₂.mpr (List.forall₂_same.mpr fun y hy => ?_)
        obtain ⟨x, -, hx⟩ := exists_of_forall₂_right hys hy
        exact hx.1.1
      refine Keeps.pure ⟨hh.apps hgoods, Final.normal hG ?_ happ (hh.apps hgoods) fun y hy => ?_⟩
      · exact hfinal.replace hG happ hgood hys
      · obtain ⟨x, -, hx⟩ := exists_of_forall₂_right hys hy
        exact hx.1.2
  | _ => exact Keeps.pure (hdone rfl)

theorem makes_firing {l n : Nat} (ih : FinalAt G l n) {s : Step σ} {h : Term β σ}
    {as : List (Term β σ)} (hs : G.stepOf h = some s) (hh : G.Good h) (has : G.GoodArgs as)
    (hle : s.arity ≤ as.length) :
    G.Makes (fun u => G.Good u ∧ G.Final u) (G.firing s h as l n) := by
  refine (makes_fire hG ih hs hh has hle).bind fun p hp => ?_
  obtain ⟨fired, u⟩ := p
  cases fired with
  | true => exact ih.whnf hp.1
  | false => exact Keeps.pure ⟨hp.1, hp.2 rfl⟩

theorem fireConstant_final {l n : Nat} (ih : FinalAt G l n) {s : Step σ} {t : Term β σ}
    (hs : G.stepOf t = some s) (ht : G.Good t) : G.Makes (fun u => G.Good u ∧ G.Final u)
      (Reduce.fireConstant (G.reduction l) (n + 1) s t) := by
  by_cases harity : s.arity = 0
  · rw [fireConstant_firing harity]
    exact makes_firing hG ih hs ht .nil (by rw [harity]; exact Nat.zero_le _)
  · rw [Reduce.fireConstant, if_pos harity]
    have hfinal : G.Final (t.apps []) := .step hs (Nat.pos_of_ne_zero harity)
    rw [Term.apps_nil] at hfinal
    exact Keeps.pure ⟨ht, hfinal⟩

theorem whnfApp_final {l n : Nat} (ih : FinalAt G l n) {h : Term β σ} {as : List (Term β σ)}
    (hh : G.Good h) (hfinal : G.Final h) (has : G.GoodArgs as) :
    G.Makes (fun u => G.Good u ∧ G.Final u) (Reduce.whnfApp (G.reduction l) (n + 1) h as) := by
  show G.Makes _ (G.whnfApp h as l (n + 1))
  by_cases happ : h.isApp = true
  · rw [whnfApp_of_isApp happ]
    exact ih.whnf (hh.apps has)
  · rw [Bool.not_eq_true] at happ
    by_cases hlam : ∃ k b, h = .lam k b
    · obtain ⟨k, b, rfl⟩ := hlam
      by_cases hk : k ≤ as.length
      · rw [whnfApp, Reduce.whnfApp, if_pos hk]
        refine (Makes.bounded (V := G.Good) fun b' hb' => ?_).bind fun b' hb' =>
          ih.whnf (hb'.apps (has.drop k))
        exact good_beta hh (has.take k) (by rw [List.length_take]; omega) hb'
      · rw [whnfApp_lam_of_lt (Nat.lt_of_not_le hk)]
        exact Keeps.pure ⟨hh.apps has, .lam (Nat.lt_of_not_le hk)⟩
    · have hlam : ∀ k b, h ≠ .lam k b := fun k b heq => hlam ⟨k, b, heq⟩
      cases hs : G.stepOf h with
      | none =>
          rw [whnfApp_of_none happ hlam hs]
          exact Keeps.pure ⟨hh.apps has, .rest happ hlam hs (hfinal.comes hG hh)⟩
      | some s =>
          by_cases hle : s.arity ≤ as.length
          · rw [whnfApp_step hs hle]
            exact makes_firing hG ih hs hh has hle
          · rw [whnfApp_step_of_lt hs (Nat.lt_of_not_le hle)]
            exact Keeps.pure ⟨hh.apps has, .step hs (Nat.lt_of_not_le hle)⟩

theorem whnf_final {l n : Nat} (ih : FinalAt G l n) {t : Term β σ} (ht : G.Good t) :
    G.Makes (fun u => G.Good u ∧ G.Final u) (Reduce.whnf (G.reduction l) (n + 1) t) := by
  -- what there is nothing to be done with
  have hatom (hrun : ∀ k, Reduce.whnf (G.reduction l) (k + 1) t = pure t) (happ : t.isApp = false)
      (hlam : ∀ k b, t ≠ .lam k b) (hs : G.stepOf t = none) (hstill : G.Still t) :
      G.Makes (fun u => G.Good u ∧ G.Final u) (Reduce.whnf (G.reduction l) (n + 1) t) := by
    rw [hrun]
    have hfinal : G.Final (t.apps []) :=
      .rest happ hlam hs (gives_iff.mpr fun w hw => ⟨_, hstill.yields w, .ok ht hw⟩)
    rw [Term.apps_nil] at hfinal
    exact Keeps.pure ⟨ht, hfinal⟩
  cases ht with
  | annotated h =>
      rw [Reduce.whnf]
      exact ih.whnf h
  | ascribed h _ =>
      rw [Reduce.whnf]
      exact ih.whnf h
  | reify h =>
      rw [Reduce.whnf]
      exact ih.whnf h
  | @const _ c hc =>
      cases hs : G.steps.lookup c with
      | some s =>
          rw [Reduce.whnf, stepOf_reduction, stepOf, hs]
          exact ih.fireConstant hs (.const hc)
      | none =>
          cases hbody : G.env.unfoldable c with
          | none =>
              refine hatom (fun k => ?_) rfl (by simp) hs (still_const hs hbody)
              rw [Reduce.whnf, stepOf_reduction, stepOf, hs, bodyOf?_of_none hbody]
          | some body =>
              rw [Reduce.whnf, stepOf_reduction, stepOf, hs, bodyOf?_of_some hs hbody]
              exact ih.whnf (hG.unfoldable hbody)
  | @native _ s _ hs =>
      rw [Reduce.whnf, stepOf_reduction]
      exact ih.fireConstant (s := s) rfl (.native hs)
  | app _ hh has =>
      rw [Reduce.whnf]
      exact (ih.whnf hh).bind fun h' hh' => ih.whnfApp hh'.1 hh'.2 has
  | @case _ s _ brs _ hs hbrs =>
      rw [Reduce.whnf]
      refine (ih.whnf hs).bind fun v hv => ?_
      have hsel := Reduce.select_alike hv.1 hbrs
      generalize hx : Reduce.select v brs = x at hsel ⊢
      cases x with
      | none =>
          have hrest : G.Final ((Term.case v brs).apps []) :=
            .rest rfl (by simp) rfl (Comes.case_none (hv.2.comes hG hv.1) hbrs hx)
          rw [Term.apps_nil] at hrest
          exact Keeps.pure ⟨.case hv.1 hbrs, hrest⟩
      | some b? =>
          refine (Makes.bounded (V := G.Good) fun b hb => ?_).bind fun b hb => ih.whnf hb
          subst hb
          cases hsel with
          | some hb =>
              cases hb with
              | some hb => exact hb
  | @lam _ k b _ hk hb =>
      have hfinal : G.Final ((Term.lam k b).apps []) := .lam (hk hG.canonical)
      rw [Term.apps_nil] at hfinal
      rw [Reduce.whnf]
      · exact Keeps.pure ⟨.lam hk hb, hfinal⟩
      all_goals simp
  | bvar h => exact absurd (h hG.closed) (Nat.not_lt_zero _)
  | ctor | free | uvar | lit | blob =>
      refine hatom (fun k => ?_) rfl (by simp) rfl (still_atom rfl)
      rw [Reduce.whnf]
      all_goals simp

/-- What reduction gives is final, and what normalization gives is normal. -/
theorem finalAt (l n : Nat) : FinalAt G l n := by
  induction n with
  | zero =>
      exact ⟨fun _ _ _ => trivial, fun _ _ _ _ => trivial, fun _ _ _ _ _ => trivial,
        fun _ _ _ => trivial⟩
  | succ n ih =>
      exact ⟨whnf_final hG ih, fireConstant_final hG ih, whnfApp_final hG ih, norm_final hG ih⟩

theorem Normal.congr {t u : Term β σ} (ht : G.Normal t) (htu : G.like.Alike 0 t u) : G.Normal u :=
  Comes.of_like hG (ht.congr_norm hG htu) (hG.like_symm htu)

/-- What two normalizations of the same terms give is alike and normal, if they give anything. -/
theorem ComeAll.normal_or_overflow {ts us vs : List (Term β σ)} (hts : G.GoodArgs ts)
    (hus : G.ComeAll (pure us) (G.norms ts)) (hvs : G.ComeAll (pure vs) (G.norms ts)) :
    (G.like.AlikeArgs 0 us vs ∧ ∀ v ∈ vs, G.Normal v) ∨ G.ComeAll (throw .overflow) (G.norms ts) := by
  rcases (hvs.and hus).exists_or_overflow with ⟨w, w', xs, hw, ⟨N, hN⟩, hvx, hux⟩ | hover
  · refine .inl ⟨hux.trans hG.trans (hvx.symm hG.symm), ?_⟩
    have hmem := List.forall₂_same.mp (Term.alikeArgs_iff_forall₂.mp hts)
    have hmakes := Makes.mapM (fun t ht => (finalAt hG N N).norm (hmem t ht)) w hw
    rw [show ts.mapM (Reduce.norm (G.reduction N) N) w = .ok xs w' from
      hN N (Nat.le_refl N) N (Nat.le_refl N)] at hmakes
    intro v hv
    obtain ⟨x, hx, hxv⟩ := exists_of_forall₂_right
      (Term.alikeArgs_iff_forall₂.mp (hvx.symm hG.symm)) hv
    obtain ⟨t, -, hnormal⟩ := exists_of_forall₂_right hmakes.1 hx
    exact hnormal.2.congr hG hxv
  · exact .inr (hover.imp fun _ _ h => h.1)

end

end Ground

end TacticEngine
