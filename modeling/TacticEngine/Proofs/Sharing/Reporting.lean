/-
# TacticEngine.Proofs.Sharing.Reporting -- what reduction gives and fires, rule by rule.

One rule for each way in which a reduction goes on: if what it goes on with gives an outcome and fires some
steps, then so does the term it started from, after what it has fired on the way.
-/
import TacticEngine.Proofs.Agreement.Becoming
import TacticEngine.Proofs.Sharing.Firings

namespace TacticEngine

variable {β σ α : Type}

namespace Ground

variable {G : Ground β σ} {m : Ideal β (Term β σ)} {M N : List (Firing β σ)}

/-! ## Heads -/

theorem Goes.annotated {e : Term β σ} (h : G.Goes m (G.whnf e) M) (n : Annotation) :
    G.Goes m (G.whnf (.annotated e n)) M :=
  .of_succ (fun l k => by rw [whnf, Reduce.whnf, whnf]) h

theorem Goes.ascribed {e : Term β σ} (h : G.Goes m (G.whnf e) M) (t : Term β σ) :
    G.Goes m (G.whnf (.ascribed e t)) M :=
  .of_succ (fun l k => by rw [whnf, Reduce.whnf]; rfl) h

theorem Goes.reify {e : Term β σ} (h : G.Goes m (G.whnf e) M) : G.Goes m (G.whnf (.reify e)) M :=
  .of_succ (fun l k => by rw [whnf, Reduce.whnf]; rfl) h

theorem Goes.unfold {c : String} {body : Term β σ} (hc : G.steps.lookup c = none)
    (hbody : G.env.unfoldable c = some body) (h : G.Goes m (G.whnf body) M) :
    G.Goes m (G.whnf (.const c)) M := by
  refine .of_succ (fun l k => ?_) h
  rw [whnf, Reduce.whnf, stepOf_reduction, stepOf, hc, bodyOf?_of_some hc hbody, whnf]

section

variable (hq : G.Quiet)

include hq

/-- A case distinction goes on with the branch that is taken. -/
theorem Goes.case_some {s v : Term β σ} {brs : List (Branch (Term β σ))} {b? : Option (Term β σ)}
    (hs : G.Goes (pure v) (G.whnf s) M) (hsel : Reduce.select v brs = some b?)
    (hb : ∀ b, b? = some b → G.Goes m (G.whnf b) N) : G.Goes m (G.whnf (.case s brs)) (M ++ N) := by
  refine .succ ?_
  simp only [whnf, Reduce.whnf]
  refine hs.bind_pure fun v' hv => ?_
  obtain rfl := hv.eq hq.strict
  rw [hsel]
  exact .bounded hb

theorem Goes.case_none {s v : Term β σ} {brs : List (Branch (Term β σ))}
    (hs : G.Goes (pure v) (G.whnf s) M) (hbrs : G.like.AlikeBranches 0 brs brs)
    (hsel : Reduce.select v brs = none) : G.Goes (pure (.case v brs)) (G.whnf (.case s brs)) M := by
  refine .succ ?_
  simp only [whnf, Reduce.whnf]
  rw [← List.append_nil M]
  refine hs.bind_pure fun v' hv => ?_
  obtain rfl := hv.eq hq.strict
  rw [hsel]
  exact .pure (.case hv hbrs)

end

theorem Goes.case_throw {s : Term β σ} {brs : List (Branch (Term β σ))} {e : Halt β}
    (hs : G.Goes (throw e) (G.whnf s) M) : G.Goes (throw e) (G.whnf (.case s brs)) M := by
  refine .succ ?_
  simp only [whnf, Reduce.whnf]
  exact hs.bind_throw

/-! ## Applications -/

/-- An application goes on with whatever its head is reduced to. -/
theorem Goes.app (hq : G.Quiet) {h u : Term β σ} {as : List (Term β σ)}
    (hh : G.Goes (pure u) (G.whnf h) M) (hm : G.Goes m (G.whnfApp u as) N) :
    G.Goes m (G.whnf (.app h as)) (M ++ N) :=
  have hbind : G.Goes m (fun l n => G.whnf h l n >>= fun u => G.whnfApp u as l n) (M ++ N) :=
    hh.bind_pure fun u' hu => by rwa [← hu.eq hq.strict]
  .of_succ (fun l n => by rw [whnf, Reduce.whnf]; rfl) hbind

theorem Goes.app_throw {h : Term β σ} {as : List (Term β σ)} {e : Halt β}
    (hh : G.Goes (throw e) (G.whnf h) M) : G.Goes (throw e) (G.whnf (.app h as)) M :=
  have hbind : G.Goes (throw e) (fun l n => G.whnf h l n >>= fun u => G.whnfApp u as l n) M :=
    hh.bind_throw
  .of_succ (fun l n => by rw [whnf, Reduce.whnf]; rfl) hbind

theorem Goes.app_of_still {h : Term β σ} {as : List (Term β σ)} (hh : G.Still h)
    (hm : G.Goes m (G.whnfApp h as) M) : G.Goes m (G.whnf (.app h as)) M :=
  hm.shift 3 2 (whnf_app_of_still hh as)

/-- A lambda with enough arguments goes on with its body. -/
theorem Goes.beta {n : Nat} {b : Term β σ} {as : List (Term β σ)} (hn : n ≤ as.length)
    (hm : ∀ b', b.beta? (as.take n) = some b' → G.Goes m (G.whnf (b'.apps (as.drop n))) M) :
    G.Goes m (G.whnfApp (.lam n b) as) M := by
  refine .of_succ (fun l k => ?_) (.bounded hm)
  rw [whnfApp, Reduce.whnfApp, if_pos hn]
  rfl

/-! ## Firing -/

section

variable (hG : G.Lawful) (hq : G.Quiet) {s : Step σ} {h : Term β σ} {as now : List (Term β σ)}

include hG hq

/-- A firing is reported after what normalizing the arguments fires, and before what comes of it. -/
theorem Goes.fire (hs : G.like.step s s) (hnow : G.GoAll (pure now) (G.norms (as.take s.arity)) M)
    (hm : G.Goes m (fun l n => G.act s now l n >>= fun
      | some u => G.whnf (u.apps (as.drop s.arity)) l n
      | none => pure (h.apps (now ++ as.drop s.arity))) N) :
    G.Goes m (G.firing s h as) (M ++ (s, now) :: N) := by
  rw [show G.firing s h as = _ from funext fun l => funext fun n => firing_eq s h as l n]
  refine hnow.bind_pure fun now' hlike => ?_
  obtain rfl := hlike.eq hq.strict
  have hdebug := Reports.debug hG .trace
    ("firing " ++ s.name ++ " on " ++ toString now.length ++ " arguments")
  exact hdebug.bind_pure fun _ _ => (Reports.note hG hs hlike).bind_pure fun _ _ => hm

theorem Goes.fire_some {u : Term β σ} (hs : G.like.step s s)
    (hnow : G.GoAll (pure now) (G.norms (as.take s.arity)) M)
    (hact : G.Acts (pure (some u)) s now) (hm : G.Goes m (G.whnf (u.apps (as.drop s.arity))) N) :
    G.Goes m (G.firing s h as) (M ++ (s, now) :: N) := by
  refine Goes.fire hG hq hs hnow ((Reports.act hq hs hact).bind_pure (M := []) fun r hr => ?_)
  cases hr with
  | some hu => rwa [← hu.eq hq.strict]

theorem Goes.fire_none (hs : G.like.step s s) (hh : G.Good h) (has : G.GoodArgs as)
    (hnow : G.GoAll (pure now) (G.norms (as.take s.arity)) M) (hgood : G.GoodArgs now)
    (hact : G.Acts (pure none) s now) :
    G.Goes (pure (h.apps (now ++ as.drop s.arity))) (G.firing s h as) (M ++ [(s, now)]) := by
  refine Goes.fire hG hq hs hnow ((Reports.act hq hs hact).bind_pure (M := []) fun r hr => ?_)
  cases hr with
  | none => exact .pure (hh.apps (hgood.append (has.drop _)))

theorem Goes.fire_issue {e : Halt β} (hs : G.like.step s s)
    (hnow : G.GoAll (pure now) (G.norms (as.take s.arity)) M) (hact : G.Acts (throw e) s now) :
    G.Goes (throw e) (G.firing s h as) (M ++ [(s, now)]) :=
  Goes.fire hG hq hs hnow (Reports.act hq hs hact).bind_throw

omit hG hq in
theorem Goes.fire_throw {e : Halt β} (hnow : G.GoAll (throw e) (G.norms (as.take s.arity)) M) :
    G.Goes (throw e) (G.firing s h as) M := by
  rw [show G.firing s h as = _ from funext fun l => funext fun n => firing_eq s h as l n]
  exact hnow.bind_throw

end

/-! ## Normalization -/

theorem goAll_nil : G.GoAll (pure []) (G.norms []) [] := .pure .nil

section

variable {t u : Term β σ} {ts us ts' us' : List (Term β σ)} {e : Halt β}

theorem GoAll.cons (h : G.Goes (pure u) (G.norm t) M) (hs : G.GoAll (pure us) (G.norms ts) N) :
    G.GoAll (pure (u :: us)) (G.norms (t :: ts)) (M ++ N) := by
  rw [show G.norms (t :: ts) = _ from funext fun l => funext fun n => norms_cons_eq t ts l n]
  refine h.bind_pure fun u' hu => ?_
  rw [← List.append_nil N]
  exact hs.bind_pure fun us' hus => .pure (.cons hu hus)

theorem GoAll.cons_throw (h : G.Goes (pure u) (G.norm t) M) (hs : G.GoAll (throw e) (G.norms ts) N) :
    G.GoAll (throw e) (G.norms (t :: ts)) (M ++ N) := by
  rw [show G.norms (t :: ts) = _ from funext fun l => funext fun n => norms_cons_eq t ts l n]
  exact h.bind_pure fun u' _ => hs.bind_throw

theorem GoAll.throw_cons (h : G.Goes (throw e) (G.norm t) M) :
    G.GoAll (throw e) (G.norms (t :: ts)) M := by
  rw [show G.norms (t :: ts) = _ from funext fun l => funext fun n => norms_cons_eq t ts l n]
  exact h.bind_throw

/-- Arguments in normal form in front of others. -/
theorem GoAll.append (h : G.GoAll (pure us) (G.norms ts) M) (h' : G.GoAll (pure us') (G.norms ts') N) :
    G.GoAll (pure (us ++ us')) (G.norms (ts ++ ts')) (M ++ N) := by
  rw [show G.norms (ts ++ ts') = _ from funext fun l => funext fun n => norms_append_eq ts ts' l n]
  refine h.bind_pure fun _ hu => ?_
  rw [← List.append_nil N]
  exact h'.bind_pure fun _ hu' => .pure (hu.append hu')

theorem GoAll.append_throw (h : G.GoAll (pure us) (G.norms ts) M)
    (h' : G.GoAll (throw e) (G.norms ts') N) :
    G.GoAll (throw e) (G.norms (ts ++ ts')) (M ++ N) := by
  rw [show G.norms (ts ++ ts') = _ from funext fun l => funext fun n => norms_append_eq ts ts' l n]
  exact h.bind_pure fun _ _ => h'.bind_throw

theorem goAll_of_normal (hG : G.Lawful) (hq : G.Quiet) (hts : G.GoodArgs ts)
    (h : ∀ t ∈ ts, G.Normal t) : G.GoAll (pure ts) (G.norms ts) [] :=
  ⟨comeAll_of_normal h, fires_norms hG hq hts⟩

theorem Goes.norm (hq : G.Quiet) (ht : G.Goes (pure u) (G.whnf t) M) (hm : G.Goes m (G.normArgs u) N) :
    G.Goes m (G.norm t) (M ++ N) :=
  have hbind : G.Goes m (fun l n => G.whnf t l n >>= fun u => G.normArgs u l n) (M ++ N) :=
    ht.bind_pure fun u' hu => by rwa [← hu.eq hq.strict]
  .of_succ (fun l n => norm_succ t l n) hbind

theorem Goes.norm_throw (ht : G.Goes (throw e) (G.whnf t) M) : G.Goes (throw e) (G.norm t) M :=
  have hbind : G.Goes (throw e) (fun l n => G.whnf t l n >>= fun u => G.normArgs u l n) M :=
    ht.bind_throw
  .of_succ (fun l n => norm_succ t l n) hbind

/-- The arguments of a head that is no application. -/
theorem Goes.normArgs {h : Term β σ} (happ : h.isApp = false) (hh : G.Good h)
    (hts : G.GoAll (pure us) (G.norms ts) M) : G.Goes (pure (h.apps us)) (G.normArgs (h.apps ts)) M := by
  refine ⟨Comes.normArgs happ hh hts.gives, ?_⟩
  cases ts with
  | nil =>
      have hpure : G.normArgs h = fun _ _ => pure h := by
        cases h with
        | app => cases happ
        | _ => rfl
      rw [Term.apps_nil, hpure]
      exact hts.fires.of_pure (.const fun _ => rfl)
  | cons t ts =>
      rw [Term.apps_of_not_isApp happ (List.cons_ne_nil _ _), ← List.append_nil M]
      exact hts.fires.bind hts.gives fun _ _ => .const fun _ => rfl

theorem Goes.normArgs_throw {h : Term β σ} (happ : h.isApp = false)
    (hts : G.GoAll (throw e) (G.norms ts) M) : G.Goes (throw e) (G.normArgs (h.apps ts)) M := by
  refine ⟨Comes.normArgs_throw happ hts.gives, ?_⟩
  cases ts with
  | nil =>
      intro L w r hw
      obtain ⟨r', hy, hm⟩ := gives_iff.mp hts.gives w hw
      obtain rfl : (.ok [] w : EStateM.Result _ _ _) = r' := (Yields.const (pure []) w).unique hy
      cases hm
  | cons t ts =>
      rw [Term.apps_of_not_isApp happ (List.cons_ne_nil _ _)]
      exact hts.fires.bind_throw hts.gives

end

end Ground

end TacticEngine
