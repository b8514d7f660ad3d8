/-
# TacticEngine.Proofs.Agreement.Reducing -- what reduction gives, rule by rule.

One rule for each way in which a reduction goes on: if what it goes on with gives an outcome, then so
does the term it started from.  Like terms give like outcomes, so a rule may go on with any term that is
as good as the one it met.
-/
import TacticEngine.Proofs.Agreement.Ground

namespace TacticEngine

variable {β σ α : Type}

namespace Ground

section

variable (G : Ground β σ)

/-- Reductions to weak head normal form. -/
def whnf (t : Term β σ) : Family (Halt β) (World β σ) (Term β σ) :=
  fun l n => Reduce.whnf (G.reduction l) n t

/-- Reductions of an application whose head has been reduced. -/
def whnfApp (h : Term β σ) (as : List (Term β σ)) : Family (Halt β) (World β σ) (Term β σ) :=
  fun l n => Reduce.whnfApp (G.reduction l) n h as

/-- Normalizations. -/
def norm (t : Term β σ) : Family (Halt β) (World β σ) (Term β σ) :=
  fun l n => Reduce.norm (G.reduction l) n t

/-- Normalizations of arguments. -/
def norms (ts : List (Term β σ)) : Family (Halt β) (World β σ) (List (Term β σ)) :=
  fun l n => ts.mapM (Reduce.norm (G.reduction l) n)

/-- Firings of a step, each followed by the reduction of its result. -/
def firing (s : Step σ) (h : Term β σ) (as : List (Term β σ)) :
    Family (Halt β) (World β σ) (Term β σ) := fun l n =>
  Reduce.fire (G.reduction l) (Reduce.norm (G.reduction l) n) s h as >>= fun
    | (true, result) => Reduce.whnf (G.reduction l) n result
    | (false, stuck) => pure stuck

/-- A term is given. -/
abbrev Comes (m : Ideal β (Term β σ)) (F : Family (Halt β) (World β σ) (Term β σ)) : Prop :=
  G.Gives (G.like.Alike 0) m F

/-- A list of terms is given. -/
abbrev ComeAll (m : Ideal β (List (Term β σ)))
    (F : Family (Halt β) (World β σ) (List (Term β σ))) : Prop :=
  G.Gives (G.like.AlikeArgs 0) m F

/-- What a step does to arguments in normal form. -/
def act (s : Step σ) (ts : List (Term β σ)) : Family (Halt β) (World β σ) (Option (Term β σ)) :=
  fun l _ => G.interp l s.body G.env ts

/-- The step does this to the arguments. -/
abbrev Acts (m : Ideal β (Option (Term β σ))) (s : Step σ) (ts : List (Term β σ)) : Prop :=
  G.Gives (Option.Rel (G.like.Alike 0)) m (G.act s ts)

/-- A closed canonical term with admissible native values. -/
abbrev Good (t : Term β σ) : Prop := G.like.Alike 0 t t

/-- Good terms. -/
abbrev GoodArgs (ts : List (Term β σ)) : Prop := G.like.AlikeArgs 0 ts ts

/-- The step that a head stands for. -/
def stepOf : Term β σ → Option (Step σ)
  | .const c => G.steps.lookup c
  | .native s => some s
  | _ => none

end

variable {G : Ground β σ} (hG : G.Lawful)

theorem stepOf_reduction (l : Nat) (t : Term β σ) : Reduce.stepOf (G.reduction l) t = G.stepOf t := by
  cases t <;> rfl

/-! ## Like terms -/

section Like

include hG

theorem Lawful.reduction_like (l : Nat) :
    Reduce.Setting.Like G.tie G.like (G.reduction l) (G.reduction 0) G.interp where
  flags := rfl
  lookup c _ := by
    show Option.Rel G.like.step (G.steps.lookup c) (G.steps.lookup c)
    cases hc : G.steps.lookup c with
    | none => exact .none
    | some s => exact .some (hG.lookup hc)
  unfoldable c _ _ := by
    show Option.Rel (G.like.Alike 0) (G.env.unfoldable c) (G.env.unfoldable c)
    cases hc : G.env.unfoldable c with
    | none => exact .none
    | some t => exact .some (hG.unfoldable hc)
  interp := hG.interp l

theorem Lawful.alikeAt (l n : Nat) :
    Reduce.AlikeAt G.tie G.like (G.reduction l) (G.reduction 0) G.interp n :=
  Reduce.alikeAt hG.fair hG.arity (hG.reduction_like l) n

theorem Lawful.like_trans {t u v : Term β σ} (h : G.like.Alike 0 t u) (h' : G.like.Alike 0 u v) :
    G.like.Alike 0 t v := h.trans hG.trans h'

theorem Lawful.like_symm {t u : Term β σ} (h : G.like.Alike 0 t u) : G.like.Alike 0 u t :=
  h.symm hG.symm

theorem Lawful.good_right {t u : Term β σ} (h : G.like.Alike 0 t u) : G.Good u :=
  hG.like_trans (hG.like_symm h) h

theorem Lawful.good_left {t u : Term β σ} (h : G.like.Alike 0 t u) : G.Good t :=
  hG.like_trans h (hG.like_symm h)

theorem Lawful.goodArgs_right {ts us : List (Term β σ)} (h : G.like.AlikeArgs 0 ts us) :
    G.GoodArgs us := (h.symm hG.symm).trans hG.trans h

variable {m : Ideal β (Term β σ)}

theorem Comes.congr {F F' : Family (Halt β) (World β σ) (Term β σ)} (h : G.Comes m F)
    (hF : ∀ l n, G.tie.Follows (G.like.Alike 0) (F l n) F') : G.Comes m F' :=
  Gives.congr (V := G.like.Alike 0) (U := G.like.Alike 0) hG.issue_trans
    (fun _ _ _ => hG.like_trans) h hF

theorem Comes.congr_whnf {t u : Term β σ} (h : G.Comes m (G.whnf t)) (htu : G.like.Alike 0 t u) :
    G.Comes m (G.whnf u) :=
  h.congr hG fun l n => (hG.alikeAt l n).whnf htu

theorem Comes.congr_whnfApp {h h' : Term β σ} {as as' : List (Term β σ)}
    (hm : G.Comes m (G.whnfApp h as)) (hh : G.like.Alike 0 h h') (has : G.like.AlikeArgs 0 as as') :
    G.Comes m (G.whnfApp h' as') :=
  hm.congr hG fun l n => (hG.alikeAt l n).whnfApp hh has

theorem Comes.congr_norm {t u : Term β σ} (h : G.Comes m (G.norm t)) (htu : G.like.Alike 0 t u) :
    G.Comes m (G.norm u) :=
  h.congr hG fun l n => (hG.alikeAt l n).norm htu

theorem ComeAll.congr_norms {ts us : List (Term β σ)} {m : Ideal β (List (Term β σ))}
    (h : G.ComeAll m (G.norms ts)) (htu : G.like.AlikeArgs 0 ts us) : G.ComeAll m (G.norms us) := by
  have hnorms (l n : Nat) : G.tie.Follows (G.like.AlikeArgs 0)
      (ts.mapM (Reduce.norm (G.reduction l) n)) (G.norms us) :=
    (Tie.Follows.mapM (fun _ _ h => (hG.alikeAt l n).norm h)
      (Term.alikeArgs_iff_forall₂.mp htu)).imp fun _ _ => Term.alikeArgs_iff_forall₂.mpr
  exact Gives.congr (V := G.like.AlikeArgs 0) (U := G.like.AlikeArgs 0) hG.issue_trans
    (fun _ _ _ h h' => h.trans hG.trans h') h hnorms

/-- An outcome may be replaced by a like one. -/
theorem Comes.of_like {t u : Term β σ} {F : Family (Halt β) (World β σ) (Term β σ)}
    (h : G.Comes (pure u) F) (htu : G.like.Alike 0 t u) : G.Comes (pure t) F := by
  refine gives_iff.mpr fun w hw => ?_
  obtain ⟨r, hy, hm⟩ := gives_iff.mp h w hw
  refine ⟨r, hy, ?_⟩
  cases hm with
  | ok hu hw' => exact .ok (hG.like_trans htu hu) hw'
  | escape he => exact .escape he

/-- The step that a like head stands for. -/
theorem exists_stepOf {h h' : Term β σ} {s : Step σ} (hs : G.stepOf h = some s)
    (hh : G.like.Alike 0 h h') : ∃ s', G.stepOf h' = some s' ∧ G.like.step s s' := by
  have hrel := Reduce.stepOf_alike (hG.reduction_like 0) hh
  rw [stepOf_reduction, stepOf_reduction, hs] at hrel
  generalize G.stepOf h' = x at hrel
  cases hrel with
  | some hss => exact ⟨_, rfl, hss⟩

/-- What a step does to arguments, a like one does to like arguments. -/
theorem Acts.congr {s s' : Step σ} {ts us : List (Term β σ)} {m : Ideal β (Option (Term β σ))}
    (h : G.Acts m s ts) (hs : G.like.step s s') (htu : G.like.AlikeArgs 0 ts us) :
    G.Acts m s' us := by
  have htrans (a b c : Option (Term β σ)) (hab : Option.Rel (G.like.Alike 0) a b)
      (hbc : Option.Rel (G.like.Alike 0) b c) : Option.Rel (G.like.Alike 0) a c := by
    cases hab with
    | none => exact hbc
    | some hab =>
        cases hbc with
        | some hbc => exact .some (hG.like_trans hab hbc)
  exact Gives.congr (V := Option.Rel (G.like.Alike 0)) (U := Option.Rel (G.like.Alike 0))
    hG.issue_trans htrans h fun l _ => hG.interp l hs htu

/-- What a step does once it does in every world. -/
theorem Lawful.acts_of_ok {l : Nat} {s : Step σ} {ts : List (Term β σ)} {w w' : World β σ}
    {r : Option (Term β σ)} (hs : G.like.step s s) (hts : G.GoodArgs ts) (hw : G.world w)
    (hr : G.interp l s.body G.env ts w = .ok r w') : G.Acts (pure r) s ts := by
  refine gives_iff.mpr fun w₁ hw₁ => ?_
  rcases hG.interp l hs hts w w₁ ⟨hw, hw₁⟩ with ⟨e, w₂, he, -⟩ | ⟨r', hy, hm⟩
  · rw [hr] at he
    cases he
  · refine ⟨r', hy, ?_⟩
    rw [hr] at hm
    cases hm with
    | ok ha hw₂ => exact .ok ha hw₂.2
    | escape he => exact he.elim

theorem Lawful.acts_of_issue {l : Nat} {s : Step σ} {ts : List (Term β σ)} {w w' : World β σ}
    {e : Issue β} (hs : G.like.step s s) (hts : G.GoodArgs ts) (hw : G.world w)
    (hr : G.interp l s.body G.env ts w = .error (.issue e) w') : G.Acts (throw (.issue e)) s ts := by
  refine gives_iff.mpr fun w₁ hw₁ => ?_
  rcases hG.interp l hs hts w w₁ ⟨hw, hw₁⟩ with ⟨e', w₂, he, hmute⟩ | ⟨r', hy, hm⟩
  · rw [hr] at he
    cases he
    cases hmute
  · refine ⟨r', hy, ?_⟩
    rw [hr] at hm
    cases hm with
    | error ha hw₂ => exact .error ha hw₂.2
    | escape he => exact he.elim

end Like

/-! ## More and more fuel -/

section Lasting

include hG

theorem Lawful.lasts_alikeAt (l n : Nat) :
    Reduce.AlikeAt (Tie.same β σ) (Likeness.equal β σ) (G.reduction l) (G.reduction 0) G.interp n := by
  refine Reduce.alikeAt fair_same keepsArity_equal ?_ n
  refine ⟨rfl, fun c _ => rel_self (fun _ => rfl) _,
    fun c _ _ => rel_self (Term.alike_equal 0) _, ?_⟩
  rintro s _ ts ts' rfl hts
  obtain rfl := hts.eq Likeness.equal_strict
  exact (hG.lasts l s.body ts).imp fun a b (hab : a = b) => hab ▸ rel_self (Term.alike_equal 0) a

theorem Lawful.lasts_whnf (l n : Nat) (t : Term β σ) :
    Lasts (Reduce.whnf (G.reduction l) n t) (G.whnf t) :=
  ((hG.lasts_alikeAt l n).whnf (Term.alike_equal 0 t)).imp
    fun _ _ h => h.eq Likeness.equal_strict

theorem Lawful.lasts_norm (l n : Nat) (t : Term β σ) :
    Lasts (Reduce.norm (G.reduction l) n t) (G.norm t) :=
  ((hG.lasts_alikeAt l n).norm (Term.alike_equal 0 t)).imp
    fun _ _ h => h.eq Likeness.equal_strict

theorem Lawful.lasts_norms (l n : Nat) (ts : List (Term β σ)) :
    Lasts (ts.mapM (Reduce.norm (G.reduction l) n)) (G.norms ts) := by
  have hnorm (t u : Term β σ) (htu : t = u) : (Tie.same β σ).Follows (fun a b => a = b)
      (Reduce.norm (G.reduction l) n t) (G.norm u) := by
    subst htu
    exact hG.lasts_norm l n t
  have hsame : List.Forall₂ (fun t u => t = u) ts ts := List.forall₂_same.mpr fun _ _ => rfl
  exact (Tie.Follows.mapM hnorm hsame).imp fun _ _ h => List.forall₂_eq_eq_eq ▸ h

end Lasting

/-! ## Heads -/

section Heads

variable {m : Ideal β (Term β σ)}

/-- Reduction leaves the term alone, without doing anything else. -/
def Still (G : Ground β σ) (t : Term β σ) : Prop :=
  ∀ l n, Reduce.whnf (G.reduction l) (n + 2) t = pure t

theorem Still.yields {t : Term β σ} (ht : G.Still t) (w : World β σ) :
    Yields (G.whnf t) w (.ok t w) :=
  (Yields.const (pure t) w).shift 2 0 fun l n => by rw [whnf, ht l n]

theorem Comes.annotated {e : Term β σ} (h : G.Comes m (G.whnf e)) (n : Annotation) :
    G.Comes m (G.whnf (.annotated e n)) :=
  Tie.Follows.of_succ (fun l k => by rw [whnf, Reduce.whnf, whnf]) h

theorem Comes.ascribed {e : Term β σ} (h : G.Comes m (G.whnf e)) (t : Term β σ) :
    G.Comes m (G.whnf (.ascribed e t)) :=
  Tie.Follows.of_succ (fun l k => by rw [whnf, Reduce.whnf]; rfl) h

theorem Comes.reify {e : Term β σ} (h : G.Comes m (G.whnf e)) : G.Comes m (G.whnf (.reify e)) :=
  Tie.Follows.of_succ (fun l k => by rw [whnf, Reduce.whnf]; rfl) h

theorem bodyOf?_of_some {c : String} {body : Term β σ} (hc : G.steps.lookup c = none)
    (hbody : G.env.unfoldable c = some body) {l : Nat} :
    Reduce.bodyOf? (G.reduction l) c = some body := by
  simp only [Reduce.bodyOf?, reduction, Flags.tactic, hc, Option.isNone_none, Bool.and_self,
    if_true, hbody]

theorem bodyOf?_of_none {c : String} (hbody : G.env.unfoldable c = none) {l : Nat} :
    Reduce.bodyOf? (G.reduction l) c = none := by
  simp only [Reduce.bodyOf?, reduction, hbody, ite_self]

theorem Comes.unfold {c : String} {body : Term β σ} (hc : G.steps.lookup c = none)
    (hbody : G.env.unfoldable c = some body) (h : G.Comes m (G.whnf body)) :
    G.Comes m (G.whnf (.const c)) := by
  refine Tie.Follows.of_succ (fun l k => ?_) h
  rw [whnf, Reduce.whnf, stepOf_reduction, stepOf, hc, bodyOf?_of_some hc hbody, whnf]

theorem still_const {c : String} (hc : G.steps.lookup c = none)
    (hbody : G.env.unfoldable c = none) : G.Still (.const c) := by
  intro l n
  rw [Reduce.whnf, stepOf_reduction, stepOf, hc, bodyOf?_of_none hbody]

/-- A step that takes arguments stays as it is without them. -/
theorem still_step {t : Term β σ} {s : Step σ} (ht : G.stepOf t = some s) (hs : s.arity ≠ 0) :
    G.Still t := by
  intro l n
  have hfire : Reduce.fireConstant (G.reduction l) (n + 1) s t = pure t := by
    rw [Reduce.fireConstant, if_pos hs]
  cases t with
  | const | native =>
      rw [Reduce.whnf, stepOf_reduction, ht]
      exact hfire
  | _ => cases ht

theorem still_lam (n : Nat) (b : Term β σ) : G.Still (.lam n b) := by
  intro l k
  rw [Reduce.whnf]
  all_goals simp

/-- Terms that mean themselves. -/
def isAtom : Term β σ → Bool
  | .ctor _ | .free _ | .uvar _ | .lit _ | .blob _ => true
  | _ => false

theorem still_atom {t : Term β σ} (ht : isAtom t = true) : G.Still t := by
  intro l n
  cases t with
  | ctor | free | uvar | lit | blob =>
      rw [Reduce.whnf]
      all_goals simp
  | _ => cases ht

/-- A case distinction goes on with the branch that is taken. -/
theorem Comes.case_some (hG : G.Lawful) {s v : Term β σ} {brs : List (Branch (Term β σ))}
    {b? : Option (Term β σ)} (hs : G.Comes (pure v) (G.whnf s)) (hbrs : G.like.AlikeBranches 0 brs brs)
    (hsel : Reduce.select v brs = some b?) (hb : ∀ b, b? = some b → G.Comes m (G.whnf b)) :
    G.Comes m (G.whnf (.case s brs)) := by
  refine Tie.Follows.succ ?_
  simp only [whnf, Reduce.whnf]
  refine hs.bind_pure fun v' hv => ?_
  have hlike := Reduce.select_alike hv hbrs
  rw [hsel] at hlike
  generalize Reduce.select v' brs = x at hlike
  cases hlike with
  | some hlike =>
      refine Gives.bounded fun b' hb' => ?_
      subst hb'
      cases hlike with
      | some hbb => exact (hb _ rfl).congr_whnf hG hbb

theorem Comes.case_none {s v : Term β σ} {brs : List (Branch (Term β σ))}
    (hs : G.Comes (pure v) (G.whnf s)) (hbrs : G.like.AlikeBranches 0 brs brs)
    (hsel : Reduce.select v brs = none) : G.Comes (pure (.case v brs)) (G.whnf (.case s brs)) := by
  refine Tie.Follows.succ ?_
  simp only [whnf, Reduce.whnf]
  refine hs.bind_pure fun v' hv => ?_
  have hlike := Reduce.select_alike hv hbrs
  rw [hsel] at hlike
  generalize Reduce.select v' brs = x at hlike
  cases hlike with
  | none => exact .pure (.case hv hbrs)

theorem Comes.case_throw {s : Term β σ} {brs : List (Branch (Term β σ))} {e : Halt β}
    (hs : G.Comes (throw e) (G.whnf s)) : G.Comes (throw e) (G.whnf (.case s brs)) := by
  refine Tie.Follows.succ ?_
  simp only [whnf, Reduce.whnf]
  exact hs.bind_throw

/-! ## Applications -/

/-- An application goes on with whatever its head is reduced to. -/
theorem Comes.app (hG : G.Lawful) {h u : Term β σ} {as : List (Term β σ)}
    (hh : G.Comes (pure u) (G.whnf h)) (has : G.GoodArgs as) (hm : G.Comes m (G.whnfApp u as)) :
    G.Comes m (G.whnf (.app h as)) :=
  Tie.Follows.of_succ (F := fun l n => G.whnf h l n >>= fun u => G.whnfApp u as l n)
    (fun l n => by rw [whnf, Reduce.whnf]; rfl)
    (hh.bind_pure fun _ hu => hm.congr_whnfApp hG hu has)

theorem Comes.app_throw {h : Term β σ} {as : List (Term β σ)} {e : Halt β}
    (hh : G.Comes (throw e) (G.whnf h)) : G.Comes (throw e) (G.whnf (.app h as)) :=
  Tie.Follows.of_succ (F := fun l n => G.whnf h l n >>= fun u => G.whnfApp u as l n)
    (fun l n => by rw [whnf, Reduce.whnf]; rfl) hh.bind_throw

/-- Applying what stays as it is. -/
theorem whnf_app_of_still {h : Term β σ} (hh : G.Still h) (as : List (Term β σ)) (l n : Nat) :
    G.whnf (.app h as) l (n + 3) = G.whnfApp h as l (n + 2) := by
  rw [whnf, Reduce.whnf, hh l n, whnfApp]
  rfl

theorem Comes.app_of_still {h : Term β σ} {as : List (Term β σ)} (hh : G.Still h)
    (hm : G.Comes m (G.whnfApp h as)) : G.Comes m (G.whnf (.app h as)) :=
  Tie.Follows.shift 3 2 (whnf_app_of_still hh as) hm

theorem whnfApp_of_isApp {h : Term β σ} (hh : h.isApp = true) (as : List (Term β σ)) (l n : Nat) :
    G.whnfApp h as l (n + 1) = G.whnf (h.apps as) l n := by
  obtain ⟨f, bs, rfl⟩ := Term.isApp_eq_true_iff.mp hh
  rw [whnfApp, Reduce.whnfApp, whnf]

/-- A lambda with enough arguments goes on with its body. -/
theorem Comes.beta {n : Nat} {b : Term β σ} {as : List (Term β σ)} (hn : n ≤ as.length)
    (hm : ∀ b', b.beta? (as.take n) = some b' → G.Comes m (G.whnf (b'.apps (as.drop n)))) :
    G.Comes m (G.whnfApp (.lam n b) as) := by
  refine Tie.Follows.of_succ (F := fun l k => Act.bounded (b.beta? (as.take n)) >>= fun b' =>
    G.whnf (b'.apps (as.drop n)) l k) (fun l k => ?_) (Gives.bounded hm)
  rw [whnfApp, Reduce.whnfApp, if_pos hn]
  rfl

theorem whnfApp_lam_of_lt {n : Nat} {b : Term β σ} {as : List (Term β σ)} (hn : as.length < n)
    (l k : Nat) : G.whnfApp (.lam n b) as l (k + 1) = pure ((Term.lam n b).apps as) := by
  rw [whnfApp, Reduce.whnfApp, if_neg (Nat.not_le.mpr hn)]

theorem whnfApp_step {h : Term β σ} {s : Step σ} (hs : G.stepOf h = some s) {as : List (Term β σ)}
    (has : s.arity ≤ as.length) (l n : Nat) : G.whnfApp h as l (n + 1) = G.firing s h as l n := by
  cases h with
  | const | native =>
      rw [whnfApp, Reduce.whnfApp, stepOf_reduction, hs]
      · dsimp only
        rw [if_pos has]
        rfl
      all_goals simp
  | _ => cases hs

theorem whnfApp_step_of_lt {h : Term β σ} {s : Step σ} (hs : G.stepOf h = some s)
    {as : List (Term β σ)} (has : as.length < s.arity) (l n : Nat) :
    G.whnfApp h as l (n + 1) = pure (h.apps as) := by
  cases h with
  | const | native =>
      rw [whnfApp, Reduce.whnfApp, stepOf_reduction, hs]
      · dsimp only
        rw [if_neg (Nat.not_le.mpr has)]
      all_goals simp
  | _ => cases hs

/-- What is no function stays the head of its arguments. -/
theorem whnfApp_of_none {h : Term β σ} (happ : h.isApp = false) (hlam : ∀ n b, h ≠ .lam n b)
    (hs : G.stepOf h = none) (as : List (Term β σ)) (l n : Nat) :
    G.whnfApp h as l (n + 1) = pure (h.apps as) := by
  cases h with
  | app => cases happ
  | lam n b => exact absurd rfl (hlam n b)
  | _ =>
      rw [whnfApp, Reduce.whnfApp, stepOf_reduction, hs]
      all_goals simp

/-! ## Firing -/

theorem fireConstant_firing {t : Term β σ} {s : Step σ} (hs : s.arity = 0) {l n : Nat} :
    Reduce.fireConstant (G.reduction l) (n + 1) s t = G.firing s t [] l n := by
  rw [Reduce.fireConstant, if_neg (not_not_intro hs), firing, Reduce.fire]
  simp only [List.take_nil, List.mapM_nil, List.drop_nil, bind_assoc, pure_bind]
  congr 1
  funext _
  congr 1
  funext _
  congr 1
  funext r
  cases r with
  | none => simp only [pure_bind, List.append_nil, Term.apps_nil]
  | some u => rfl

/-- Firing a step that takes no arguments. -/
theorem whnf_firing {t : Term β σ} {s : Step σ} (ht : G.stepOf t = some s) (hs : s.arity = 0)
    (l n : Nat) : G.whnf t l (n + 2) = G.firing s t [] l n := by
  cases t with
  | const | native =>
      rw [whnf, Reduce.whnf, stepOf_reduction, ht]
      exact fireConstant_firing hs
  | _ => cases ht

/-- What a firing does, with what its parts do. -/
theorem firing_eq (s : Step σ) (h : Term β σ) (as : List (Term β σ)) (l n : Nat) :
    G.firing s h as l n = G.norms (as.take s.arity) l n >>= fun now =>
      Act.debug .trace (fun _ => some ("firing " ++ s.name ++ " on " ++ toString now.length
        ++ " arguments")) >>= fun _ =>
      Act.note (.fired s now) >>= fun _ =>
      G.act s now l n >>= fun
        | some u => G.whnf (u.apps (as.drop s.arity)) l n
        | none => pure (h.apps (now ++ as.drop s.arity)) := by
  rw [firing, Reduce.fire]
  simp only [bind_assoc]
  congr 1
  funext now
  congr 1
  funext _
  congr 1
  funext _
  congr 1
  funext r
  cases r <;> rfl

/-- A firing goes on with what the step does to the normalized arguments. -/
theorem Comes.fire (hG : G.Lawful) {s : Step σ} {h : Term β σ} {as now : List (Term β σ)}
    (hs : G.like.step s s) (hnow : G.ComeAll (pure now) (G.norms (as.take s.arity)))
    (hm : ∀ now', G.like.AlikeArgs 0 now now' → G.Comes m fun l n => G.act s now' l n >>= fun
      | some u => G.whnf (u.apps (as.drop s.arity)) l n
      | none => pure (h.apps (now' ++ as.drop s.arity))) : G.Comes m (G.firing s h as) := by
  rw [show G.firing s h as = _ from funext fun l => funext fun n => firing_eq s h as l n]
  refine hnow.bind_pure fun now' hlike => ?_
  refine (hG.gives_debug _ _).bind_pure fun _ _ => ?_
  exact (hG.gives_note hs (hG.goodArgs_right hlike)).bind_pure fun _ _ => hm now' hlike

theorem Comes.fire_some (hG : G.Lawful) {s : Step σ} {h u : Term β σ} {as now : List (Term β σ)}
    (hs : G.like.step s s) (has : G.GoodArgs as)
    (hnow : G.ComeAll (pure now) (G.norms (as.take s.arity)))
    (hact : G.Acts (pure (some u)) s now) (hm : G.Comes m (G.whnf (u.apps (as.drop s.arity)))) :
    G.Comes m (G.firing s h as) := by
  refine Comes.fire hG hs hnow fun now' hlike => ?_
  refine (hact.congr hG hs hlike).bind_pure fun r hr => ?_
  cases hr with
  | some hu => exact hm.congr_whnf hG (hu.apps (has.drop _))

theorem Comes.fire_none (hG : G.Lawful) {s : Step σ} {h : Term β σ} {as now : List (Term β σ)}
    (hs : G.like.step s s) (hh : G.Good h) (has : G.GoodArgs as)
    (hnow : G.ComeAll (pure now) (G.norms (as.take s.arity))) (hact : G.Acts (pure none) s now) :
    G.Comes (pure (h.apps (now ++ as.drop s.arity))) (G.firing s h as) := by
  refine Comes.fire hG hs hnow fun now' hlike => ?_
  refine (hact.congr hG hs hlike).bind_pure fun r hr => ?_
  cases hr with
  | none => exact .pure (hh.apps (hlike.append (has.drop _)))

theorem Comes.fire_issue (hG : G.Lawful) {s : Step σ} {h : Term β σ} {as now : List (Term β σ)}
    {e : Halt β} (hs : G.like.step s s)
    (hnow : G.ComeAll (pure now) (G.norms (as.take s.arity))) (hact : G.Acts (throw e) s now) :
    G.Comes (throw e) (G.firing s h as) :=
  Comes.fire hG hs hnow fun _ hlike => (hact.congr hG hs hlike).bind_throw

theorem Comes.fire_throw {s : Step σ} {h : Term β σ} {as : List (Term β σ)} {e : Halt β}
    (hnow : G.ComeAll (throw e) (G.norms (as.take s.arity))) :
    G.Comes (throw e) (G.firing s h as) := by
  rw [show G.firing s h as = _ from funext fun l => funext fun n => firing_eq s h as l n]
  exact hnow.bind_throw

/-! ## Normalization -/

theorem norms_nil : G.ComeAll (pure []) (G.norms []) := .pure .nil

theorem norms_cons_eq (t : Term β σ) (ts : List (Term β σ)) (l n : Nat) :
    G.norms (t :: ts) l n = G.norm t l n >>= fun u => G.norms ts l n >>= fun us => pure (u :: us) := by
  rw [norms, List.mapM_cons]
  rfl

theorem ComeAll.cons {t u : Term β σ} {ts us : List (Term β σ)} (h : G.Comes (pure u) (G.norm t))
    (hs : G.ComeAll (pure us) (G.norms ts)) : G.ComeAll (pure (u :: us)) (G.norms (t :: ts)) := by
  rw [show G.norms (t :: ts) = _ from funext fun l => funext fun n => norms_cons_eq t ts l n]
  exact h.bind_pure fun u' hu => hs.bind_pure fun us' hus => .pure (.cons hu hus)

theorem ComeAll.cons_throw {t u : Term β σ} {ts : List (Term β σ)} {e : Halt β}
    (h : G.Comes (pure u) (G.norm t)) (hs : G.ComeAll (throw e) (G.norms ts)) :
    G.ComeAll (throw e) (G.norms (t :: ts)) := by
  rw [show G.norms (t :: ts) = _ from funext fun l => funext fun n => norms_cons_eq t ts l n]
  exact h.bind_pure fun u' _ => hs.bind_throw

theorem ComeAll.throw_cons {t : Term β σ} {ts : List (Term β σ)} {e : Halt β}
    (h : G.Comes (throw e) (G.norm t)) : G.ComeAll (throw e) (G.norms (t :: ts)) := by
  rw [show G.norms (t :: ts) = _ from funext fun l => funext fun n => norms_cons_eq t ts l n]
  exact h.bind_throw

theorem norms_append_eq (ts ts' : List (Term β σ)) (l n : Nat) :
    G.norms (ts ++ ts') l n = G.norms ts l n >>= fun us =>
      G.norms ts' l n >>= fun us' => pure (us ++ us') := by
  rw [norms, List.mapM_append]
  rfl

/-- Arguments in normal form in front of others. -/
theorem ComeAll.append {ts us ts' us' : List (Term β σ)} (ht : G.ComeAll (pure us) (G.norms ts))
    (ht' : G.ComeAll (pure us') (G.norms ts')) :
    G.ComeAll (pure (us ++ us')) (G.norms (ts ++ ts')) := by
  rw [show G.norms (ts ++ ts') = _ from funext fun l => funext fun n => norms_append_eq ts ts' l n]
  exact ht.bind_pure fun _ hu => ht'.bind_pure fun _ hu' => .pure (hu.append hu')

theorem ComeAll.throw_append {ts ts' : List (Term β σ)} {e : Halt β}
    (ht : G.ComeAll (throw e) (G.norms ts)) : G.ComeAll (throw e) (G.norms (ts ++ ts')) := by
  rw [show G.norms (ts ++ ts') = _ from funext fun l => funext fun n => norms_append_eq ts ts' l n]
  exact ht.bind_throw

theorem ComeAll.append_throw {ts us ts' : List (Term β σ)} {e : Halt β}
    (ht : G.ComeAll (pure us) (G.norms ts)) (ht' : G.ComeAll (throw e) (G.norms ts')) :
    G.ComeAll (throw e) (G.norms (ts ++ ts')) := by
  rw [show G.norms (ts ++ ts') = _ from funext fun l => funext fun n => norms_append_eq ts ts' l n]
  exact ht.bind_pure fun _ _ => ht'.bind_throw

/-- What is left once the head has been settled: the arguments. -/
def normArgs (G : Ground β σ) (t : Term β σ) : Family (Halt β) (World β σ) (Term β σ) := fun l n =>
  match t with
  | .app h as => G.norms as l n >>= fun ts => pure (h.apps ts)
  | _ => pure t

theorem norm_succ (t : Term β σ) (l n : Nat) :
    G.norm t l (n + 1) = G.whnf t l n >>= fun u => G.normArgs u l n := by
  rw [norm, Reduce.norm]
  rfl

theorem Comes.norm {t u : Term β σ} (ht : G.Comes (pure u) (G.whnf t))
    (hm : ∀ u', G.like.Alike 0 u u' → G.Comes m (G.normArgs u')) : G.Comes m (G.norm t) :=
  Tie.Follows.of_succ (F := fun l n => G.whnf t l n >>= fun u => G.normArgs u l n)
    (fun l n => norm_succ t l n) (ht.bind_pure hm)

theorem Comes.norm_throw {t : Term β σ} {e : Halt β} (ht : G.Comes (throw e) (G.whnf t)) :
    G.Comes (throw e) (G.norm t) :=
  Tie.Follows.of_succ (F := fun l n => G.whnf t l n >>= fun u => G.normArgs u l n)
    (fun l n => norm_succ t l n) ht.bind_throw

/-- The arguments of a head that is no application. -/
theorem Comes.normArgs {h : Term β σ} {ts us : List (Term β σ)} (happ : h.isApp = false)
    (hh : G.Good h) (hts : G.ComeAll (pure us) (G.norms ts)) :
    G.Comes (pure (h.apps us)) (G.normArgs (h.apps ts)) := by
  cases ts with
  | nil =>
      rw [Term.apps_nil]
      have hpure : G.normArgs h = fun _ _ => pure h := by
        cases h with
        | app => cases happ
        | _ => rfl
      rw [hpure]
      refine gives_iff.mpr fun w hw => ⟨_, Yields.const (pure h) w, ?_⟩
      obtain ⟨r, hy, hm⟩ := gives_iff.mp hts w hw
      obtain rfl : (.ok [] w : EStateM.Result _ _ _) = r := (Yields.const (pure []) w).unique hy
      cases hm with
      | ok hus _ =>
          obtain rfl := hus.eq_nil_iff.mpr rfl
          rw [Term.apps_nil]
          exact .ok hh hw
  | cons t ts =>
      rw [Term.apps_of_not_isApp happ (List.cons_ne_nil _ _)]
      exact hts.bind_pure fun _ hus => .pure (hh.apps hus)

theorem Comes.normArgs_throw {h : Term β σ} {ts : List (Term β σ)} {e : Halt β}
    (happ : h.isApp = false) (hts : G.ComeAll (throw e) (G.norms ts)) :
    G.Comes (throw e) (G.normArgs (h.apps ts)) := by
  cases ts with
  | nil =>
      refine gives_iff.mpr fun w hw => ?_
      obtain ⟨r, hy, hm⟩ := gives_iff.mp hts w hw
      obtain rfl : (.ok [] w : EStateM.Result _ _ _) = r := (Yields.const (pure []) w).unique hy
      cases hm
  | cons t ts =>
      rw [Term.apps_of_not_isApp happ (List.cons_ne_nil _ _)]
      exact hts.bind_throw

theorem Comes.congr_normArgs (hG : G.Lawful) {u u' : Term β σ} (h : G.Comes m (G.normArgs u))
    (hu : G.like.Alike 0 u u') : G.Comes m (G.normArgs u') := by
  refine h.congr hG fun l n => ?_
  cases hu with
  | app hc hh has =>
      refine (Tie.Follows.mapM (fun _ _ h => (hG.alikeAt l n).norm h)
        (Term.alikeArgs_iff_forall₂.mp has)).bind fun us us' hus => ?_
      exact .pure (hh.apps (Term.alikeArgs_iff_forall₂.mpr hus))
  | _ => exact .pure (by constructor <;> assumption)

end Heads

end Ground

end TacticEngine
