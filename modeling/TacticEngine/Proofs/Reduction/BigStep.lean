/-
# TacticEngine.Proofs.Reduction.BigStep -- reduction as a relation.

The rules by which a term is reduced, apart from the fuel and the world that the reducer carries along.
`ToWhnf`, `ToApp` and `ToNorm` relate what `whnf`, `whnfApp` and `norm` are given to what they end with,
be it a term or a reason to break off.  What steps do is a relation too, a `Deeds`, so that the rules can
be read with any reading of "this step may do that on these arguments".

The facts everything else rests on: a run that ends by itself ends as the rules say, if a step is taken to
do whatever it does in some world (`toNorm_of_ending`); and what the rules say is reached by the reducer, if
steps do what they do in every world (`ToNorm.reaches`).
-/
import TacticEngine.Proofs.Likeness.Reduction
import TacticEngine.Proofs.Run.Acts
import TacticEngine.Proofs.Run.Outcome

namespace TacticEngine

variable {β σ : Type}

/-- Nothing is ever done at the head of such a term. -/
def Term.isRigid : Term β σ → Bool
  | .ctor _ | .bvar _ | .free _ | .uvar _ | .lit _ | .lam .. | .blob _ => true
  | _ => false

/-- Whether a term is a lambda. -/
def Term.isLam : Term β σ → Bool
  | .lam .. => true
  | _ => false

namespace Reduce

/-- What steps do on which arguments. -/
abbrev Deeds (β σ : Type) :=
  Step σ → List (Term β σ) → Except (Halt β) (Option (Term β σ)) → Prop

/-! ## The rules -/

section

variable (cfg : Setting β σ) (acts : Deeds β σ)

mutual
/-- How the reduction of a term to weak head normal form ends. -/
inductive ToWhnf : Term β σ → Except (Halt β) (Term β σ) → Prop where
  | annotated {t n r} : ToWhnf t r → ToWhnf (.annotated t n) r
  | ascribed {t s r} : cfg.flags.unascribe = true → ToWhnf t r → ToWhnf (.ascribed t s) r
  | ascribed_kept {t s} : cfg.flags.unascribe = false →
      ToWhnf (.ascribed t s) (.ok (.ascribed t s))
  | reify {t r} : cfg.flags.reify = true → ToWhnf t r → ToWhnf (.reify t) r
  | reify_kept {t} : cfg.flags.reify = false → ToWhnf (.reify t) (.ok (.reify t))
  | unfold {c b r} : bodyOf? cfg c = some b → ToWhnf b r → ToWhnf (.const c) r
  | const {c r} : bodyOf? cfg c = none → ToApp (.const c) [] r → ToWhnf (.const c) r
  | native {s r} : ToApp (.native s) [] r → ToWhnf (.native s) r
  | rigid {t} : t.isRigid = true → ToWhnf t (.ok t)
  | app {h h' as r} : ToWhnf h (.ok h') → ToApp h' as r → ToWhnf (.app h as) r
  | app_error {h as e} : ToWhnf h (.error e) → ToWhnf (.app h as) (.error e)
  | case {s s' brs b r} : ToWhnf s (.ok s') → select s' brs = some (some b) → ToWhnf b r →
      ToWhnf (.case s brs) r
  | case_overflow {s s' brs} : ToWhnf s (.ok s') → select s' brs = some none →
      ToWhnf (.case s brs) (.error .overflow)
  | case_stuck {s s' brs} : ToWhnf s (.ok s') → select s' brs = none →
      ToWhnf (.case s brs) (.ok (.case s' brs))
  | case_error {s brs e} : ToWhnf s (.error e) → ToWhnf (.case s brs) (.error e)

/-- How the reduction of an application ends whose head is in weak head normal form.  A constant or a
native step by itself counts as applied to nothing. -/
inductive ToApp : Term β σ → List (Term β σ) → Except (Halt β) (Term β σ) → Prop where
  | merge {h bs as r} : ToWhnf (.app h (bs ++ as)) r → ToApp (.app h bs) as r
  | beta {n b b' as r} : n ≤ as.length → b.beta? (as.take n) = some b' →
      ToWhnf (b'.apps (as.drop n)) r → ToApp (.lam n b) as r
  | beta_overflow {n b as} : n ≤ as.length → b.beta? (as.take n) = none →
      ToApp (.lam n b) as (.error .overflow)
  | short {n b as} : as.length < n → ToApp (.lam n b) as (.ok ((Term.lam n b).apps as))
  | inert {h as} : h.isApp = false → h.isLam = false → stepOf cfg h = none →
      ToApp h as (.ok (h.apps as))
  | waiting {h s as} : stepOf cfg h = some s → as.length < s.arity →
      ToApp h as (.ok (h.apps as))
  | fired {h s as now u r} : stepOf cfg h = some s → s.arity ≤ as.length →
      ToNorms (as.take s.arity) (.ok now) → acts s now (.ok (some u)) →
      ToWhnf (u.apps (as.drop s.arity)) r → ToApp h as r
  | declined {h s as now} : stepOf cfg h = some s → s.arity ≤ as.length →
      ToNorms (as.take s.arity) (.ok now) → acts s now (.ok none) →
      ToApp h as (.ok (h.apps (now ++ as.drop s.arity)))
  | failed {h s as now e} : stepOf cfg h = some s → s.arity ≤ as.length →
      ToNorms (as.take s.arity) (.ok now) → acts s now (.error e) → ToApp h as (.error e)
  | args_error {h s as e} : stepOf cfg h = some s → s.arity ≤ as.length →
      ToNorms (as.take s.arity) (.error e) → ToApp h as (.error e)

/-- How the normalization of a term ends. -/
inductive ToNorm : Term β σ → Except (Halt β) (Term β σ) → Prop where
  | hnf {t u} : cfg.flags.hnf = true → ToWhnf t (.ok u) → ToNorm t (.ok u)
  | args {t h as bs} : cfg.flags.hnf = false → ToWhnf t (.ok (.app h as)) →
      ToNorms as (.ok bs) → ToNorm t (.ok (h.apps bs))
  | args_error {t h as e} : cfg.flags.hnf = false → ToWhnf t (.ok (.app h as)) →
      ToNorms as (.error e) → ToNorm t (.error e)
  | head {t u} : cfg.flags.hnf = false → ToWhnf t (.ok u) → u.isApp = false → ToNorm t (.ok u)
  | error {t e} : ToWhnf t (.error e) → ToNorm t (.error e)

/-- How the normalization of terms, one after the other, ends. -/
inductive ToNorms : List (Term β σ) → Except (Halt β) (List (Term β σ)) → Prop where
  | nil : ToNorms [] (.ok [])
  | cons {t u ts us} : ToNorm t (.ok u) → ToNorms ts (.ok us) → ToNorms (t :: ts) (.ok (u :: us))
  | head_error {t ts e} : ToNorm t (.error e) → ToNorms (t :: ts) (.error e)
  | tail_error {t u ts e} : ToNorm t (.ok u) → ToNorms ts (.error e) →
      ToNorms (t :: ts) (.error e)
end

end

variable {cfg : Setting β σ} {acts : Deeds β σ}

/-! ## The reducer's equations -/

theorem stepOf_eq_none {t : Term β σ} (hc : ∀ c, t ≠ .const c) (hs : ∀ s, t ≠ .native s) :
    stepOf cfg t = none := by
  unfold stepOf
  cases t <;> simp_all

/-- The head of a step's application is neither an application nor a lambda. -/
theorem named_of_stepOf {t : Term β σ} {s : Step σ} (h : stepOf cfg t = some s) :
    (∃ c, t = .const c) ∨ ∃ s, t = .native s := by
  by_contra hne
  rw [not_or, not_exists, not_exists] at hne
  rw [stepOf_eq_none hne.1 hne.2] at h
  cases h

theorem whnfApp_eq_whnfStep {h : Term β σ} (happ : h.isApp = false) (hlam : h.isLam = false)
    (n : Nat) (as : List (Term β σ)) : whnfApp cfg (n + 1) h as = whnfStep cfg n h as := by
  cases h with
  | app => cases happ
  | lam => cases hlam
  | _ => rfl

/-- What is done after a step fired or declined. -/
def resume (cfg : Setting β σ) (fuel : Nat) : Bool × Term β σ → Act β σ (Term β σ)
  | (true, u) => whnf cfg fuel u
  | (false, u) => pure u

/-- What normalizing does to a weak head normal form, unless only the head is wanted. -/
def normArgs (cfg : Setting β σ) (fuel : Nat) : Term β σ → Act β σ (Term β σ)
  | .app h as => do return h.apps (← as.mapM (norm cfg fuel))
  | t => pure t

theorem norm_of_hnf (hf : cfg.flags.hnf = true) (n : Nat) (t : Term β σ) :
    norm cfg (n + 1) t = whnf cfg n t := by
  simp [norm, hf]

theorem norm_eq_bind (hf : cfg.flags.hnf = false) (n : Nat) (t : Term β σ) :
    norm cfg (n + 1) t = whnf cfg n t >>= normArgs cfg n := by
  simp only [norm, hf, Bool.false_eq_true, ↓reduceIte]
  refine congrArg _ (funext fun u => ?_)
  cases u <;> rfl

theorem normArgs_of_not_isApp {t : Term β σ} (h : t.isApp = false) (n : Nat) :
    normArgs cfg n t = pure t := by
  cases t <;> first | rfl | cases h

theorem whnfApp_of_stepOf {h : Term β σ} {s : Step σ} (hs : stepOf cfg h = some s) (n : Nat)
    (as : List (Term β σ)) : whnfApp cfg (n + 1) h as =
      if s.arity ≤ as.length then fire cfg (norm cfg n) s h as >>= resume cfg n
      else pure (h.apps as) := by
  have happ : h.isApp = false ∧ h.isLam = false := by
    rcases named_of_stepOf hs with ⟨c, rfl⟩ | ⟨s, rfl⟩ <;> exact ⟨rfl, rfl⟩
  rw [whnfApp_eq_whnfStep happ.1 happ.2, whnfStep, hs]
  refine if_congr Iff.rfl (congrArg _ (funext fun p => ?_)) rfl
  obtain ⟨_ | _, u⟩ := p <;> rfl

/-- A step met without arguments is treated like one applied to none. -/
theorem fireConstant_eq_whnfApp {t : Term β σ} {s : Step σ} (h : stepOf cfg t = some s) (n : Nat) :
    fireConstant cfg n s t = whnfApp cfg n t [] := by
  cases n with
  | zero => rfl
  | succ n =>
      rw [whnfApp_of_stepOf h]
      simp only [fireConstant, List.length_nil, Nat.le_zero, ne_eq, ite_not, Term.apps_nil, fire,
        List.take_nil, List.drop_nil, List.mapM_nil, List.append_nil, pure_bind, bind_assoc]
      refine if_congr Iff.rfl (congrArg _ (funext fun _ => congrArg _ (funext fun _ => ?_))) rfl
      refine congrArg _ (funext fun u? => ?_)
      cases u? <;> simp [resume]

theorem stepOf_eq_none_of_bodyOf? {c : String} {b : Term β σ} (h : bodyOf? cfg c = some b) :
    stepOf cfg (.const c) = none := by
  unfold bodyOf? at h
  split at h
  case isTrue hd =>
    have hlookup : cfg.steps.lookup c = none := by simp_all
    simp [stepOf, hlookup]
  case isFalse => cases h

theorem bodyOf?_eq_none_of_stepOf {c : String} {s : Step σ}
    (h : stepOf cfg (.const c) = some s) : bodyOf? cfg c = none := by
  cases hb : bodyOf? cfg c with
  | none => rfl
  | some b =>
      rw [stepOf_eq_none_of_bodyOf? hb] at h
      cases h

theorem whnf_of_isRigid {t : Term β σ} (h : t.isRigid = true) (n : Nat) :
    whnf cfg (n + 1) t = pure t := by
  cases t <;> first | rfl | cases h

/-- A constant that is not unfolded is treated like one applied to nothing. -/
theorem whnf_const {c : String} (h : bodyOf? cfg c = none) (n : Nat) :
    whnf cfg (n + 2) (.const c) = whnfApp cfg (n + 1) (.const c) [] := by
  rw [whnf]
  split
  next s hs => exact fireConstant_eq_whnfApp hs (n + 1)
  next hs => rw [h, whnfApp_eq_whnfStep rfl rfl, whnfStep, hs, Term.apps_nil]

theorem whnf_native (s : Step σ) (n : Nat) :
    whnf cfg (n + 2) (.native s) = whnfApp cfg (n + 1) (.native s) [] := by
  rw [whnf]
  split
  next s' hs => exact fireConstant_eq_whnfApp hs (n + 1)
  next hs => rw [whnfApp_eq_whnfStep rfl rfl, whnfStep, hs, Term.apps_nil]

/-! ## What the rules say is reached -/

/-- In every world, steps do what they are taken to do. -/
def Sure (cfg : Setting β σ) (acts : Deeds β σ) : Prop :=
  ∀ s as x, acts s as x → ∀ w, ending (cfg.interp s.body cfg.env as w) = x

theorem fire_reaches (hacts : Sure cfg acts) {h : Term β σ} {s : Step σ} {as now : List (Term β σ)}
    {x : Except (Halt β) (Option (Term β σ))}
    (hnow : Reaches (fun n => (as.take s.arity).mapM (norm cfg n)) (.ok now)) (hx : acts s now x) :
    Reaches (fun n => fire cfg (norm cfg n) s h as) (x.map fun
      | some u => (true, u.apps (as.drop s.arity))
      | none => (false, h.apps (now ++ as.drop s.arity))) := by
  refine hnow.bind (.bind (a := ()) (.const fun w => ?_) (.bind (a := ()) (.const fun w => rfl) ?_))
  · rw [Act.debug_run]
    cases w.debugging <;> rfl
  · have hstep : Reaches (fun _ => cfg.interp s.body cfg.env now) x := .const (hacts s now x hx)
    rcases x with e | _ | u
    · exact hstep.bind_error
    · exact hstep.bind (.pure _)
    · exact hstep.bind (.pure _)

-- By induction on the derivation.  A rule stands for an equation of the reducer, which takes one unit of
-- fuel; a constant or a native step by itself takes another for being applied to nothing.
mutual
theorem ToWhnf.reaches (hacts : Sure cfg acts) : ∀ {t : Term β σ} {r : Except (Halt β) (Term β σ)},
    ToWhnf cfg acts t r → Reaches (fun n => whnf cfg n t) r
  | _, _, .annotated h => (h.reaches hacts).of_succ fun _ => rfl
  | _, _, .ascribed hf h => (h.reaches hacts).of_succ fun _ => by simp [whnf, hf]
  | _, _, .ascribed_kept hf => (Reaches.pure _).of_succ fun _ => by simp [whnf, hf]
  | _, _, .reify hf h => (h.reaches hacts).of_succ fun _ => by simp [whnf, hf]
  | _, _, .reify_kept hf => (Reaches.pure _).of_succ fun _ => by simp [whnf, hf]
  | _, _, .unfold hb h =>
      (h.reaches hacts).of_succ fun _ => by simp [whnf, stepOf_eq_none_of_bodyOf? hb, hb]
  | _, _, .const hb h => (h.reaches hacts).shift 2 1 (whnf_const hb)
  | _, _, .native h => (h.reaches hacts).shift 2 1 (whnf_native _)
  | _, _, .rigid ht => (Reaches.pure _).of_succ fun n => whnf_of_isRigid ht n
  | _, _, .app hh ha => ((hh.reaches hacts).bind (ha.reaches hacts)).of_succ fun _ => rfl
  | _, _, .app_error hh => (hh.reaches hacts).bind_error.of_succ fun _ => rfl
  | _, _, .case hs hb h => ((hs.reaches hacts).bind (by
      simp only [hb]
      exact (h.reaches hacts))).of_succ fun _ => rfl
  | _, _, .case_overflow hs hb => ((hs.reaches hacts).bind (by
      simp only [hb]
      exact .throw _)).of_succ fun _ => rfl
  | _, _, .case_stuck hs hb => ((hs.reaches hacts).bind (by
      simp only [hb]
      exact .pure _)).of_succ fun _ => rfl
  | _, _, .case_error hs => (hs.reaches hacts).bind_error.of_succ fun _ => rfl

theorem ToApp.reaches (hacts : Sure cfg acts) : ∀ {h : Term β σ} {as : List (Term β σ)}
    {r : Except (Halt β) (Term β σ)}, ToApp cfg acts h as r → Reaches (fun n => whnfApp cfg n h as) r
  | _, _, _, .merge h => (h.reaches hacts).of_succ fun _ => by rw [whnfApp, Term.app_apps]
  | _, _, _, .beta hn hb h => (h.reaches hacts).of_succ fun _ => by simp [whnfApp, hn, hb, Act.bounded]
  | _, _, _, .beta_overflow hn hb =>
      (Reaches.throw _).of_succ fun _ => by
        simp only [whnfApp, hn, ↓reduceIte, hb, Act.bounded]
        rfl
  | _, _, _, .short hn =>
      (Reaches.pure _).of_succ fun _ => by simp [whnfApp, Nat.not_le.mpr hn]
  | _, _, _, .inert happ hlam hs => (Reaches.pure _).of_succ fun n => by
      rw [whnfApp_eq_whnfStep happ hlam, whnfStep, hs]
  | _, _, _, .waiting hs hlen => (Reaches.pure _).of_succ fun n => by
      rw [whnfApp_of_stepOf hs, if_neg (Nat.not_le.mpr hlen)]
  | _, _, _, .fired hs hlen hnow hx h =>
      ((fire_reaches hacts (hnow.reaches hacts) hx).bind (G := fun p n => resume cfg n p)
        (h.reaches hacts)).of_succ fun n => by rw [whnfApp_of_stepOf hs, if_pos hlen]
  | _, _, _, .declined hs hlen hnow hx =>
      ((fire_reaches hacts (hnow.reaches hacts) hx).bind (G := fun p n => resume cfg n p)
        (.pure _)).of_succ fun n => by rw [whnfApp_of_stepOf hs, if_pos hlen]
  | _, _, _, .failed hs hlen hnow hx =>
      (Reaches.bind_error (G := fun p n => resume cfg n p)
        (fire_reaches hacts (hnow.reaches hacts) hx)).of_succ fun n => by
          rw [whnfApp_of_stepOf hs, if_pos hlen]
  | _, _, _, .args_error hs hlen hnow =>
      (Reaches.bind_error (G := fun p n => resume cfg n p) (hnow.reaches hacts).bind_error).of_succ
        fun n => by
          rw [whnfApp_of_stepOf hs, if_pos hlen]
          rfl

theorem ToNorm.reaches (hacts : Sure cfg acts) : ∀ {t : Term β σ} {r : Except (Halt β) (Term β σ)},
    ToNorm cfg acts t r → Reaches (fun n => norm cfg n t) r
  | t, _, .hnf hf h => (h.reaches hacts).of_succ fun n => norm_of_hnf hf n t
  | t, _, .args hf h has => ((h.reaches hacts).bind (G := fun u n => normArgs cfg n u)
      ((has.reaches hacts).bind (.pure _))).of_succ fun n => norm_eq_bind hf n t
  | t, _, .args_error hf h has => ((h.reaches hacts).bind (G := fun u n => normArgs cfg n u)
      (has.reaches hacts).bind_error).of_succ fun n => norm_eq_bind hf n t
  | t, _, .head hf h hu => ((h.reaches hacts).bind (G := fun u n => normArgs cfg n u)
      (by simp only [normArgs_of_not_isApp hu]; exact .pure _)).of_succ fun n => norm_eq_bind hf n t
  | t, _, .error h => (h.reaches hacts).bind_error.of_succ fun n => rfl

theorem ToNorms.reaches (hacts : Sure cfg acts) : ∀ {ts : List (Term β σ)} {r : Except (Halt β) (List (Term β σ))},
    ToNorms cfg acts ts r → Reaches (fun n => ts.mapM (norm cfg n)) r
  | _, _, .nil => .pure _
  | _, _, .cons h hs => by
      simp only [List.mapM_cons]
      exact (h.reaches hacts).bind ((hs.reaches hacts).bind (.pure _))
  | _, _, .head_error h => by
      simp only [List.mapM_cons]
      exact (h.reaches hacts).bind_error
  | _, _, .tail_error h hs => by
      simp only [List.mapM_cons]
      exact (h.reaches hacts).bind (hs.reaches hacts).bind_error
end

instance : Inhabited (World β σ) := ⟨{}⟩

theorem ToWhnf.unique (hacts : Sure cfg acts) {t : Term β σ} {r r' : Except (Halt β) (Term β σ)}
    (h : ToWhnf cfg acts t r) (h' : ToWhnf cfg acts t r') : r = r' :=
  (h.reaches hacts).unique (h'.reaches hacts)

theorem ToNorm.unique (hacts : Sure cfg acts) {t : Term β σ} {r r' : Except (Halt β) (Term β σ)}
    (h : ToNorm cfg acts t r) (h' : ToNorm cfg acts t r') : r = r' :=
  (h.reaches hacts).unique (h'.reaches hacts)

theorem ToNorms.unique (hacts : Sure cfg acts) {ts : List (Term β σ)}
    {r r' : Except (Halt β) (List (Term β σ))} (h : ToNorms cfg acts ts r)
    (h' : ToNorms cfg acts ts r') : r = r' :=
  (h.reaches hacts).unique (h'.reaches hacts)

theorem Sure.unique (hacts : Sure cfg acts) {s : Step σ} {as : List (Term β σ)}
    {x y : Except (Halt β) (Option (Term β σ))} (hx : acts s as x) (hy : acts s as y) : x = y :=
  (hacts s as x hx default).symm.trans (hacts s as y hy default)

/-! ## How a run ends, the rules say -/

section Soundness

variable {ok : World β σ → Prop} (hlog : ∀ r w, ok (w.logged r) → ok w)
  (hfire : ∀ s as, Traced ok (Act.note (.fired s as) >>= fun _ => cfg.interp s.body cfg.env as)
    (acts s as))

include hlog in
theorem traced_debug (level : LogLevel) (text : String) :
    Traced ok (Act.debug level fun _ => some text : Act β σ Unit) fun x => x = .ok () := by
  intro w hw
  rw [Act.debug_run] at hw ⊢
  cases hd : w.debugging <;> rw [hd] at hw
  · exact ⟨hw, fun _ => rfl⟩
  · exact ⟨hlog _ _ hw, fun _ => rfl⟩

theorem traced_mapM {norm : Term β σ → Act β σ (Term β σ)}
    (hnorm : ∀ t, Traced ok (norm t) (ToNorm cfg acts t)) (ts : List (Term β σ)) :
    Traced ok (ts.mapM norm) (ToNorms cfg acts ts) := by
  induction ts with
  | nil =>
      simp only [List.mapM_nil]
      exact .pure .nil
  | cons t ts ih =>
      simp only [List.mapM_cons]
      refine (hnorm t).bind (fun u => ih.bind (fun us => .pure fun hus hu => .cons hu hus) ?_) ?_
      · exact fun e hus hu => .tail_error hu hus
      · exact fun e hu => .head_error hu

/-- What is left of an application that a step was fired on. -/
inductive ToFire (cfg : Setting β σ) (acts : Deeds β σ) (s : Step σ) (h : Term β σ)
    (as : List (Term β σ)) : Except (Halt β) (Bool × Term β σ) → Prop where
  | fired {now u} : ToNorms cfg acts (as.take s.arity) (.ok now) → acts s now (.ok (some u)) →
      ToFire cfg acts s h as (.ok (true, u.apps (as.drop s.arity)))
  | declined {now} : ToNorms cfg acts (as.take s.arity) (.ok now) → acts s now (.ok none) →
      ToFire cfg acts s h as (.ok (false, h.apps (now ++ as.drop s.arity)))
  | failed {now e} : ToNorms cfg acts (as.take s.arity) (.ok now) → acts s now (.error e) →
      ToFire cfg acts s h as (.error e)
  | args_error {e} : ToNorms cfg acts (as.take s.arity) (.error e) →
      ToFire cfg acts s h as (.error e)

include hlog hfire in
theorem traced_fire {norm : Term β σ → Act β σ (Term β σ)}
    (hnorm : ∀ t, Traced ok (norm t) (ToNorm cfg acts t)) (s : Step σ) (h : Term β σ)
    (as : List (Term β σ)) : Traced ok (fire cfg norm s h as) (ToFire cfg acts s h as) := by
  refine (traced_mapM hnorm _).bind (fun now => ?_) fun e he => .args_error he
  refine (traced_debug hlog _ _).bind (fun _ => ?_) (fun _ he => nomatch he)
  rw [← bind_assoc]
  refine (hfire s now).bind (fun u? => ?_) fun e he _ hnow => .failed hnow he
  cases u? with
  | none => exact .pure fun hact _ hnow => .declined hnow hact
  | some u => exact .pure fun hact _ hnow => .fired hnow hact

include hlog hfire in
theorem traced_whnfApp {n : Nat} (hwhnf : ∀ t, Traced ok (whnf cfg n t) (ToWhnf cfg acts t))
    (hnorm : ∀ t, Traced ok (norm cfg n t) (ToNorm cfg acts t)) (h : Term β σ)
    (as : List (Term β σ)) : Traced ok (whnfApp cfg (n + 1) h as) (ToApp cfg acts h as) := by
  cases happ : h.isApp
  case true =>
    obtain ⟨g, bs, rfl⟩ := Term.isApp_eq_true_iff.mp happ
    rw [whnfApp, Term.app_apps]
    exact (hwhnf _).imp fun _ => .merge
  case false =>
    cases hlam : h.isLam
    case true =>
      obtain ⟨k, b, rfl⟩ : ∃ k b, h = .lam k b := by cases h <;> simp_all [Term.isLam]
      rw [whnfApp]
      split
      next hle =>
        cases hb : b.beta? (as.take k) with
        | none => exact .throw_bind (.beta_overflow hle hb)
        | some u =>
            rw [Act.bounded, pure_bind]
            exact (hwhnf _).imp fun _ => .beta hle hb
      next hlt => exact .pure (.short (Nat.not_le.mp hlt))
    case false =>
      cases hs : stepOf cfg h with
      | none =>
          rw [whnfApp_eq_whnfStep happ hlam, whnfStep, hs]
          exact .pure (.inert happ hlam hs)
      | some s =>
          rw [whnfApp_of_stepOf hs]
          split
          next hle =>
            refine (traced_fire hlog hfire hnorm s h as).bind (fun p => ?_) fun e he => ?_
            · obtain ⟨_ | _, u⟩ := p
              · refine .pure fun hp => ?_
                cases hp with
                | declined hnow hact => exact .declined hs hle hnow hact
              · refine (hwhnf u).imp fun x hx hp => ?_
                cases hp with
                | fired hnow hact => exact .fired hs hle hnow hact hx
            · cases he with
              | failed hnow hact => exact .failed hs hle hnow hact
              | args_error hnow => exact .args_error hs hle hnow
          next hlt => exact .pure (.waiting hs (Nat.not_le.mp hlt))

theorem traced_whnf {n : Nat} (hwhnf : ∀ t, Traced ok (whnf cfg n t) (ToWhnf cfg acts t))
    (happ : ∀ h as, Traced ok (whnfApp cfg n h as) (ToApp cfg acts h as)) (t : Term β σ) :
    Traced ok (whnf cfg (n + 1) t) (ToWhnf cfg acts t) := by
  cases t with
  | annotated t m => exact (hwhnf t).imp fun _ => .annotated
  | ascribed t s =>
      rw [whnf]
      split
      next hf => exact (hwhnf t).imp fun _ => .ascribed hf
      next hf => exact .pure (.ascribed_kept (Bool.not_eq_true _ ▸ hf))
  | reify t =>
      rw [whnf]
      split
      next hf => exact (hwhnf t).imp fun _ => .reify hf
      next hf => exact .pure (.reify_kept (Bool.not_eq_true _ ▸ hf))
  | const c =>
      rw [whnf]
      split
      next s hs =>
        rw [fireConstant_eq_whnfApp hs]
        exact (happ _ _).imp fun _ => .const (bodyOf?_eq_none_of_stepOf hs)
      next hs =>
        split
        next b hb => exact (hwhnf b).imp fun _ => .unfold hb
        next hb => exact .pure (.const hb (.inert rfl rfl hs))
  | native s =>
      rw [whnf]
      split
      next s' hs =>
        rw [fireConstant_eq_whnfApp hs]
        exact (happ _ _).imp fun _ => .native
      next hs => exact .pure (.native (.inert rfl rfl hs))
  | app h as =>
      refine (hwhnf h).bind (fun h' => ?_) fun e he => .app_error he
      exact (happ h' as).imp fun r hr hh => .app hh hr
  | case s brs =>
      refine (hwhnf s).bind (fun s' => ?_) fun e he => .case_error he
      cases hsel : select s' brs with
      | none => exact .pure fun hs => .case_stuck hs hsel
      | some b? =>
          cases b? with
          | none => exact .throw_bind fun hs => .case_overflow hs hsel
          | some b => exact (hwhnf b).imp fun r hr hs => .case hs hsel hr
  | _ => exact .pure (.rigid rfl)

theorem traced_norm {n : Nat} (hwhnf : ∀ t, Traced ok (whnf cfg n t) (ToWhnf cfg acts t))
    (hnorm : ∀ t, Traced ok (norm cfg n t) (ToNorm cfg acts t)) (t : Term β σ) :
    Traced ok (norm cfg (n + 1) t) (ToNorm cfg acts t) := by
  -- Only the flag decides whether the arguments of what comes out are normalized too.
  cases hf : cfg.flags.hnf
  case true =>
    rw [norm_of_hnf hf]
    refine (hwhnf t).imp fun r hr => ?_
    cases r with
    | ok u => exact .hnf hf hr
    | error e => exact .error hr
  case false =>
    rw [norm_eq_bind hf]
    refine (hwhnf t).bind (fun u => ?_) fun e he => .error he
    cases hu : u.isApp
    case false =>
      rw [normArgs_of_not_isApp hu]
      exact .pure fun h => .head hf h hu
    case true =>
      obtain ⟨h, as, rfl⟩ := Term.isApp_eq_true_iff.mp hu
      refine (traced_mapM hnorm as).bind (fun bs => .pure fun hbs h => .args hf h hbs) ?_
      exact fun e he h => .args_error hf h he

include hlog hfire in
/-- Runs with any amount of fuel that leave a world as it should be end as the rules say, unless the fuel
is used up. -/
theorem traced (n : Nat) :
    (∀ t, Traced ok (whnf cfg n t) (ToWhnf cfg acts t)) ∧
    (∀ h as, Traced ok (whnfApp cfg n h as) (ToApp cfg acts h as)) ∧
    ∀ t, Traced ok (norm cfg n t) (ToNorm cfg acts t) := by
  induction n with
  | zero => exact ⟨fun _ => .exhausted, fun _ _ => .exhausted, fun _ => .exhausted⟩
  | succ n ih =>
      obtain ⟨hwhnf, happ, hnorm⟩ := ih
      exact ⟨traced_whnf hwhnf happ, traced_whnfApp hlog hfire hwhnf hnorm, traced_norm hwhnf hnorm⟩

end Soundness

/-- A step may do what it does in some world. -/
def mayAct (cfg : Setting β σ) : Deeds β σ :=
  fun s as x => ∃ w, ending (cfg.interp s.body cfg.env as w) = x

/-- What a run that ends by itself ends with is what the rules give for steps as they act in some
world. -/
theorem toNorm_of_ending {n : Nat} {t : Term β σ} {w : World β σ} {x : Except (Halt β) (Term β σ)}
    (hx : ending (norm cfg n t w) = x) (hne : x ≠ .error .exhausted) :
    ToNorm cfg (mayAct cfg) t x := by
  subst hx
  have hfire : ∀ s as, Traced (fun _ => True)
      (Act.note (.fired s as) >>= fun _ => cfg.interp s.body cfg.env as) (mayAct cfg s as) :=
    fun s as w _ => ⟨trivial, fun _ => ⟨w.noted (.fired s as), rfl⟩⟩
  have htraced := traced (fun _ _ _ => trivial) hfire n
  exact (htraced.2.2 t w trivial).2 hne

end Reduce

end TacticEngine
