/-
# TacticEngine.Proofs.Reduction.Merging -- arguments given in one go or in two.

Applications are kept flat, so a term that is applied once more is not reduced to weak head normal form
before the new arguments join the old ones.  It makes no difference: reducing the term first and going on
with the new arguments ends as reducing the whole does (`toWhnf_apps_iff`).

The two runs are not in step.  What the first one leaves as it is, a lambda with too few arguments or a step
that needs more or declines, is tried again once the new arguments are there.  A step that declined is
fired anew on the arguments that it left normalized, which changes nothing since it is pure.
-/
import TacticEngine.Proofs.Reduction.Normal

namespace TacticEngine.Reduce

variable {β σ : Type}

/-- How it ends to go on with further arguments, after the head ended like this. -/
inductive Onward (cfg : Setting β σ) (acts : Deeds β σ) :
    Except (Halt β) (Term β σ) → List (Term β σ) → Except (Halt β) (Term β σ) → Prop where
  | ok {t as r} : ToApp cfg acts t as r → Onward cfg acts (.ok t) as r
  | error {e as} : Onward cfg acts (.error e) as (.error e)

variable {cfg : Setting β σ} {acts : Deeds β σ} {h t : Term β σ} {as bs : List (Term β σ)}
  {r z : Except (Halt β) (Term β σ)}

/-- What the rules say of an application. -/
theorem toWhnf_app_iff :
    ToWhnf cfg acts (.app h as) r ↔ ∃ z, ToWhnf cfg acts h z ∧ Onward cfg acts z as r := by
  constructor
  · intro hr
    cases hr with
    | rigid hrigid => cases hrigid
    | app hh ha => exact ⟨_, hh, .ok ha⟩
    | app_error hh => exact ⟨_, hh, .error⟩
  · rintro ⟨z, hh, hon⟩
    cases hon with
    | ok ha => exact .app hh ha
    | error => exact .app_error hh

theorem ToApp.unique (hacts : Sure cfg acts) {r' : Except (Halt β) (Term β σ)}
    (hr : ToApp cfg acts h as r) (hr' : ToApp cfg acts h as r') : r = r' :=
  (hr.reaches hacts).unique (hr'.reaches hacts)

/-! ## Heads that are done -/

/-- Where a head that is done has arguments already, further ones join them. -/
theorem toApp_apps_iff (hacts : Sure cfg acts) (hh : HeadNormal cfg acts h) (happ : h.isApp = false) :
    ToApp cfg acts (h.apps as) bs r ↔ ToApp cfg acts h (as ++ bs) r := by
  by_cases has : as = []
  · subst has
    rw [Term.apps_nil, List.nil_append]
  · rw [Term.apps_of_not_isApp happ has]
    constructor
    · intro hr
      cases hr with
      | merge hr =>
          cases hr with
          | rigid hrigid => cases hrigid
          | app hhead hr =>
              cases hhead.unique hacts hh.toWhnf
              exact hr
          | app_error hhead => cases hhead.unique hacts hh.toWhnf
      | inert happ' => cases happ'
      | waiting hs => cases not_isApp_of_stepOf hs
      | fired hs => cases not_isApp_of_stepOf hs
      | declined hs => cases not_isApp_of_stepOf hs
      | failed hs => cases not_isApp_of_stepOf hs
      | args_error hs => cases not_isApp_of_stepOf hs
    · exact fun hr => .merge (.app hh.toWhnf hr)

/-- A step that declined its normalized arguments declines them again, whatever follows them. -/
theorem ToApp.declined_again (hacts : Sure cfg acts) {s : Step σ} {now rest : List (Term β σ)}
    (hs : stepOf cfg h = some s) (hle : s.arity ≤ as.length)
    (hnow : ToNorms cfg acts (as.take s.arity) (.ok now)) (hact : acts s now (.ok none)) :
    ToApp cfg acts h (now ++ rest) (.ok (h.apps (now ++ rest))) := by
  have hlen : now.length = s.arity := by
    rw [hnow.length_eq, List.length_take]
    omega
  have hself : ToNorms cfg acts ((now ++ rest).take s.arity) (.ok now) := by
    rw [List.take_left' hlen]
    exact toNorms_self fun a ha => (hnow.normal hacts _ rfl a ha).toNorm
  have hdecl := ToApp.declined hs (by rw [List.length_append]; omega) hself hact
  rwa [List.drop_left' hlen] at hdecl

/-! ## First the head, then the arguments -/

theorem not_isApp_of_isRigid (ht : t.isRigid = true) : t.isApp = false := by
  cases t <;> first | rfl | cases ht

theorem ToWhnf.apps_of_not_isApp (hz : ToWhnf cfg acts t z) (happ : t.isApp = false) (hne : bs ≠ [])
    (hon : Onward cfg acts z bs r) : ToWhnf cfg acts (t.apps bs) r := by
  rw [Term.apps_of_not_isApp happ hne]
  exact toWhnf_app_iff.mpr ⟨z, hz, hon⟩

-- By induction on the first of the two runs.  Where it goes on with another term, so does the run on all
-- arguments; where it stops at an application, the second run starts from there.
mutual
theorem ToWhnf.apps (hacts : Sure cfg acts) : ∀ {t : Term β σ} {z : Except (Halt β) (Term β σ)},
    ToWhnf cfg acts t z → ∀ {bs r}, bs ≠ [] → Onward cfg acts z bs r →
      ToWhnf cfg acts (t.apps bs) r
  | _, _, .app hh ha, _, _, hne, hon => by
      rw [Term.app_apps]
      exact .app hh (ha.append hacts (hh.headNormal hacts _ rfl) hne hon)
  | _, _, .app_error hh, _, _, _, .error => by
      rw [Term.app_apps]
      exact .app_error hh
  | _, _, .rigid hr, _, _, hne, hon =>
      (ToWhnf.rigid hr).apps_of_not_isApp (not_isApp_of_isRigid hr) hne hon
  | _, _, hz@(.annotated _), _, _, hne, hon
  | _, _, hz@(.ascribed _ _), _, _, hne, hon
  | _, _, hz@(.ascribed_kept _), _, _, hne, hon
  | _, _, hz@(.reify _ _), _, _, hne, hon
  | _, _, hz@(.reify_kept _), _, _, hne, hon
  | _, _, hz@(.unfold _ _), _, _, hne, hon
  | _, _, hz@(.const _ _), _, _, hne, hon
  | _, _, hz@(.native _), _, _, hne, hon
  | _, _, hz@(.case _ _ _), _, _, hne, hon
  | _, _, hz@(.case_overflow _ _), _, _, hne, hon
  | _, _, hz@(.case_stuck _ _), _, _, hne, hon
  | _, _, hz@(.case_error _), _, _, hne, hon =>
      hz.apps_of_not_isApp rfl hne hon

theorem ToApp.append (hacts : Sure cfg acts) : ∀ {h : Term β σ} {as : List (Term β σ)}
    {z : Except (Halt β) (Term β σ)}, ToApp cfg acts h as z → HeadNormal cfg acts h →
      ∀ {bs r}, bs ≠ [] → Onward cfg acts z bs r → ToApp cfg acts h (as ++ bs) r
  | _, _, _, .merge hz, hh, _, _, hne, hon => by
      have hall := hz.apps hacts hne hon
      rw [Term.app_apps, List.append_assoc] at hall
      exact .merge hall
  | _, as, _, .beta (n := n) hn hb hz, hh, _, _, hne, hon => by
      have hall := hz.apps hacts hne hon
      rw [Term.apps_apps, ← List.drop_append_of_le_length hn] at hall
      exact .beta (by rw [List.length_append]; omega)
        (by rwa [List.take_append_of_le_length hn]) hall
  | _, _, _, .beta_overflow hn hb, hh, _, _, _, .error =>
      .beta_overflow (by rw [List.length_append]; omega) (by rwa [List.take_append_of_le_length hn])
  | _, _, _, .short hn, hh, _, _, _, .ok hr => (toApp_apps_iff hacts hh rfl).mp hr
  | _, _, _, .inert happ hlam hs, hh, _, _, _, .ok hr => (toApp_apps_iff hacts hh happ).mp hr
  | _, _, _, .waiting hs hlen, hh, _, _, _, .ok hr =>
      (toApp_apps_iff hacts hh (not_isApp_of_stepOf hs)).mp hr
  | _, _, _, .fired hs hlen hnow hact hz, hh, _, _, hne, hon => by
      have hall := hz.apps hacts hne hon
      rw [Term.apps_apps, ← List.drop_append_of_le_length hlen] at hall
      exact .fired hs (by rw [List.length_append]; omega)
        (by rwa [List.take_append_of_le_length hlen]) hact hall
  | _, _, _, .declined hs hlen hnow hact, hh, _, _, _, .ok hr => by
      have hagain := (toApp_apps_iff hacts hh (not_isApp_of_stepOf hs)).mp hr
      rw [List.append_assoc] at hagain
      -- The second run can only have declined once more.
      cases hagain.unique hacts (ToApp.declined_again hacts hs hlen hnow hact)
      rw [← List.drop_append_of_le_length hlen]
      exact .declined hs (by rw [List.length_append]; omega)
        (by rwa [List.take_append_of_le_length hlen]) hact
  | _, _, _, .failed hs hlen hnow hact, hh, _, _, _, .error =>
      .failed hs (by rw [List.length_append]; omega) (by rwa [List.take_append_of_le_length hlen]) hact
  | _, _, _, .args_error hs hlen hnow, hh, _, _, _, .error =>
      .args_error hs (by rw [List.length_append]; omega)
        (by rwa [List.take_append_of_le_length hlen])
end

/-! ## The other way round -/

/-- The head ends, as `P` says, and going on with the further arguments ends like this. -/
def Splits (cfg : Setting β σ) (acts : Deeds β σ) (P : Except (Halt β) (Term β σ) → Prop)
    (bs : List (Term β σ)) (r : Except (Halt β) (Term β σ)) : Prop :=
  ∃ z, P z ∧ Onward cfg acts z bs r

theorem ne_apps {u : Term β σ} (hu : u.isApp = false) (hne : bs ≠ []) : u ≠ t.apps bs := by
  rintro rfl
  cases happ : t.isApp
  case false =>
    rw [Term.apps_of_not_isApp happ hne] at hu
    cases hu
  case true =>
    obtain ⟨g, as, rfl⟩ := Term.isApp_eq_true_iff.mp happ
    rw [Term.app_apps] at hu
    cases hu

theorem ToWhnf.splits_of_not_isApp (happ : t.isApp = false) (hne : bs ≠ [])
    (hr : ToWhnf cfg acts (t.apps bs) r) : Splits cfg acts (ToWhnf cfg acts t) bs r := by
  rw [Term.apps_of_not_isApp happ hne] at hr
  exact toWhnf_app_iff.mp hr

/-- Where nothing applies to the first arguments, the others join them. -/
theorem splits_of_stuck (hacts : Sure cfg acts) (hh : HeadNormal cfg acts h) (happ : h.isApp = false)
    (hstuck : ToApp cfg acts h as (.ok (h.apps as))) (hr : ToApp cfg acts h (as ++ bs) r) :
    Splits cfg acts (ToApp cfg acts h as) bs r :=
  ⟨_, hstuck, .ok ((toApp_apps_iff hacts hh happ).mpr hr)⟩

theorem splits_of_short (hacts : Sure cfg acts) {n : Nat} {b : Term β σ}
    (hh : HeadNormal cfg acts (.lam n b)) (hlt : as.length < n)
    (hr : ToApp cfg acts (.lam n b) (as ++ bs) r) :
    Splits cfg acts (ToApp cfg acts (.lam n b) as) bs r :=
  splits_of_stuck hacts hh rfl (.short hlt) hr

theorem splits_of_waiting (hacts : Sure cfg acts) (hh : HeadNormal cfg acts h) {s : Step σ}
    (hs : stepOf cfg h = some s) (hlt : as.length < s.arity) (hr : ToApp cfg acts h (as ++ bs) r) :
    Splits cfg acts (ToApp cfg acts h as) bs r :=
  splits_of_stuck hacts hh (not_isApp_of_stepOf hs) (.waiting hs hlt) hr

-- By induction on the run on all arguments.  What it does first depends on the first arguments only, or else
-- these are too few for anything to be done with them.
mutual
theorem ToWhnf.split (hacts : Sure cfg acts) : ∀ {u : Term β σ} {r : Except (Halt β) (Term β σ)},
    ToWhnf cfg acts u r → ∀ {t bs}, u = t.apps bs → bs ≠ [] →
      Splits cfg acts (ToWhnf cfg acts t) bs r
  | _, _, @ToWhnf.app _ _ _ _ _ _ cs _ hh ha, t, bs, hu, hne => by
      have ih := fun as (hcs : cs = as ++ bs) => ha.split hacts (hh.headNormal hacts _ rfl) hcs hne
      cases happ : t.isApp
      case false => exact (hu ▸ ToWhnf.app hh ha).splits_of_not_isApp happ hne
      case true =>
        obtain ⟨g, as, rfl⟩ := Term.isApp_eq_true_iff.mp happ
        rw [Term.app_apps] at hu
        obtain ⟨rfl, hcs⟩ := Term.app.inj hu
        obtain ⟨z, hz, hon⟩ := ih as hcs
        exact ⟨z, .app hh hz, hon⟩
  | _, _, .app_error hh, t, bs, hu, hne => by
      cases happ : t.isApp
      case false => exact (hu ▸ ToWhnf.app_error hh).splits_of_not_isApp happ hne
      case true =>
        obtain ⟨g, as, rfl⟩ := Term.isApp_eq_true_iff.mp happ
        rw [Term.app_apps] at hu
        obtain ⟨rfl, -⟩ := Term.app.inj hu
        exact ⟨_, .app_error hh, .error⟩
  | _, _, .rigid hr, _, _, hu, hne => absurd hu (ne_apps (not_isApp_of_isRigid hr) hne)
  | _, _, .annotated _, _, _, hu, hne
  | _, _, .ascribed _ _, _, _, hu, hne
  | _, _, .ascribed_kept _, _, _, hu, hne
  | _, _, .reify _ _, _, _, hu, hne
  | _, _, .reify_kept _, _, _, hu, hne
  | _, _, .unfold _ _, _, _, hu, hne
  | _, _, .const _ _, _, _, hu, hne
  | _, _, .native _, _, _, hu, hne
  | _, _, .case _ _ _, _, _, hu, hne
  | _, _, .case_overflow _ _, _, _, hu, hne
  | _, _, .case_stuck _ _, _, _, hu, hne
  | _, _, .case_error _, _, _, hu, hne => absurd hu (ne_apps rfl hne)

theorem ToApp.split (hacts : Sure cfg acts) : ∀ {h : Term β σ} {cs : List (Term β σ)}
    {r : Except (Halt β) (Term β σ)}, ToApp cfg acts h cs r → HeadNormal cfg acts h →
      ∀ {as bs}, cs = as ++ bs → bs ≠ [] → Splits cfg acts (ToApp cfg acts h as) bs r
  | .app g ds, cs, r, .merge hr, hh, as, bs, hcs, hne => by
      have hall : Term.app g (ds ++ cs) = (Term.app g (ds ++ as)).apps bs := by
        rw [hcs, Term.app_apps, List.append_assoc]
      obtain ⟨z, hz, hon⟩ := hr.split hacts hall hne
      exact ⟨z, .merge hz, hon⟩
  | .lam n b, cs, r, @ToApp.beta _ _ _ _ _ _ b' _ _ hn hb hr, hh, as, bs, hcs, hne => by
      by_cases hle : n ≤ as.length
      · have hall : b'.apps (cs.drop n) = (b'.apps (as.drop n)).apps bs := by
          rw [hcs, Term.apps_apps, List.drop_append_of_le_length hle]
        obtain ⟨z, hz, hon⟩ := hr.split hacts hall hne
        rw [hcs, List.take_append_of_le_length hle] at hb
        exact ⟨z, .beta hle hb hz, hon⟩
      · exact splits_of_short hacts hh (Nat.not_le.mp hle) (hcs ▸ ToApp.beta hn hb hr)
  | .lam n b, cs, _, .beta_overflow hn hb, hh, as, bs, hcs, hne => by
      by_cases hle : n ≤ as.length
      · rw [hcs, List.take_append_of_le_length hle] at hb
        exact ⟨_, .beta_overflow hle hb, .error⟩
      · exact splits_of_short hacts hh (Nat.not_le.mp hle) (hcs ▸ ToApp.beta_overflow hn hb)
  | .lam n b, cs, _, .short hn, hh, as, bs, hcs, hne => by
      have hlt : as.length < n := by
        rw [hcs, List.length_append] at hn
        omega
      exact splits_of_short hacts hh hlt (hcs ▸ ToApp.short hn)
  | h, cs, _, .inert happ hlam hs, hh, as, bs, hcs, hne =>
      splits_of_stuck hacts hh happ (.inert happ hlam hs) (hcs ▸ ToApp.inert happ hlam hs)
  | h, cs, _, .waiting (s := s) hs hlen, hh, as, bs, hcs, hne => by
      have hlt : as.length < s.arity := by
        rw [hcs, List.length_append] at hlen
        omega
      exact splits_of_waiting hacts hh hs hlt (hcs ▸ ToApp.waiting hs hlen)
  | h, cs, r, .fired (s := s) (u := u) hs hlen hnow hact hr, hh, as, bs, hcs, hne => by
      by_cases hle : s.arity ≤ as.length
      · have hall : u.apps (cs.drop s.arity) = (u.apps (as.drop s.arity)).apps bs := by
          rw [hcs, Term.apps_apps, List.drop_append_of_le_length hle]
        obtain ⟨z, hz, hon⟩ := hr.split hacts hall hne
        rw [hcs, List.take_append_of_le_length hle] at hnow
        exact ⟨z, .fired hs hle hnow hact hz, hon⟩
      · exact splits_of_waiting hacts hh hs (Nat.not_le.mp hle)
          (hcs ▸ ToApp.fired hs hlen hnow hact hr)
  | h, cs, _, .declined (s := s) hs hlen hnow hact, hh, as, bs, hcs, hne => by
      by_cases hle : s.arity ≤ as.length
      · rw [hcs, List.take_append_of_le_length hle] at hnow
        refine ⟨_, .declined hs hle hnow hact, .ok ?_⟩
        rw [toApp_apps_iff hacts hh (not_isApp_of_stepOf hs), hcs,
          List.drop_append_of_le_length hle, List.append_assoc]
        exact ToApp.declined_again hacts hs hle hnow hact
      · exact splits_of_waiting hacts hh hs (Nat.not_le.mp hle)
          (hcs ▸ ToApp.declined hs hlen hnow hact)
  | h, cs, _, .failed (s := s) hs hlen hnow hact, hh, as, bs, hcs, hne => by
      by_cases hle : s.arity ≤ as.length
      · rw [hcs, List.take_append_of_le_length hle] at hnow
        exact ⟨_, .failed hs hle hnow hact, .error⟩
      · exact splits_of_waiting hacts hh hs (Nat.not_le.mp hle)
          (hcs ▸ ToApp.failed hs hlen hnow hact)
  | h, cs, _, .args_error (s := s) hs hlen hnow, hh, as, bs, hcs, hne => by
      by_cases hle : s.arity ≤ as.length
      · rw [hcs, List.take_append_of_le_length hle] at hnow
        exact ⟨_, .args_error hs hle hnow, .error⟩
      · exact splits_of_waiting hacts hh hs (Nat.not_le.mp hle)
          (hcs ▸ ToApp.args_error hs hlen hnow)
end

/-- A term that is applied to arguments may as well be reduced first. -/
theorem toWhnf_apps_iff (hacts : Sure cfg acts) (hne : bs ≠ []) :
    ToWhnf cfg acts (t.apps bs) r ↔ ∃ z, ToWhnf cfg acts t z ∧ Onward cfg acts z bs r :=
  ⟨fun hr => hr.split hacts rfl hne, fun ⟨_, hz, hon⟩ => hz.apps hacts hne hon⟩

end TacticEngine.Reduce
