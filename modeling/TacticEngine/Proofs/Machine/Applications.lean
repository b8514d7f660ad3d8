/-
# TacticEngine.Proofs.Machine.Applications -- arguments in any groups.

A host that has a function and its arguments may apply the one to all the others at once, or to some of them first
and what comes out to the rest.  If it has terms, it may evaluate the function and apply its value to the suspended
arguments, or have the whole application evaluated; and if the function is an application already, this one gets more
arguments then.  It is all the same (`applications_associate`).

For values this rests on how arguments are split (`splitsAt`, `mergesAt`): the second application forces what the
first one has given, and that is a result already, so nothing happens in between.  For terms, the two evaluations take
their slots in different order, so they go on beside each other until the arguments have been suspended; from there
on, what is known of values is all that there is to it.
-/
import TacticEngine.Proofs.Agreement.Evaluation
import TacticEngine.Proofs.Machine.Conversation
import TacticEngine.Proofs.Machine.Splitting
import TacticEngine.Proofs.Pairing.Suspension

namespace TacticEngine.Machine

variable {β σ α : Type}

section

variable (cfg : Setting β σ)

/-- Apply the value to arguments and read back what comes out. -/
def applied (f : Value β σ) (args : List (Value β σ)) (n : Nat) : Eval β σ (Term β σ) := do
  let g ← apply cfg n f args
  readback cfg n g

/-- Apply the value to arguments, apply what comes out to others and read the result back. -/
def appliedTwice (f : Value β σ) (xs ys : List (Value β σ)) (n : Nat) : Eval β σ (Term β σ) := do
  let g ← apply cfg n f xs
  applied cfg g ys n

/-- Evaluate the term, apply its value to the suspended arguments and read back what comes out. -/
def appliedTerm (h : Term β σ) (ts : List (Term β σ)) (n : Nat) : Eval β σ (Term β σ) := do
  let f ← eval cfg n h
  let vs ← ts.mapM ofTerm
  applied cfg f vs n

/-- Evaluate an application by parts.  As when it is evaluated whole, reading back has one more unit of fuel than the
application. -/
def normalByParts (h : Term β σ) (ts : List (Term β σ)) (n : Nat) : Eval β σ (Term β σ) := do
  let x ← parts cfg n h ts
  let g ← apply cfg n x.1 x.2
  readback cfg (n + 1) g

/-- Evaluate an application by parts, with the arguments in two groups.  All of them are suspended before any of them
is used. -/
def normalByGroups (h : Term β σ) (es ts : List (Term β σ)) (n : Nat) : Eval β σ (Term β σ) := do
  let x ← parts cfg n h es
  let vs ← ts.mapM ofTerm
  let f ← apply cfg n x.1 x.2
  let g ← apply cfg (n + 1) f vs
  readback cfg (n + 1) g

end

/-! ## Runs that last -/

theorem lasting_exact : (lasting β σ).Exact where
  mute _ _ := id
  halt _ _ := id
  escape _ _ := id

/-- A memory without suspended computations in its slots is like itself. -/
theorem Heap.Poised.lasting {m : Memory β σ} (hm : m.heap.Poised) : (lasting β σ).state m m := by
  refine ⟨⟨rfl, fun i => ?_⟩, rfl⟩
  cases hr : m.heap.read i with
  | none => exact .none
  | some v => exact .some ⟨Value.alike_equal v, (hm i v hr).2⟩

/-- Evaluations that follow each other end alike. -/
theorem sameOutcome_of_follows {F F' : Nat → Eval β σ α} {m : Memory β σ} (hm : m.heap.Poised)
    (h : ∀ n, (lasting β σ).Follows Eq (F n) fun _ k => F' k)
    (h' : ∀ n, (lasting β σ).Follows Eq (F' n) fun _ k => F k) : SameOutcome F m F' m :=
  .of_follows lasting_exact (fun _ _ => id) h (fun _ => rfl) hm.lasting h' (fun _ => rfl) hm.lasting

theorem ofTerms_last (ts : List (Term β σ)) :
    (lasting β σ).Follows Eq (ts.mapM ofTerm) fun _ _ => ts.mapM ofTerm := by
  refine (Tie.Follows.mapM (fun t t' (ht : t = t') => ?_) (List.forall₂_same.mpr fun t _ => rfl)).imp
    fun vs vs' hvs => List.forall₂_eq_eq_eq ▸ hvs
  subst ht
  exact (ofTerm_follows (Term.alike_equal 0 t)).imp fun v v' hv => hv.eq Likeness.equal_strict

section

variable {cfg : Setting β σ} {n : Nat}

theorem eval_lasts (t : Term β σ) :
    (lasting β σ).Follows SameForced (eval cfg n t) fun _ m => eval cfg m t := by
  refine Tie.Follows.bind (F := fun _ _ => inHeap (·.reserve (compile cfg.steps t))) (V := Eq) ?_ ?_
  · exact reserve_follows fun _ => ⟨rfl, rfl⟩
  · rintro code _ rfl
    exact run_lasts code []

theorem parts_last (h : Term β σ) (ts : List (Term β σ)) :
    (lasting β σ).Follows Eq (parts cfg n h ts) fun _ m => parts cfg m h ts := by
  refine (eval_lasts h).bind fun f f' hf => ?_
  obtain ⟨rfl, -⟩ := hf
  refine (ofTerms_last ts).bind ?_
  rintro vs _ rfl
  exact .pure rfl

/-- How much more fuel there is for reading back makes no difference. -/
theorem readback_later (v : Value β σ) (c : Nat) :
    (lasting β σ).Follows Eq (readback cfg n v) fun _ m => readback cfg (m + c) v :=
  Follows.later (F := fun m => readback cfg m v) c (readback_lasts v)

end

/-! ## Results -/

/-- Forcing a result once more does not change it. -/
theorem apply_result {cfg : Setting β σ} {v : Value β σ} (hv : v.Result) {n : Nat} (hn : 2 ≤ n)
    (ys : List (Value β σ)) : apply cfg n v ys = applyRest cfg n v ys := by
  obtain ⟨n, rfl⟩ := Nat.exists_eq_add_of_le' hn
  rw [apply_of_forced hv.2]
  cases ys with
  | nil => rw [applyForced_nil hv, applyRest_nil]
  | cons y ys => rw [applyRest_cons]

/-! ## In one go and in two -/

section

variable {cfg : Setting β σ} (hcfg : cfg.Canonical) (hderived : cfg.Derived)

include hcfg hderived

/-- Applications to some arguments and then to others may be merged, wherever the function and the arguments come
from. -/
theorem applications_merge (pre : Nat → Eval β σ (Value β σ × List (Value β σ) × List (Value β σ)))
    (hpre : ∀ n, (lasting β σ).Follows Eq (pre n) fun _ m => pre m)
    (hpoised : ∀ n, Upholds (fun x => x.1.Applicable ∧ (∀ v ∈ x.2.1, v.Poised) ∧ ∀ v ∈ x.2.2, v.Poised) (pre n))
    (c : Nat) {m : Memory β σ} (hm : m.heap.Poised) :
    SameOutcome
      (fun n => pre n >>= fun x => apply cfg n x.1 x.2.1 >>= fun g =>
        apply cfg (n + c) g x.2.2 >>= readback cfg (n + c)) m
      (fun n => pre n >>= fun x => apply cfg n x.1 (x.2.1 ++ x.2.2) >>= readback cfg (n + c)) m := by
  -- with the rest handed on at once, the two schedules follow each other
  have hrest : SameOutcome
      (fun n => pre n >>= fun x => (apply cfg n x.1 x.2.1 >>= fun g => applyRest cfg (n + c) g x.2.2) >>=
        readback cfg (n + c)) m
      (fun n => pre n >>= fun x => apply cfg n x.1 (x.2.1 ++ x.2.2) >>= readback cfg (n + c)) m := by
    refine sameOutcome_of_follows hm (fun n => ?_) fun n => ?_
    · refine (hpre n).bind ?_
      rintro ⟨f, xs, ys⟩ _ rfl
      refine (apply_merges f xs ys (n + c)).bind fun g g' hg => ?_
      obtain ⟨rfl, -⟩ := hg
      exact readback_later g c
    · refine (hpre n).bind ?_
      rintro ⟨f, xs, ys⟩ _ rfl
      refine (apply_splits f xs ys c).bind fun g g' hg => ?_
      obtain ⟨rfl, -⟩ := hg
      exact readback_later g c
  -- and to force the result of the first application before the second one does nothing
  refine hrest.congr (fun n => (hpoised n).bind_congr hm ?_) fun n => rfl
  rintro ⟨f, xs, ys⟩ m' ⟨hf, hxs, hys⟩ hm'
  dsimp only
  rw [bind_assoc]
  rcases Nat.lt_or_ge n 2 with hn | hn
  · -- there is not enough fuel for the first application
    rcases n with _ | _ | n
    · rfl
    · rfl
    · omega
  · refine ((poisedAt hcfg hderived n).apply hf hxs).bind_congr hm' fun g m₁ hg hm₁ => ?_
    rw [apply_result hg (Nat.le_trans hn (Nat.le_add_right n c))]

/-- Applying a value to some arguments and what comes out to others, and applying it to all of them. -/
theorem appliedTwice_sameOutcome {m : Memory β σ} (hm : m.heap.Poised) {f : Value β σ} {xs ys : List (Value β σ)}
    (hf : f.Applicable) (hxs : ∀ x ∈ xs, x.Poised) (hys : ∀ y ∈ ys, y.Poised) :
    SameOutcome (appliedTwice cfg f xs ys) m (applied cfg f (xs ++ ys)) m := by
  have h := applications_merge hcfg hderived (fun _ => pure (f, xs, ys)) (fun _ => .pure rfl)
    (fun _ => .pure ⟨hf, hxs, hys⟩) 0 hm
  exact h.congr (fun _ => rfl) fun _ => rfl

end

/-! ## Terms -/

theorem upholds_ofTerms {ts : List (Term β σ)} (hts : ∀ t ∈ ts, t.Canonical) :
    Upholds (fun vs => ∀ v ∈ vs, v.Poised) (ts.mapM ofTerm) :=
  .mapM fun t ht => upholds_ofTerm (hts t ht)

section

variable {cfg : Setting β σ} (hderived : cfg.Derived) {h : Term β σ} {ts : List (Term β σ)} {m : Memory β σ}

/-- One more unit of fuel for reading back makes no difference. -/
theorem appliedTerm_later (hm : m.heap.Poised) :
    SameOutcome (appliedTerm cfg h ts) m (normalByParts cfg h ts) m := by
  have hlast (n c c' : Nat) : (lasting β σ).Follows Eq
      (parts cfg n h ts >>= fun x => apply cfg n x.1 x.2 >>= readback cfg (n + c))
      fun _ k => parts cfg k h ts >>= fun x => apply cfg k x.1 x.2 >>= readback cfg (k + c') := by
    refine (parts_last h ts).bind ?_
    rintro x _ rfl
    refine (apply_lasts x.1 x.2).bind fun g g' hg => ?_
    obtain ⟨rfl, -⟩ := hg
    exact readback_later g c'
  refine (sameOutcome_of_follows hm (fun n => hlast n 0 1) fun n => hlast n 1 0).congr (fun n => ?_) fun _ => rfl
  simp only [appliedTerm, applied, parts, bind_assoc, pure_bind]
  rfl

include hderived

/-- An application is evaluated by parts. -/
theorem normal_app_sameOutcome (hts : ∀ t ∈ ts, t.Closed) :
    SameOutcome (fun n => normal cfg n (.app h ts)) m (normalByParts cfg h ts) m := by
  refine (SameOutcome.succ rfl).trans (.of_ending fun n => ?_)
  have hat := besideAt hderived
  rw [normal, eval_app, bind_assoc]
  refine Pairing.Meets.ending_eq cfg.steps ?_
  refine (Pairing.parts_meet hderived n h (fun t ht => (hts t ht).ne_bvar) m).bind fun π x x' hx => ?_
  exact ((hat n).apply hx.1 hx.2).bind fun π₁ g g' _ hg => (hat (n + 1)).readback hg

/-- When the value of an application is applied to more arguments, these may be suspended before the others are
used. -/
theorem appliedTerm_app_sameOutcome {es : List (Term β σ)} (hes : ∀ e ∈ es, e.Closed) :
    SameOutcome (appliedTerm cfg (.app h es) ts) m (normalByGroups cfg h es ts) m := by
  refine (SameOutcome.succ rfl).trans (.of_ending fun n => ?_)
  have hat := besideAt hderived
  have hlater : appliedTerm cfg (.app h es) ts (n + 1) = compiledParts cfg n h es >>= fun x => (do
      let f ← apply cfg n x.1 x.2
      let vs ← ts.mapM ofTerm
      return (f, vs)) >>= fun y => apply cfg (n + 1) y.1 y.2 >>= readback cfg (n + 1) := by
    simp only [appliedTerm, applied, eval_app, bind_assoc, pure_bind]
  have hbefore : normalByGroups cfg h es ts n = parts cfg n h es >>= fun x => (do
      let vs ← ts.mapM ofTerm
      let f ← apply cfg n x.1 x.2
      return (f, vs)) >>= fun y => apply cfg (n + 1) y.1 y.2 >>= readback cfg (n + 1) := by
    simp only [normalByGroups, bind_assoc, pure_bind]
  rw [hlater, hbefore]
  refine Pairing.Meets.ending_eq cfg.steps ?_
  refine (Pairing.parts_meet hderived n h (fun t ht => (hes t ht).ne_bvar) m).andThen
    fun π x x' m₁ m₁' hx hm₁ hw₁ => ?_
  refine (Pairing.suspended_meets ((hat n).apply hx.1 hx.2) ts hm₁ hw₁).bind fun π₁ y y' hy => ?_
  exact ((hat (n + 1)).apply hy.1 hy.2).bind fun π₂ g g' _ hg => (hat (n + 1)).readback hg

variable (hcfg : cfg.Canonical)

include hcfg

theorem upholds_eval {t : Term β σ} (ht : t.Canonical) (n : Nat) : Upholds Value.Result (eval cfg n t) :=
  (Upholds.reserve (compile_poised cfg.steps ht)).bind fun _ hcode =>
    (poisedAt hcfg hderived n).run hcode (List.forall_mem_nil _)

theorem upholds_parts (hh : h.Canonical) (hts : ∀ t ∈ ts, t.Canonical) (n : Nat) :
    Upholds (fun x => x.1.Result ∧ ∀ v ∈ x.2, v.Poised) (parts cfg n h ts) :=
  (upholds_eval hderived hcfg hh n).bind fun _ hf => (upholds_ofTerms hts).bind fun _ hvs => .pure ⟨hf, hvs⟩

/-- Two groups of arguments may be merged. -/
theorem normalByGroups_sameOutcome {es : List (Term β σ)} (hh : h.Canonical) (hes : ∀ e ∈ es, e.Canonical)
    (hts : ∀ t ∈ ts, t.Canonical) (hm : m.heap.Poised) :
    SameOutcome (normalByGroups cfg h es ts) m (normalByParts cfg h (es ++ ts)) m := by
  have hmerge := applications_merge hcfg hderived
    (fun n => parts cfg n h es >>= fun x => do
      let vs ← ts.mapM ofTerm
      return (x.1, x.2, vs))
    (fun n => (parts_last h es).bind fun x x' hx => (ofTerms_last ts).bind fun vs vs' hvs => .pure (by rw [hx, hvs]))
    (fun n => (upholds_parts hderived hcfg hh hes n).bind fun x hx =>
      (upholds_ofTerms hts).bind fun vs hvs => .pure ⟨.inl hx.1.1, hx.2, hvs⟩) 1 hm
  refine hmerge.congr (fun n => ?_) fun n => ?_
  · simp only [normalByGroups, bind_assoc, pure_bind]
  · simp only [normalByParts, parts, List.mapM_append, bind_assoc, pure_bind]

/-- Applying a result to nothing leaves it as it is. -/
theorem appliedTerm_nil (hh : h.Canonical) (hm : m.heap.Poised) (n : Nat) :
    appliedTerm cfg h [] n m = normal cfg n h m := by
  rw [appliedTerm, normal]
  refine (upholds_eval hderived hcfg hh n).bind_congr hm fun f m' hf _ => ?_
  rw [List.mapM_nil, pure_bind, applied]
  rcases n with _ | _ | n
  · rfl
  · rfl
  · rw [apply_result hf (Nat.le_add_left 2 n), applyRest_nil, pure_bind]

/-- Applying the value of a term to suspended arguments, and evaluating the application of the term. -/
theorem appliedTerm_sameOutcome (hh : h.Canonical ∧ h.Closed) (hts : ∀ t ∈ ts, t.Canonical ∧ t.Closed)
    (hm : m.heap.Poised) : SameOutcome (appliedTerm cfg h ts) m (fun n => normal cfg n (h.apps ts)) m := by
  obtain ⟨hcan, hclosed⟩ := hh
  by_cases hnil : ts = []
  · subst hnil
    rw [Term.apps_nil]
    exact SameOutcome.congr ⟨fun _ => Iff.rfl, Iff.rfl⟩ (appliedTerm_nil hderived hcfg hcan hm) fun _ => rfl
  cases happ : h.isApp with
  | false =>
      rw [Term.apps_of_not_isApp happ hnil]
      exact (appliedTerm_later hm).trans (normal_app_sameOutcome hderived fun t ht => (hts t ht).2).symm
  | true =>
      -- the arguments that the term has already come first
      obtain ⟨h, es, rfl⟩ := Term.isApp_eq_true_iff.mp happ
      obtain ⟨-, -, hhcan, hescan⟩ := hcan
      have hescan := Term.canonicalArgs_iff.mp hescan
      have hesclosed : ∀ e ∈ es, e.Closed := Term.closedBelowArgs_iff.mp hclosed.2
      have hall : ∀ t ∈ es ++ ts, t.Closed :=
        List.forall_mem_append.mpr ⟨hesclosed, fun t ht => (hts t ht).2⟩
      rw [Term.app_apps]
      exact (appliedTerm_app_sameOutcome hderived hesclosed).trans
        ((normalByGroups_sameOutcome hderived hcfg hhcan hescan (fun t ht => (hts t ht).1) hm).trans
          (normal_app_sameOutcome hderived hall).symm)

end

/-- **Application is associative.**  If no step works on values, then wherever a host has got to:
* applying a value that it has to some of its values, and what comes out to others of them, is read back to what
  applying the value to all of them is read back to; or both break off for the same reason, or neither comes to an
  end;
* so it is with applying the value of a closed term to suspended closed terms and with evaluating the application of
  the term, be it an application itself or not;
* and so it is, as in the first case, with all the values that there are when a call is made, at any time; but a step
  that has not been fired is no argument. -/
theorem applications_associate {cfg : Setting β σ} (hcfg : cfg.Canonical) (hderived : cfg.Derived) :
    (∀ m vs, Conversation cfg m vs →
      (∀ f xs ys, f ∈ vs → (∀ x ∈ xs, x ∈ vs) → (∀ y ∈ ys, y ∈ vs) →
        SameOutcome (appliedTwice cfg f xs ys) m (applied cfg f (xs ++ ys)) m) ∧
      ∀ h ts, h.Canonical ∧ h.Closed → (∀ t ∈ ts, t.Canonical ∧ t.Closed) →
        SameOutcome (appliedTerm cfg h ts) m (fun n => normal cfg n (h.apps ts)) m) ∧
    ∀ n c m, Underway cfg n c m → ∀ f xs ys, c.Holds m f → (∀ x ∈ xs, c.Holds m x ∧ ¬ x.Unfired) →
      (∀ y ∈ ys, c.Holds m y ∧ ¬ y.Unfired) →
      SameOutcome (appliedTwice cfg f xs ys) m (applied cfg f (xs ++ ys)) m := by
  refine ⟨fun m vs hconv => ?_, fun n c m hc f xs ys hf hxs hys => ?_⟩
  · obtain ⟨hm, hvs⟩ := hconv.poised hcfg hderived
    refine ⟨fun f xs ys hf hxs hys => ?_, fun h ts hh hts => appliedTerm_sameOutcome hderived hcfg hh hts hm⟩
    exact appliedTwice_sameOutcome hcfg hderived hm (.inl (hvs f hf)) (fun x hx => hvs x (hxs x hx))
      fun y hy => hvs y (hys y hy)
  · have hm := (hc.poised hcfg hderived).2
    have hpoised {v : Value β σ} (hv : c.Holds m v ∧ ¬ v.Unfired) : v.Poised :=
      (hc.applicable hcfg hderived hv.1).poised hv.2
    exact appliedTwice_sameOutcome hcfg hderived hm (hc.applicable hcfg hderived hf)
      (fun x hx => hpoised (hxs x hx)) fun y hy => hpoised (hys y hy)

/-- A function of one argument that gives another one, which adds its own argument to that. -/
def curriedSum : Term Unit Unit := .lam 1 (.lam 1 (.app (.const "add") [.bvar 1, .bvar 0]))

/-- The curried sum takes two summands at once, or one after the other, or none of them at first; and an application
of it to one summand takes the other one. -/
theorem applications_associate_curriedSum : ∃ f m,
    eval adding 10 curriedSum { world := {} } = .ok f m ∧
    Settles (appliedTwice adding f [.lit (.int 20)] [.lit (.int 22)]) m (.ok (.lit (.int 42))) ∧
    Settles (appliedTwice adding f [] [.lit (.int 20), .lit (.int 22)]) m (.ok (.lit (.int 42))) ∧
    Settles (appliedTerm adding (.app curriedSum [.lit (.int 20)]) [.lit (.int 22)]) m (.ok (.lit (.int 42))) := by
  obtain ⟨code, m₀, f, m, hcode, hperform, heval, happlied, hnormal⟩ :
      ∃ code m₀ f m, inHeap (·.reserve (compile adding.steps curriedSum)) { world := {} } = .ok code m₀ ∧
        (Call.run code []).perform adding 10 m₀ = .ok (.value f) m ∧
        eval adding 10 curriedSum { world := {} } = .ok f m ∧
        Settles (applied adding f [.lit (.int 20), .lit (.int 22)]) m (.ok (.lit (.int 42))) ∧
        Settles (fun n => normal adding n (.app curriedSum [.lit (.int 20), .lit (.int 22)])) m
          (.ok (.lit (.int 42))) := by
    refine ⟨_, _, _, _, rfl, rfl, rfl, ⟨10, fun n hn => ?_⟩, ⟨12, fun n hn => ?_⟩⟩
    all_goals
      obtain ⟨n, rfl⟩ := Nat.exists_eq_add_of_le' hn
      rfl
  have hcan : curriedSum.Canonical := by simp [curriedSum, Term.Canonical, Term.CanonicalArgs, Term.isApp]
  have hclosed : curriedSum.Closed := by simp [curriedSum, Term.Closed, Term.ClosedBelow, Term.ClosedBelowArgs]
  have hconv : Conversation adding m [.lit (.int 22), .lit (.int 20), f] := by
    have hconv := Conversation.answered (.start {}) (.eval hcan hcode) hperform
    exact (hconv.suspended (t := .lit (.int 20)) trivial rfl).suspended (t := .lit (.int 22)) trivial rfl
  have hassoc := applications_associate canonical_adding (fun _ => rfl)
  obtain ⟨hvalues, hterms⟩ := hassoc.1 m _ hconv
  have hlit {i : Int} : ¬ (Value.lit (.int i) : Value Unit Unit).Unfired := by
    rintro ⟨t, s, -, h⟩
    cases h
  refine ⟨f, m, heval, ((hvalues f _ _ ?_ ?_ ?_).1 _).mpr happlied, ?_, ?_⟩
  · simp
  · simp
  · simp
  · -- while it is applied to both, the same holds for the values at work
    have hunderway : Underway adding 10 (.apply f [.lit (.int 20), .lit (.int 22)]) m :=
      .asked hconv (.apply (by simp) (by simp))
    have hholds {v : Value Unit Unit} (hv : v ∈ [f, .lit (.int 20), .lit (.int 22)]) :
        (Call.apply f [.lit (.int 20), .lit (.int 22)]).Holds m v := ⟨v, .inl hv, .refl⟩
    refine ((hassoc.2 _ _ _ hunderway f [] _ (hholds (by simp)) (List.forall_mem_nil _) ?_).1 _).mpr happlied
    intro y hy
    refine ⟨hholds (List.mem_cons_of_mem f hy), ?_⟩
    rcases List.mem_cons.mp hy with rfl | hy
    · exact hlit
    · obtain rfl := List.mem_singleton.mp hy
      exact hlit
  · have happ : (Term.app curriedSum [.lit (.int 20)]).Canonical ∧ (Term.app curriedSum [.lit (.int 20)]).Closed :=
      ⟨⟨rfl, List.cons_ne_nil _ _, hcan, trivial, trivial⟩, ⟨hclosed, trivial, trivial⟩⟩
    refine ((hterms _ [.lit (.int 22)] happ fun t ht => ?_).1 _).mpr hnormal
    obtain rfl := List.mem_singleton.mp ht
    exact ⟨trivial, trivial⟩

end TacticEngine.Machine
