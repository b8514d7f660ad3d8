/-
# TacticEngine.Proofs.Machine.Splitting -- arguments given in one go or in two.

A value may be applied to some arguments first and its result to the others, or it may be applied to all of them at
once.  The machine then splits what is held and what is left in different places: a closure or a step that has too few
arguments collects them, one that has enough hands over the rest, and so may what it gives.  Wherever the splits are,
the same happens, up to fuel (`splitsAt`, `mergesAt`).

Both are inductions on the fuel, the one from all arguments at once to the two groups and the other one back.  Given
the first group, a value either only collects it, and then nothing has happened yet (`Collects`); or it does something
that has a value, and this one gets what is left of the first group before it gets the second one (`HandsOn`).  A step
that is fired may also decline.
-/
import TacticEngine.Proofs.Likeness.Equality
import TacticEngine.Proofs.Likeness.Machine
import TacticEngine.Proofs.Machine.Source
import TacticEngine.Proofs.Run.Outcome

namespace TacticEngine.Machine

variable {β σ α : Type}

/-! ## More fuel -/

/-- Nothing differs, and the heap keeps no suspended computations; nothing is claimed about an evaluation that used up
its fuel. -/
abbrev lasting (β σ : Type) : Tie (Halt β) (Memory β σ) (Halt β) (Memory β σ) :=
  withHeaps (Likeness.equal β σ) (fun _ => True) (Tie.same β σ)

/-- The same value, not suspended. -/
def SameForced (v v' : Value β σ) : Prop := v = v' ∧ v.isThunk = false

theorem SameForced.pure {v : Value β σ} (hv : v.isThunk = false) :
    (lasting β σ).Follows SameForced (Pure.pure v) fun _ _ => Pure.pure v :=
  .pure ⟨rfl, hv⟩

/-- A setting is like itself. -/
theorem Setting.like_self (cfg : Setting β σ) :
    Setting.Like (Tie.same β σ) (Likeness.equal β σ) (fun _ => True) cfg cfg fun _ => cfg.interp where
  lookup c _ := rel_self (fun _ => rfl) (cfg.steps.lookup c)
  plain_of_lookup _ _ _ := trivial
  const_of_plain _ _ := trivial
  unfoldable c _ := rel_self (Term.alike_equal 0) (cfg.env.unfoldable c)
  interp := by
    rintro s _ ts ts' rfl hts
    obtain rfl := hts.eq Likeness.equal_strict
    refine (Lasts.const _).imp ?_
    rintro t? _ rfl
    exact rel_self (Term.alike_equal 0) t?
  direct := by
    rintro s _ rfl
    cases cfg.direct s.body with
    | none => exact .none
    | some f =>
        refine .some fun vs vs' hvs => ?_
        obtain rfl := hvs.eq Likeness.equal_strict
        refine (Lasts.const _).imp ?_
        rintro v? _ rfl
        exact rel_self Value.alike_equal v?
  unbound := .inr fun _ => rfl

section

variable (cfg : Setting β σ) (n : Nat)

theorem lastAt : AlikeAt (Tie.same β σ) (Likeness.equal β σ) (fun _ => True) cfg cfg (fun _ => cfg.interp) n :=
  alikeAt fair_same keepsArity_equal cfg.like_self n

variable {cfg n}

theorem SameForced.of_alike {act : Eval β σ (Value β σ)} {F : Family (Halt β) (Memory β σ) (Value β σ)}
    (h : (lasting β σ).Follows (Value.AlikeForced (Likeness.equal β σ) fun _ => True) act F) :
    (lasting β σ).Follows SameForced act F :=
  h.imp fun _ _ hv => ⟨hv.1.eq Likeness.equal_strict, hv.2⟩

theorem run_lasts (code : Code β σ) (frame : List (Value β σ)) :
    (lasting β σ).Follows SameForced (run cfg n code frame) fun _ m => run cfg m code frame :=
  SameForced.of_alike ((lastAt cfg n).run (Code.alike_equal _ code) (Value.alikeArgs_equal frame))

theorem force_lasts (v : Value β σ) :
    (lasting β σ).Follows SameForced (force cfg n v) fun _ m => force cfg m v :=
  SameForced.of_alike ((lastAt cfg n).force (Value.alike_equal v))

theorem applyForced_lasts (f : Value β σ) (args : List (Value β σ)) :
    (lasting β σ).Follows SameForced (applyForced cfg n f args) fun _ m => applyForced cfg m f args :=
  SameForced.of_alike ((lastAt cfg n).applyForced (Value.alike_equal f) (Value.alikeArgs_equal args))

theorem applyRest_lasts {v : Value β σ} (hv : v.isThunk = false) (rest : List (Value β σ)) :
    (lasting β σ).Follows SameForced (applyRest cfg n v rest) fun _ m => applyRest cfg m v rest :=
  SameForced.of_alike ((lastAt cfg n).applyRest ⟨Value.alike_equal v, hv⟩ (Value.alikeArgs_equal rest))

theorem readback_lasts (v : Value β σ) :
    (lasting β σ).Follows Eq (readback cfg n v) fun _ m => readback cfg m v :=
  ((lastAt cfg n).readback (Value.alike_equal v)).imp fun _ _ ht => ht.eq Likeness.equal_strict

theorem readbacks_last (vs : List (Value β σ)) :
    (lasting β σ).Follows Eq (vs.mapM (readback cfg n)) fun _ m => vs.mapM (readback cfg m) := by
  refine (Tie.Follows.mapM (fun v v' (hv : v = v') => ?_) (List.forall₂_same.mpr fun v _ => rfl)).imp
    fun ts ts' hts => List.forall₂_eq_eq_eq ▸ hts
  subst hv
  exact readback_lasts v

theorem fire_lasts (s : Step σ) (args : List (Value β σ)) :
    (lasting β σ).Follows Eq (fire cfg (readback cfg n) s args)
      fun _ m => fire cfg (readback cfg m) s args := by
  refine (fire_alike (lastAt cfg n) cfg.like_self fair_same (s := s) rfl (Value.alikeArgs_equal args)).imp
    fun v? v?' hv => ?_
  cases hv with
  | none => rfl
  | some hv => rw [hv.eq Likeness.equal_strict]

end

/-- How much fuel there is to begin with makes no difference to what goes like an evaluation. -/
theorem Follows.later {T : Tie (Halt β) (Memory β σ) (Halt β) (Memory β σ)} {V : α → α → Prop} {act : Eval β σ α}
    {F : Nat → Eval β σ α} (c : Nat) (h : T.Follows V act fun _ m => F m) :
    T.Follows V act fun _ m => F (m + c) :=
  h.shift 0 c fun _ _ => rfl

/-! ## Collecting arguments -/

/-- Given the arguments, the value only collects them, and is `g` then. -/
structure Collects (cfg : Setting β σ) (f : Value β σ) (xs : List (Value β σ)) (g : Value β σ) : Prop where
  forced : g.isThunk = false
  apply : ∀ n, applyForced cfg (n + 1) f xs = pure g
  append : ∀ n ys, applyForced cfg (n + 1) f (xs ++ ys) = applyForced cfg (n + 1) g ys

section

variable {cfg : Setting β σ} {n : Nat}

theorem collects_lam {arity : Nat} {src : Term β σ} {body : Code β σ} {frame held xs : List (Value β σ)}
    (h : (held ++ xs).length < arity) :
    Collects cfg (.lam arity src body frame held) xs (.lam arity src body frame (held ++ xs)) where
  forced := rfl
  apply n := by
    rw [applyForced]
    exact if_pos h
  append n ys := by
    rw [applyForced, applyForced]
    simp only [List.append_assoc]

theorem collects_step {t : Term β σ} {s : Step σ} {held xs : List (Value β σ)}
    (h : (held ++ xs).length < s.arity) : Collects cfg (.step t s held) xs (.step t s (held ++ xs)) where
  forced := rfl
  apply n := by
    rw [applyForced]
    exact if_pos h
  append n ys := by
    rw [applyForced, applyForced]
    simp only [List.append_assoc]

theorem collects_ctor (c : String) (held xs : List (Value β σ)) :
    Collects cfg (.ctor c held) xs (.ctor c (held ++ xs)) where
  forced := rfl
  apply n := by rw [applyForced]
  append n ys := by rw [applyForced, applyForced, List.append_assoc]

theorem collects_neutral (t : Term β σ) (held xs : List (Value β σ)) :
    Collects cfg (.neutral t held) xs (.neutral t (held ++ xs)) where
  forced := rfl
  apply n := by rw [applyForced]
  append n ys := by rw [applyForced, applyForced, List.append_assoc]

theorem collects_stuck (s : Value β σ) (brs : List (Branch (Term β σ))) (frame held xs : List (Value β σ)) :
    Collects cfg (.stuck s brs frame held) xs (.stuck s brs frame (held ++ xs)) where
  forced := rfl
  apply n := by rw [applyForced]
  append n ys := by rw [applyForced, applyForced, List.append_assoc]

/-- What takes no arguments is a term that does not evaluate further when it gets some. -/
theorem collects_atom {v : Value β σ} {t : Term β σ} (hv : v.isThunk = false)
    (happly : ∀ n xs, applyForced cfg (n + 1) v xs = pure (if xs.isEmpty then v else .neutral t xs))
    (xs : List (Value β σ)) : Collects cfg v xs (if xs.isEmpty then v else .neutral t xs) where
  forced := by
    cases xs with
    | nil => exact hv
    | cons => rfl
  apply n := happly n xs
  append n ys := by
    cases xs with
    | nil => rfl
    | cons x xs =>
        rw [happly]
        simp only [List.cons_append, List.isEmpty_cons, Bool.false_eq_true, if_false, applyForced]

/-- What has collected its arguments stays as it is without further ones. -/
theorem Collects.idle {f g : Value β σ} {xs : List (Value β σ)} (h : Collects cfg f xs g) (n : Nat) :
    applyForced cfg (n + 1) g [] = pure g := by
  rw [← h.append, List.append_nil, h.apply]

theorem Collects.follows {f g : Value β σ} {xs : List (Value β σ)} (h : Collects cfg f xs g) (c : Nat)
    (ys : List (Value β σ)) : (lasting β σ).Follows SameForced (applyForced cfg (n + 1) f (xs ++ ys))
      fun _ m => applyForced cfg m f xs >>= fun g => applyRest cfg (m + c) g ys := by
  refine .succ ?_
  simp only [h.apply, h.append, pure_bind, Nat.add_right_comm _ 1 c]
  cases ys with
  | nil =>
      simp only [h.idle, applyRest_nil]
      exact SameForced.pure h.forced
  | cons y ys =>
      simp only [applyRest_cons]
      exact Follows.later c (applyForced_lasts g (y :: ys))

theorem Collects.followed {f g : Value β σ} {xs : List (Value β σ)} (h : Collects cfg f xs g) (k : Nat)
    (ys : List (Value β σ)) : (lasting β σ).Follows SameForced
      (applyForced cfg (n + 1) f xs >>= fun g => applyRest cfg k g ys)
      fun _ m => applyForced cfg m f (xs ++ ys) := by
  refine .succ ?_
  simp only [h.apply, h.append, pure_bind]
  cases k with
  | zero => exact .mute fun _ => rfl
  | succ k =>
      cases ys with
      | nil =>
          simp only [h.idle, applyRest_nil]
          exact SameForced.pure h.forced
      | cons y ys =>
          simp only [applyRest_cons]
          exact Follows.later 1 (applyForced_lasts g (y :: ys))

/-! ## Handing on arguments -/

/-- A term that does not evaluate further takes all arguments that are left. -/
theorem applyRest_neutral (n : Nat) (t : Term β σ) (held ys : List (Value β σ)) :
    applyRest cfg (n + 2) (.neutral t held) ys = pure (.neutral t (held ++ ys)) := by
  cases ys with
  | nil => rw [applyRest_nil, List.append_nil]
  | cons y ys => rw [applyRest_cons, applyForced]

theorem applyRest_neutral_follows (k : Nat) (t : Term β σ) (held ys : List (Value β σ)) :
    (lasting β σ).Follows SameForced (applyRest cfg k (.neutral t held) ys)
      fun _ _ => pure (.neutral t (held ++ ys)) :=
  (applyRest_lasts rfl ys).shift 0 2 fun _ n => (applyRest_neutral n t held ys).symm

theorem applyRest_neutral_followed (c : Nat) (t : Term β σ) (held ys : List (Value β σ)) :
    (lasting β σ).Follows SameForced (pure (.neutral t (held ++ ys)))
      fun _ m => applyRest cfg (m + c) (.neutral t held) ys := by
  refine Follows.later (F := fun m => applyRest cfg m (.neutral t held) ys) c ?_
  have hpure : (lasting β σ).Follows SameForced (pure (.neutral t (held ++ ys))) _ :=
    SameForced.pure rfl
  exact hpure.shift 2 0 fun _ n => applyRest_neutral n t held ys

/-- The value does something that has a value, and hands on to that one what is left of the arguments; further
arguments come after that. -/
structure HandsOn (cfg : Setting β σ) (f : Value β σ) (xs : List (Value β σ)) (act : Nat → Eval β σ (Value β σ))
    (left : List (Value β σ)) : Prop where
  apply : ∀ n ys, applyForced cfg (n + 1) f (xs ++ ys) = act n >>= fun v => applyRest cfg n v (left ++ ys)
  lasts : ∀ n, (lasting β σ).Follows SameForced (act n) fun _ m => act m

/-- Without further arguments, the value of what it does gets what is left. -/
theorem HandsOn.apply_left {f : Value β σ} {xs left : List (Value β σ)} {act : Nat → Eval β σ (Value β σ)}
    (h : HandsOn cfg f xs act left) (n : Nat) :
    applyForced cfg (n + 1) f xs = act n >>= fun v => applyRest cfg n v left := by
  simpa only [List.append_nil] using h.apply n []

theorem handsOn_lam {arity : Nat} {src : Term β σ} {body : Code β σ} {frame held xs : List (Value β σ)}
    (h : arity ≤ (held ++ xs).length) :
    HandsOn cfg (.lam arity src body frame held) xs
      (fun n => run cfg n body (((held ++ xs).take arity).reverse ++ frame)) ((held ++ xs).drop arity) where
  apply n ys := by
    have hmore : ¬ (held ++ xs ++ ys).length < arity := by
      rw [List.length_append]
      omega
    rw [applyForced]
    simp only [← List.append_assoc held, List.take_append_of_le_length h, List.drop_append_of_le_length h]
    rw [if_neg hmore]
  lasts n := run_lasts _ _

theorem handsOn_thunk (slot : Nat) (src : Term β σ) (frame : List (Value β σ)) (code? : Option (Code β σ))
    (xs : List (Value β σ)) :
    HandsOn cfg (.thunk slot src frame code?) xs (fun n => force cfg n (.thunk slot src frame code?)) xs where
  apply n ys := by rw [applyForced]
  lasts n := force_lasts _

/-- A step that has enough arguments. -/
theorem applyForced_step {t : Term β σ} {s : Step σ} {held xs : List (Value β σ)}
    (h : s.arity ≤ (held ++ xs).length) (n : Nat) (ys : List (Value β σ)) :
    applyForced cfg (n + 1) (.step t s held) (xs ++ ys) = (do
      match ← fire cfg (readback cfg n) s ((held ++ xs).take s.arity) with
      | some v => do
        let v ← force cfg n v
        applyRest cfg n v ((held ++ xs).drop s.arity ++ ys)
      | none => do
        let terms ← ((held ++ xs).take s.arity).mapM (readback cfg n)
        return .neutral (t.apps terms) ((held ++ xs).drop s.arity ++ ys)) := by
  have hmore : ¬ (held ++ xs ++ ys).length < s.arity := by
    rw [List.length_append]
    omega
  rw [applyForced]
  simp only [← List.append_assoc held, List.take_append_of_le_length h, List.drop_append_of_le_length h]
  exact if_neg hmore

/-- What a value does with arguments: it collects them, or it hands them on, or it is a step that is fired. -/
theorem takes (cfg : Setting β σ) (f : Value β σ) (xs : List (Value β σ)) :
    (∃ g, Collects cfg f xs g) ∨ (∃ act left, HandsOn cfg f xs act left) ∨
      ∃ t s held, f = .step t s held ∧ s.arity ≤ (held ++ xs).length := by
  cases f with
  | lam arity src body frame held =>
      rcases Nat.lt_or_ge (held ++ xs).length arity with h | h
      · exact .inl ⟨_, collects_lam h⟩
      · exact .inr (.inl ⟨_, _, handsOn_lam h⟩)
  | step t s held =>
      rcases Nat.lt_or_ge (held ++ xs).length s.arity with h | h
      · exact .inl ⟨_, collects_step h⟩
      · exact .inr (.inr ⟨t, s, held, rfl, h⟩)
  | ctor c held => exact .inl ⟨_, collects_ctor c held xs⟩
  | neutral t held => exact .inl ⟨_, collects_neutral t held xs⟩
  | stuck s brs frame held => exact .inl ⟨_, collects_stuck s brs frame held xs⟩
  | lit l => exact .inl ⟨_, collects_atom rfl (fun n xs => by rw [applyForced]) xs⟩
  | blob b => exact .inl ⟨_, collects_atom rfl (fun n xs => by rw [applyForced]) xs⟩
  | thunk slot src frame code? => exact .inr (.inl ⟨_, _, handsOn_thunk slot src frame code? xs⟩)

end

/-! ## In one go and in two -/

/-- With a given amount of fuel, the arguments in one go lead to what they lead to in two. -/
structure SplitsAt (cfg : Setting β σ) (n : Nat) : Prop where
  applyForced : ∀ f xs ys (c : Nat), (lasting β σ).Follows SameForced (Machine.applyForced cfg n f (xs ++ ys))
    fun _ m => Machine.applyForced cfg m f xs >>= fun g => Machine.applyRest cfg (m + c) g ys
  applyRest : ∀ {v} xs ys (c : Nat), v.isThunk = false →
    (lasting β σ).Follows SameForced (Machine.applyRest cfg n v (xs ++ ys))
      fun _ m => Machine.applyRest cfg m v xs >>= fun g => Machine.applyRest cfg (m + c) g ys

/-- With a given amount of fuel for the first group, the arguments in two go lead to what they lead to in one. -/
structure MergesAt (cfg : Setting β σ) (n : Nat) : Prop where
  applyForced : ∀ f xs ys (k : Nat), (lasting β σ).Follows SameForced
    (Machine.applyForced cfg n f xs >>= fun g => Machine.applyRest cfg k g ys)
    fun _ m => Machine.applyForced cfg m f (xs ++ ys)
  applyRest : ∀ {v} xs ys (k : Nat), v.isThunk = false → (lasting β σ).Follows SameForced
    (Machine.applyRest cfg n v xs >>= fun g => Machine.applyRest cfg k g ys)
    fun _ m => Machine.applyRest cfg m v (xs ++ ys)

section

variable {cfg : Setting β σ} {n : Nat}

theorem SplitsAt.applyForced_succ (ih : SplitsAt cfg n) (f : Value β σ) (xs ys : List (Value β σ)) (c : Nat) :
    (lasting β σ).Follows SameForced (Machine.applyForced cfg (n + 1) f (xs ++ ys))
      fun _ m => Machine.applyForced cfg m f xs >>= fun g => Machine.applyRest cfg (m + c) g ys := by
  rcases takes cfg f xs with ⟨g, hg⟩ | ⟨act, left, hact⟩ | ⟨t, s, held, rfl, h⟩
  · exact hg.follows c ys
  · -- what is left of the first group is handed on together with the second one, by the induction hypothesis
    refine .succ ?_
    simp only [hact.apply, hact.apply_left, bind_assoc, Nat.add_right_comm _ 1 c]
    refine (hact.lasts n).bind fun v v' hv => ?_
    obtain ⟨rfl, hv⟩ := hv
    exact ih.applyRest _ ys (c + 1) hv
  · refine .succ ?_
    have happly (m : Nat) : Machine.applyForced cfg (m + 1) (.step t s held) (xs ++ []) = _ := applyForced_step h m []
    simp only [List.append_nil] at happly
    simp only [applyForced_step h, happly, bind_assoc, Nat.add_right_comm _ 1 c]
    refine (fire_lasts s _).bind fun v? v?' hv => ?_
    subst hv
    cases v? with
    | some v =>
        simp only [bind_assoc]
        refine (force_lasts v).bind fun u u' hu => ?_
        obtain ⟨rfl, hu⟩ := hu
        exact ih.applyRest _ ys (c + 1) hu
    | none =>
        -- a step that declines leaves a term that takes whatever it gets, so no hypothesis is needed here
        simp only [bind_assoc, pure_bind]
        refine (readbacks_last _).bind fun ts ts' hts => ?_
        subst hts
        exact applyRest_neutral_followed (c + 1) _ _ ys

theorem SplitsAt.applyRest_succ (ih : SplitsAt cfg n) {v : Value β σ} (xs ys : List (Value β σ)) (c : Nat)
    (hv : v.isThunk = false) : (lasting β σ).Follows SameForced (Machine.applyRest cfg (n + 1) v (xs ++ ys))
      fun _ m => Machine.applyRest cfg m v xs >>= fun g => Machine.applyRest cfg (m + c) g ys := by
  refine .succ ?_
  simp only [Nat.add_right_comm _ 1 c]
  cases xs with
  | nil =>
      simp only [applyRest_nil, pure_bind]
      exact Follows.later (c + 1) (applyRest_lasts hv ys)
  | cons x xs =>
      simp only [applyRest_cons, List.cons_append]
      exact ih.applyForced v (x :: xs) ys (c + 1)

theorem MergesAt.applyForced_succ (ih : MergesAt cfg n) (f : Value β σ) (xs ys : List (Value β σ)) (k : Nat) :
    (lasting β σ).Follows SameForced
      (Machine.applyForced cfg (n + 1) f xs >>= fun g => Machine.applyRest cfg k g ys)
      fun _ m => Machine.applyForced cfg m f (xs ++ ys) := by
  -- as in the other direction, but it is the first group's fuel that the induction is on
  rcases takes cfg f xs with ⟨g, hg⟩ | ⟨act, left, hact⟩ | ⟨t, s, held, rfl, h⟩
  · exact hg.followed k ys
  · refine .succ ?_
    simp only [hact.apply, hact.apply_left, bind_assoc]
    refine (hact.lasts n).bind fun v v' hv => ?_
    obtain ⟨rfl, hv⟩ := hv
    exact ih.applyRest _ ys k hv
  · refine .succ ?_
    have happly : Machine.applyForced cfg (n + 1) (.step t s held) (xs ++ []) = _ := applyForced_step h n []
    simp only [List.append_nil] at happly
    simp only [applyForced_step h, happly, bind_assoc]
    refine (fire_lasts s _).bind fun v? v?' hv => ?_
    subst hv
    cases v? with
    | some v =>
        simp only [bind_assoc]
        refine (force_lasts v).bind fun u u' hu => ?_
        obtain ⟨rfl, hu⟩ := hu
        exact ih.applyRest _ ys k hu
    | none =>
        simp only [bind_assoc, pure_bind]
        refine (readbacks_last _).bind fun ts ts' hts => ?_
        subst hts
        exact applyRest_neutral_follows k _ _ ys

theorem MergesAt.applyRest_succ (ih : MergesAt cfg n) {v : Value β σ} (xs ys : List (Value β σ)) (k : Nat)
    (hv : v.isThunk = false) : (lasting β σ).Follows SameForced
      (Machine.applyRest cfg (n + 1) v xs >>= fun g => Machine.applyRest cfg k g ys)
      fun _ m => Machine.applyRest cfg m v (xs ++ ys) := by
  cases xs with
  | nil =>
      simp only [applyRest_nil, pure_bind]
      exact applyRest_lasts hv ys
  | cons x xs =>
      refine .succ ?_
      simp only [applyRest_cons, List.cons_append]
      exact ih.applyForced v (x :: xs) ys k

theorem splitsAt (cfg : Setting β σ) (n : Nat) : SplitsAt cfg n := by
  induction n with
  | zero => exact ⟨fun _ _ _ _ => .mute fun _ => rfl, fun _ _ _ _ => .mute fun _ => rfl⟩
  | succ n ih => exact ⟨ih.applyForced_succ, ih.applyRest_succ⟩

theorem mergesAt (cfg : Setting β σ) (n : Nat) : MergesAt cfg n := by
  induction n with
  | zero => exact ⟨fun _ _ _ _ => .mute fun _ => rfl, fun _ _ _ _ => .mute fun _ => rfl⟩
  | succ n ih => exact ⟨ih.applyForced_succ, ih.applyRest_succ⟩

/-! ## Applications -/

theorem apply_lasts (f : Value β σ) (args : List (Value β σ)) :
    (lasting β σ).Follows SameForced (apply cfg n f args) fun _ m => apply cfg m f args :=
  SameForced.of_alike ((lastAt cfg n).apply (Value.alike_equal f) (Value.alikeArgs_equal args))

/-- An application to all arguments is followed in two. -/
theorem apply_splits (f : Value β σ) (xs ys : List (Value β σ)) (c : Nat) :
    (lasting β σ).Follows SameForced (apply cfg n f (xs ++ ys))
      fun _ m => apply cfg m f xs >>= fun g => applyRest cfg (m + c) g ys := by
  cases n with
  | zero => exact .mute fun _ => rfl
  | succ n =>
      refine .succ ?_
      simp only [apply, bind_assoc, Nat.add_right_comm _ 1 c]
      refine (force_lasts f).bind fun g g' hg => ?_
      obtain ⟨rfl, -⟩ := hg
      exact (splitsAt cfg n).applyForced g xs ys (c + 1)

/-- An application in two is followed by one to all arguments. -/
theorem apply_merges (f : Value β σ) (xs ys : List (Value β σ)) (k : Nat) :
    (lasting β σ).Follows SameForced (apply cfg n f xs >>= fun g => applyRest cfg k g ys)
      fun _ m => apply cfg m f (xs ++ ys) := by
  cases n with
  | zero => exact .mute fun _ => rfl
  | succ n =>
      refine .succ ?_
      simp only [apply, bind_assoc]
      refine (force_lasts f).bind fun g g' hg => ?_
      obtain ⟨rfl, -⟩ := hg
      exact (mergesAt cfg n).applyForced g xs ys k

end

end TacticEngine.Machine
