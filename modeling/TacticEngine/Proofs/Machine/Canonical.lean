/-
# TacticEngine.Proofs.Machine.Canonical -- evaluation stays among canonical terms.

Both evaluations take terms apart and put others together: applications are flattened when a head becomes an
application, results of steps are applied to the arguments that are left, and values are read back head and
arguments.  What a value stands for is found in the sources that it keeps, those of its code included, so
`Value.Canonical` asks for canonical form of all of them.

If definitions are canonical and steps take canonical terms to canonical terms, then everything that either
evaluation makes of canonical terms is canonical, and so is everything that values are written as
(`canonical_kept`).
-/
import TacticEngine.Proofs.Agreement.Functional
import TacticEngine.Proofs.Likeness.Equality
import TacticEngine.Proofs.Likeness.Machine
import TacticEngine.Proofs.Machine.Calls
import TacticEngine.Proofs.Native.Data
import TacticEngine.Proofs.Term.Canonical

namespace TacticEngine

variable {β σ κ α : Type}

namespace Machine

/-! ## Canonical code and values -/

mutual
/-- The sources in code are canonical. -/
def Code.Canonical : Code β σ → Prop
  | .step t _ | .neutral t => t.Canonical
  | .app h args => h.Canonical ∧ Delayed.AllCanonical args
  | .lam _ src body => src.Canonical ∧ body.Canonical
  | .case s brs => s.Canonical ∧ Code.BranchesCanonical brs
  | .var _ | .const _ _ | .ctor _ | .lit _ | .blob _ => True

/-- The sources in arguments are canonical. -/
def Delayed.AllCanonical : List (Delayed β σ) → Prop
  | [] => True
  | .thunk src code :: ds => src.Canonical ∧ code.Canonical ∧ Delayed.AllCanonical ds
  | .var _ :: ds | .lit _ :: ds | .blob _ :: ds => Delayed.AllCanonical ds

/-- The sources of branches and those in their code are canonical. -/
def Code.BranchesCanonical : List (Branch (Term β σ × Code β σ)) → Prop
  | [] => True
  | ⟨_, (src, code)⟩ :: brs => src.Canonical ∧ code.Canonical ∧ Code.BranchesCanonical brs
end

mutual
/-- The sources in a value are canonical. -/
def Value.Canonical : Value β σ → Prop
  | .ctor _ args => Value.AllCanonical args
  | .lam _ src body frame held =>
      src.Canonical ∧ body.Canonical ∧ Value.AllCanonical frame ∧ Value.AllCanonical held
  | .step t _ held | .neutral t held => t.Canonical ∧ Value.AllCanonical held
  | .stuck s brs frame args => s.Canonical ∧ Term.CanonicalBranches brs ∧ Value.AllCanonical frame ∧
      Value.AllCanonical args
  | .thunk _ src frame code? => src.Canonical ∧ Value.AllCanonical frame ∧
      ∀ code, code? = some code → code.Canonical
  | .lit _ | .blob _ => True

/-- The sources in values are canonical. -/
def Value.AllCanonical : List (Value β σ) → Prop
  | [] => True
  | v :: vs => v.Canonical ∧ Value.AllCanonical vs
end

/-- What is in the slots is canonical and no suspended computation. -/
def Heap.Canonical (h : Heap β σ) : Prop :=
  ∀ slot v, h.read slot = some v → v.Canonical ∧ v.isThunk = false

/-- What a call is about is canonical.  Surplus arguments are passed to a forced value. -/
def Call.Canonical : Call β σ → Prop
  | .run code frame => code.Canonical ∧ Value.AllCanonical frame
  | .unfold _ => True
  | .force v | .readback v => v.Canonical
  | .apply f args | .applyForced f args => f.Canonical ∧ Value.AllCanonical args
  | .applyRest v rest => (v.Canonical ∧ v.isThunk = false) ∧ Value.AllCanonical rest

/-- What a call gives is canonical, and values are forced. -/
def Reply.Canonical : Reply β σ → Prop
  | .value v => v.Canonical ∧ v.isThunk = false
  | .term t => t.Canonical

/-- Definitions are canonical, and steps take canonical terms to canonical terms, and canonical values to
canonical values if they do not want them read back. -/
structure Setting.Canonical (cfg : Setting β σ) : Prop where
  /-- Definitions are canonical. -/
  unfoldable : ∀ c t, cfg.env.unfoldable c = some t → t.Canonical
  /-- Given canonical terms, a step gives a canonical term, if any. -/
  interp : ∀ s ts w t w', (∀ a ∈ ts, a.Canonical) →
    cfg.interp s cfg.env ts w = .ok (some t) w' → t.Canonical
  /-- Given canonical values, a step gives a canonical value, if any. -/
  direct : ∀ s f vs w v w', cfg.direct s = some f → Value.AllCanonical vs →
    f vs w = .ok (some v) w' → v.Canonical

/-! ## Canonical form as a likeness -/

/-- Code that is alike to itself, as canonical form wants it. -/
abbrev Code.Flat (k : Nat) : Code β σ → Code β σ → Prop :=
  Code.Alike (Likeness.flat β σ) (fun _ => True) k

/-- Values that are alike to themselves, as canonical form wants it. -/
abbrev Value.Flat : Value β σ → Value β σ → Prop := Value.Alike (Likeness.flat β σ) fun _ => True

mutual
theorem Code.Canonical.flat : ∀ (k : Nat) {c : Code β σ}, c.Canonical → c.Flat k c
  | _, .var _, _ => .var False.elim
  | _, .const _ _, _ => .const trivial
  | _, .step _ _, h => .step (Term.alike_flat_iff.mpr h) rfl
  | _, .ctor _, _ => .ctor
  | _, .neutral _, h => .neutral (Term.alike_flat_iff.mpr h)
  | _, .lit _, _ => .lit
  | _, .blob _, _ => .blob rfl
  | k, .app _ _, h => .app (h.1.flat k) (Delayed.AllCanonical.flat k h.2)
  | k, .lam n _ _, h => .lam (Term.alike_flat_iff.mpr h.1) (h.2.flat (k + n))
  | k, .case _ _, h => .case (h.1.flat k) (Code.BranchesCanonical.flat k h.2)

theorem Delayed.AllCanonical.flat : ∀ (k : Nat) {ds : List (Delayed β σ)}, Delayed.AllCanonical ds →
    Delayed.AlikeArgs (Likeness.flat β σ) (fun _ => True) k ds ds
  | _, [], _ => .nil
  | k, .var _ :: _, h => .cons (.var False.elim) (Delayed.AllCanonical.flat k h)
  | k, .lit _ :: _, h => .cons .lit (Delayed.AllCanonical.flat k h)
  | k, .blob _ :: _, h => .cons (.blob rfl) (Delayed.AllCanonical.flat k h)
  | k, .thunk _ _ :: _, h =>
      .cons (.thunk (Term.alike_flat_iff.mpr h.1) (h.2.1.flat k)) (Delayed.AllCanonical.flat k h.2.2)

theorem Code.BranchesCanonical.flat : ∀ (k : Nat) {brs : List (Branch (Term β σ × Code β σ))},
    Code.BranchesCanonical brs →
      Code.AlikeBranches (Likeness.flat β σ) (fun _ => True) k brs brs
  | _, [], _ => .nil
  | k, ⟨p, (_, _)⟩ :: _, h =>
      .cons (Term.alike_flat_iff.mpr h.1) (h.2.1.flat (k + p.binders))
        (Code.BranchesCanonical.flat k h.2.2)
end

mutual
theorem Value.Canonical.flat : ∀ {v : Value β σ}, v.Canonical → v.Flat v
  | .ctor _ _, h => .ctor (Value.AllCanonical.flat h)
  | .lit _, _ => .lit
  | .blob _, _ => .blob rfl
  | .lam _ _ _ _ _, h => .lam (Term.alike_flat_iff.mpr h.1) (h.2.1.flat _)
      (Value.AllCanonical.flat h.2.2.1) (Value.AllCanonical.flat h.2.2.2)
  | .step _ _ _, h => .step (Term.alike_flat_iff.mpr h.1) rfl (Value.AllCanonical.flat h.2)
  | .neutral _ _, h => .neutral (Term.alike_flat_iff.mpr h.1) (Value.AllCanonical.flat h.2)
  | .stuck _ _ _ _, h => .stuck h.1.flat (Term.alikeBranches_flat_iff.mpr h.2.1)
      (Value.AllCanonical.flat h.2.2.1) (Value.AllCanonical.flat h.2.2.2)
  | .thunk _ _ _ none, h => .unknown (Term.alike_flat_iff.mpr h.1) (Value.AllCanonical.flat h.2.1)
  | .thunk _ _ _ (some _), h => .thunk (Term.alike_flat_iff.mpr h.1) (Value.AllCanonical.flat h.2.1)
      ((h.2.2 _ rfl).flat _)

theorem Value.AllCanonical.flat : ∀ {vs : List (Value β σ)}, Value.AllCanonical vs →
    Value.AlikeArgs (Likeness.flat β σ) (fun _ => True) vs vs
  | [], _ => .nil
  | _ :: _, h => .cons h.1.flat (Value.AllCanonical.flat h.2)
end

section

variable {L : Likeness β σ} {plain : String → Prop}

mutual
theorem Code.Alike.canonical (hL : L.canonical) : ∀ {k : Nat} {c c' : Code β σ},
    Code.Alike L plain k c c' → c.Canonical
  | _, _, _, .step ht _ | _, _, _, .neutral ht => ht.canonical hL
  | _, _, _, .app h has => ⟨h.canonical hL, has.canonical hL⟩
  | _, _, _, .lam ht h => ⟨ht.canonical hL, h.canonical hL⟩
  | _, _, _, .case h hbrs => ⟨h.canonical hL, hbrs.canonical hL⟩
  | _, _, _, .var _ | _, _, _, .const _ | _, _, _, .ctor | _, _, _, .lit | _, _, _, .blob _ => trivial

theorem Delayed.AlikeArgs.canonical (hL : L.canonical) : ∀ {k : Nat} {ds ds' : List (Delayed β σ)},
    Delayed.AlikeArgs L plain k ds ds' → Delayed.AllCanonical ds
  | _, _, _, .nil => trivial
  | _, _, _, .cons (.thunk ht h) hds => ⟨ht.canonical hL, h.canonical hL, hds.canonical hL⟩
  | _, _, _, .cons (.var _) hds | _, _, _, .cons .lit hds | _, _, _, .cons (.blob _) hds =>
      hds.canonical hL

theorem Code.AlikeBranches.canonical (hL : L.canonical) : ∀ {k : Nat}
    {brs brs' : List (Branch (Term β σ × Code β σ))}, Code.AlikeBranches L plain k brs brs' →
      Code.BranchesCanonical brs
  | _, _, _, .nil => trivial
  | _, _, _, .cons ht h hbrs => ⟨ht.canonical hL, h.canonical hL, hbrs.canonical hL⟩
end

mutual
theorem Value.Alike.canonical (hL : L.canonical) : ∀ {v v' : Value β σ},
    Value.Alike L plain v v' → v.Canonical
  | _, _, .ctor hvs => hvs.canonical hL
  | _, _, .lam ht hc hfs hvs =>
      ⟨ht.canonical hL, hc.canonical hL, hfs.canonical hL, hvs.canonical hL⟩
  | _, _, .step ht _ hvs | _, _, .neutral ht hvs => ⟨ht.canonical hL, hvs.canonical hL⟩
  | _, _, .stuck hs hbrs hfs hvs =>
      ⟨hs.canonical hL, hbrs.canonicalBranches hL, hfs.canonical hL, hvs.canonical hL⟩
  | _, _, .unknown ht hfs => ⟨ht.canonical hL, hfs.canonical hL, nofun⟩
  | _, _, .thunk ht hfs hc =>
      ⟨ht.canonical hL, hfs.canonical hL, fun _ h => Option.some.inj h ▸ hc.canonical hL⟩
  | _, _, .lit | _, _, .blob _ => trivial

theorem Value.AlikeArgs.canonical (hL : L.canonical) : ∀ {vs vs' : List (Value β σ)},
    Value.AlikeArgs L plain vs vs' → Value.AllCanonical vs
  | _, _, .nil => trivial
  | _, _, .cons hv hvs => ⟨hv.canonical hL, hvs.canonical hL⟩
end

end

theorem Heap.Canonical.flat {h : Heap β σ} (hh : h.Canonical) :
    Heap.Alike (Likeness.flat β σ) (fun _ => True) h h := by
  refine ⟨rfl, fun slot => ?_⟩
  cases hv : h.read slot with
  | none => exact .none
  | some v => exact .some ⟨(hh slot v hv).1.flat, (hh slot v hv).2⟩

theorem Heap.Alike.canonical {h h' : Heap β σ}
    (hh : Heap.Alike (Likeness.flat β σ) (fun _ => True) h h') : h.Canonical := by
  intro slot v hv
  have hread := hh.read slot
  rw [hv] at hread
  generalize h'.read slot = v'? at hread
  cases hread with
  | some hv => exact ⟨hv.1.canonical trivial, hv.2⟩

/-! ## The machine -/

/-- A value with canonical sources stands for a canonical term. -/
theorem Value.Canonical.source {v : Value β σ} (hv : v.Canonical) {t : Term β σ}
    (ht : v.source? = some t) : t.Canonical :=
  Term.canonical_of_rel hv.flat.source? ht

/-- From a canonical heap, the evaluation gives a result with the property and leaves a canonical heap, also
where it breaks off; unless it uses up its fuel. -/
def Kept (U : α → Prop) (act : Eval β σ α) : Prop :=
  ∀ m, m.heap.Canonical → match act m with
    | .ok a m' => U a ∧ m'.heap.Canonical
    | .error e m' => e ≠ .exhausted → m'.heap.Canonical

section

variable {V : α → α → Prop} {U : α → Prop}

/-- An act goes like itself, whatever holds of its values. -/
theorem follows_self {act : Act β σ α} (h : ∀ w a w', act w = .ok a w' → V a a) :
    (Tie.same β σ).Follows V act fun _ _ => act := by
  apply Tie.Follows.const
  rintro w _ rfl
  cases hr : act w with
  | ok a w' => exact .ok (h w a w' hr) rfl
  | error e w' => exact .error rfl rfl

theorem Kept.of_follows {act : Eval β σ α} {F : Family (Halt β) (Memory β σ) α}
    (h : (withHeaps (Likeness.flat β σ) (fun _ => True) (Tie.same β σ)).Follows V act F)
    (hV : ∀ a a', V a a' → U a) : Kept U act := by
  intro m hm
  rcases h m m ⟨hm.flat, rfl⟩ with ⟨e, m', hr, he⟩ | ⟨r', -, hmatch⟩
  · rw [hr]
    intro hne
    exact absurd he hne
  · generalize act m = r at hmatch
    cases hmatch with
    | ok ha hs => exact ⟨hV _ _ ha, hs.1.canonical⟩
    | error _ hs => exact fun _ => hs.1.canonical
    | escape he => exact he.elim

theorem Kept.map {γ : Type} {W : γ → Prop} {act : Eval β σ α} {f : α → γ} (h : Kept U act)
    (hf : ∀ a, U a → W (f a)) : Kept W (do return f (← act)) := by
  intro m hm
  have hact := h m hm
  cases hr : act m with
  | ok a m' =>
      rw [hr] at hact
      rw [run_bind_ok hr]
      exact ⟨hf a hact.1, hact.2⟩
  | error e m' =>
      rw [hr] at hact
      rw [run_bind_error hr]
      exact hact

end

namespace Setting.Canonical

variable {cfg : Setting β σ} (h : cfg.Canonical)

include h

/-- The results of steps are canonical. -/
theorem follows_interp {s : Step σ} {ts : List (Term β σ)} (hts : ∀ a ∈ ts, a.Canonical) :
    (Tie.same β σ).Follows (Option.Rel ((Likeness.flat β σ).Alike 0)) (cfg.interp s.body cfg.env ts)
      fun _ _ => cfg.interp s.body cfg.env ts := by
  apply follows_self
  intro w t? w' hr
  cases t? with
  | none => exact .none
  | some t => exact .some (Term.alike_flat_iff.mpr (h.interp s.body ts w t w' hts hr))

/-- A canonical setting is like itself. -/
theorem like : Setting.Like (Tie.same β σ) (Likeness.flat β σ) (fun _ => True) cfg cfg
    fun _ => cfg.interp where
  lookup c _ := rel_self (fun _ => rfl) (cfg.steps.lookup c)
  plain_of_lookup _ _ _ := trivial
  const_of_plain _ _ := trivial
  unfoldable c _ := by
    cases ht : cfg.env.unfoldable c with
    | none => exact .none
    | some t => exact .some (Term.alike_flat_iff.mpr (h.unfoldable c t ht))
  interp := by
    rintro s _ ts ts' rfl hts
    obtain rfl := hts.eq Likeness.flat_strict
    exact h.follows_interp (Term.alikeArgs_flat_iff.mp hts)
  direct := by
    rintro s _ rfl
    cases hf : cfg.direct s.body with
    | none => exact .none
    | some f =>
        refine .some fun vs vs' hvs => ?_
        obtain rfl := hvs.eq Likeness.flat_strict
        apply follows_self
        intro w v? w' hr
        cases v? with
        | none => exact .none
        | some v => exact .some (h.direct _ f vs w v w' hf (hvs.canonical trivial) hr).flat
  unbound := .inr fun _ => rfl

theorem perform {c : Call β σ} (hc : c.Canonical) (n : Nat) :
    Kept Reply.Canonical (c.perform cfg n) := by
  have hat := alikeAt (fair_of_strict Likeness.flat_strict) (keepsArity_of_strict Likeness.flat_strict)
    h.like n
  have hvalue : ∀ v v' : Value β σ, Value.AlikeForced (Likeness.flat β σ) (fun _ => True) v v' →
      (Reply.value v).Canonical := fun v v' hv => ⟨hv.1.canonical trivial, hv.2⟩
  -- one case for each function of the machine
  cases c with
  | run code frame =>
      exact (Kept.of_follows (hat.run (hc.1.flat _) hc.2.flat) hvalue).map fun _ hv => hv
  | unfold c => exact (Kept.of_follows (hat.unfold (c := c) trivial) hvalue).map fun _ hv => hv
  | force v => exact (Kept.of_follows (hat.force (Value.Canonical.flat hc)) hvalue).map fun _ hv => hv
  | apply f args =>
      exact (Kept.of_follows (hat.apply hc.1.flat hc.2.flat) hvalue).map fun _ hv => hv
  | applyForced f args =>
      exact (Kept.of_follows (hat.applyForced hc.1.flat hc.2.flat) hvalue).map fun _ hv => hv
  | applyRest v rest =>
      exact (Kept.of_follows (hat.applyRest ⟨hc.1.1.flat, hc.1.2⟩ hc.2.flat) hvalue).map fun _ hv => hv
  | readback v =>
      exact (Kept.of_follows (hat.readback (Value.Canonical.flat hc)) fun t t' ht =>
        ht.canonical trivial).map fun _ ht => ht

theorem eval {t : Term β σ} (ht : t.Canonical) (n : Nat) :
    Kept (fun v => v.Canonical ∧ v.isThunk = false) (Machine.eval cfg n t) := by
  have hlike := h.like
  have hat := alikeAt (fair_of_strict Likeness.flat_strict) (keepsArity_of_strict Likeness.flat_strict)
    hlike n
  have hcode := compile_alike (k := 0) hlike.lookup hlike.plain_of_lookup (Term.alike_flat_iff.mpr ht)
  refine Kept.of_follows ((reserve_follows hcode).bind fun code code' hc => hat.run hc .nil)
    fun v v' hv => ?_
  exact ⟨hv.1.canonical trivial, hv.2⟩

end Setting.Canonical

theorem kept_ofTerm {t : Term β σ} (ht : t.Canonical) : Kept Value.Canonical (ofTerm t) :=
  Kept.of_follows (ofTerm_follows (Term.alike_flat_iff.mpr ht)) fun _ _ hv => hv.canonical trivial

/-! ## Reduction -/

theorem Setting.Canonical.norm {cfg : Setting β σ} (h : cfg.Canonical) {flags : Flags} {n : Nat}
    {t u : Term β σ} {w w' : World β σ} (ht : t.Canonical)
    (hr : Reduce.norm ⟨cfg.steps, flags, cfg.env, cfg.interp⟩ n t w = .ok u w') : u.Canonical := by
  have hlike := h.like
  have hreduce : Reduce.Setting.Like (Tie.same β σ) (Likeness.flat β σ)
      ⟨cfg.steps, flags, cfg.env, cfg.interp⟩ ⟨cfg.steps, flags, cfg.env, cfg.interp⟩
      fun _ => cfg.interp :=
    ⟨rfl, hlike.lookup, fun c _ _ => hlike.unfoldable c trivial, hlike.interp⟩
  have hnorm := (Reduce.alikeAt (fair_of_strict Likeness.flat_strict)
    (keepsArity_of_strict Likeness.flat_strict) hreduce n).norm (Term.alike_flat_iff.mpr ht)
  rcases hnorm w w rfl with ⟨e, w₁, he, -⟩ | ⟨r, -, hmatch⟩
  · rw [hr] at he
    cases he
  · rw [hr] at hmatch
    cases hmatch with
    | ok hu _ => exact hu.canonical trivial
    | escape he => exact he.elim

end Machine

/-! ## All of it -/

/-- If definitions are canonical and steps take canonical terms to canonical terms, then:
* applying, binding, shifting and instantiating give canonical terms, also within the range of indices;
* values with canonical terms in them are written as canonical terms;
* the normal form of a canonical term is canonical, whatever reduction may do;
* evaluating or suspending a canonical term gives a canonical value, every call of the machine on canonical
  values gives canonical values and terms, and the heap stays canonical; and the term that a canonical value
  stands for is canonical;
* arguments may be given in one go or in two;
* shifting and instantiating go through an application argument by argument, whatever becomes of the
  head. -/
theorem canonical_kept {cfg : Machine.Setting β σ} (h : cfg.Canonical) :
    (∀ (t : Term β σ) as, t.Canonical → (∀ a ∈ as, a.Canonical) →
      (t.apps as).Canonical ∧ (∀ n, (Term.lams n t).Canonical) ∧
      (∀ amount cutoff, (t.shift amount cutoff).Canonical ∧
        ∀ u, t.shift? amount cutoff = some u → u.Canonical) ∧
      (∀ cutoff, (t.instantiate cutoff as).Canonical ∧
        ∀ u, t.instantiate? cutoff as = some u → u.Canonical) ∧
      (t.beta as).Canonical ∧ ∀ u, t.beta? as = some u → u.Canonical) ∧
    (∀ (c : Native.Codec κ) v n, c.Canonical v → Term.Canonical (c.encode v n).1) ∧
    (∀ flags n t w u w', t.Canonical →
      Reduce.norm ⟨cfg.steps, flags, cfg.env, cfg.interp⟩ n t w = .ok u w' → u.Canonical) ∧
    ((∀ t, t.Canonical → Machine.Kept Machine.Value.Canonical (Machine.ofTerm t : Machine.Eval β σ _) ∧
        ∀ n, Machine.Kept (fun v => v.Canonical ∧ v.isThunk = false) (Machine.eval cfg n t)) ∧
      (∀ (c : Machine.Call β σ) n, c.Canonical →
        Machine.Kept Machine.Reply.Canonical (c.perform cfg n)) ∧
      ∀ (v : Machine.Value β σ) t, v.Canonical → v.source? = some t → t.Canonical) ∧
    (∀ (t : Term β σ) as bs, (t.apps as).apps bs = t.apps (as ++ bs)) ∧
    ∀ (t : Term β σ) as,
      (∀ amount cutoff,
        (t.apps as).shift amount cutoff =
          (t.shift amount cutoff).apps (as.map (·.shift amount cutoff)) ∧
        (t.apps as).shift? amount cutoff = do
          let t ← t.shift? amount cutoff
          let as ← as.mapM (·.shift? amount cutoff)
          return t.apps as) ∧
      ∀ cutoff us,
        (t.apps as).instantiate cutoff us =
          (t.instantiate cutoff us).apps (as.map (·.instantiate cutoff us)) ∧
        (t.apps as).instantiate? cutoff us = do
          let t ← t.instantiate? cutoff us
          let as ← as.mapM (·.instantiate? cutoff us)
          return t.apps as := by
  refine ⟨fun t as ht has => ?_, fun c v n hv => Native.Codec.canonical_encode c hv n,
    fun flags n t w u w' ht hr => h.norm ht hr, ?_, Term.apps_apps, fun t as => ?_⟩
  · refine ⟨ht.apps has, ht.lams, fun amount cutoff => ?_, fun cutoff => ?_, ht.beta has,
      fun u hu => ht.beta? has hu⟩
    · exact ⟨ht.shift amount cutoff, fun u hu => ht.shift? hu⟩
    · exact ⟨ht.instantiate has cutoff, fun u hu => ht.instantiate? has hu⟩
  · exact ⟨fun t ht => ⟨Machine.kept_ofTerm ht, h.eval ht⟩, fun c n hc => h.perform hc n,
      fun v t hv ht => hv.source ht⟩
  · exact ⟨fun amount cutoff => ⟨Term.shift_apps t as amount cutoff, Term.shift?_apps t as amount cutoff⟩,
      fun cutoff us => ⟨Term.instantiate_apps t as cutoff us, Term.instantiate?_apps t as cutoff us⟩⟩

/-! ### A constructor that gets another argument -/

theorem canonical_adding : adding.Canonical where
  unfoldable c t ht := (functional_adding.unfoldable c t ht).2.1
  interp s ts w t w' _ hr := by
    have hsum : sum? ts = some t := (EStateM.Result.ok.inj hr).1
    unfold sum? at hsum
    split at hsum
    · cases hsum
      trivial
    · cases hsum
  direct _ _ _ _ _ _ hf := nomatch hf

/-- A function is given a constructor with one argument, and applies it to another one. -/
def pairing : Term Unit Unit :=
  .app (.lam 1 (.app (.bvar 0) [.lit (.int 1)])) [.app (.ctor "Pair") [.const "twice"]]

theorem canonical_kept_pairing : ∃ u w',
    Reduce.norm ⟨adding.steps, .tactic, adding.env, adding.interp⟩ 9 pairing {} = .ok u w' ∧
      u.isApp = true ∧ u.Canonical := by
  have hcanonical : pairing.Canonical := by
    simp [pairing, Term.Canonical, Term.CanonicalArgs, Term.isApp]
  have hkept := (canonical_kept (κ := Unit) canonical_adding).2.2.1
  refine ⟨_, _, rfl, rfl, hkept .tactic 9 pairing {} _ _ hcanonical rfl⟩

end TacticEngine
