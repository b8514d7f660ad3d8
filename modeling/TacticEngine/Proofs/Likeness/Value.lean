/-
# TacticEngine.Proofs.Likeness.Value -- code and values that differ in their native values only.

Compiling alike terms gives code of the same shape, with alike sources in it and with the same slots.
Likeness of code and of values says so, and it keeps the count of the variables in scope: code that is
run in a frame of `k` values may look up `k` variables.  Values that are alike stand for alike terms.
-/
import TacticEngine.Proofs.Likeness.Term
import TacticEngine.Machine.Value

namespace TacticEngine.Machine

variable {β σ : Type}

/-! ## Code -/

mutual
/-- Code of the same shape under `k` variables.  Constants that are not steps have to be `plain`. -/
inductive Code.Alike (L : Likeness β σ) (plain : String → Prop) :
    Nat → Code β σ → Code β σ → Prop where
  | var {k i} : (L.closed → i < k) → Code.Alike L plain k (.var i) (.var i)
  | const {k c slot} : plain c → Code.Alike L plain k (.const c slot) (.const c slot)
  | step {k t t' s s'} : L.Alike 0 t t' → L.step s s' →
      Code.Alike L plain k (.step t s) (.step t' s')
  | ctor {k c} : Code.Alike L plain k (.ctor c) (.ctor c)
  | neutral {k t t'} : L.Alike 0 t t' → Code.Alike L plain k (.neutral t) (.neutral t')
  | lit {k l} : Code.Alike L plain k (.lit l) (.lit l)
  | blob {k b b'} : L.blob b b' → Code.Alike L plain k (.blob b) (.blob b')
  | app {k h h' as as'} : Code.Alike L plain k h h' → Delayed.AlikeArgs L plain k as as' →
      Code.Alike L plain k (.app h as) (.app h' as')
  | lam {k n t t' b b'} : L.Alike k t t' → Code.Alike L plain (k + n) b b' →
      Code.Alike L plain k (.lam n t b) (.lam n t' b')
  | case {k s s' brs brs'} : Code.Alike L plain k s s' → Code.AlikeBranches L plain k brs brs' →
      Code.Alike L plain k (.case s brs) (.case s' brs')

/-- Arguments of the same shape. -/
inductive Delayed.Alike (L : Likeness β σ) (plain : String → Prop) :
    Nat → Delayed β σ → Delayed β σ → Prop where
  | var {k i} : (L.closed → i < k) → Delayed.Alike L plain k (.var i) (.var i)
  | lit {k l} : Delayed.Alike L plain k (.lit l) (.lit l)
  | blob {k b b'} : L.blob b b' → Delayed.Alike L plain k (.blob b) (.blob b')
  | thunk {k t t' c c'} : L.Alike k t t' → Code.Alike L plain k c c' →
      Delayed.Alike L plain k (.thunk t c) (.thunk t' c')

/-- Argument lists, item by item. -/
inductive Delayed.AlikeArgs (L : Likeness β σ) (plain : String → Prop) :
    Nat → List (Delayed β σ) → List (Delayed β σ) → Prop where
  | nil {k} : Delayed.AlikeArgs L plain k [] []
  | cons {k a a' as as'} : Delayed.Alike L plain k a a' → Delayed.AlikeArgs L plain k as as' →
      Delayed.AlikeArgs L plain k (a :: as) (a' :: as')

/-- Branches with the same patterns. -/
inductive Code.AlikeBranches (L : Likeness β σ) (plain : String → Prop) :
    Nat → List (Branch (Term β σ × Code β σ)) → List (Branch (Term β σ × Code β σ)) → Prop where
  | nil {k} : Code.AlikeBranches L plain k [] []
  | cons {k p t t' c c' brs brs'} : L.Alike (k + p.binders) t t' →
      Code.Alike L plain (k + p.binders) c c' → Code.AlikeBranches L plain k brs brs' →
      Code.AlikeBranches L plain k (⟨p, (t, c)⟩ :: brs) (⟨p, (t', c')⟩ :: brs')
end

/-- The sources of alike branches are alike. -/
theorem Code.AlikeBranches.sources {L : Likeness β σ} {plain : String → Prop} {k : Nat} :
    ∀ {brs brs' : List (Branch (Term β σ × Code β σ))}, Code.AlikeBranches L plain k brs brs' →
      L.AlikeBranches k (branchSources brs) (branchSources brs')
  | _, _, .nil => .nil
  | _, _, .cons ht _ hbrs => .cons ht hbrs.sources

theorem Delayed.alikeArgs_iff_forall₂ {L : Likeness β σ} {plain : String → Prop} {k : Nat}
    {as as' : List (Delayed β σ)} :
    Delayed.AlikeArgs L plain k as as' ↔ List.Forall₂ (Delayed.Alike L plain k) as as' := by
  constructor
  · intro h
    induction as generalizing as' with
    | nil => cases h; exact .nil
    | cons a as ih =>
        cases h with
        | cons ha has => exact .cons ha (ih has)
  · intro h
    induction h with
    | nil => exact .nil
    | cons ha _ ih => exact .cons ha ih

/-! ## Compiling -/

section Compile

variable {L : Likeness β σ} {plain : String → Prop} {steps steps' : StepTable σ}

/-- Two results of something that takes slots: alike, with the same slots taken. -/
def Reserved {α : Type} (V : α → α → Prop) (m m' : Slots α) : Prop :=
  ∀ n, V (m n).1 (m' n).1 ∧ (m n).2 = (m' n).2

theorem Reserved.pure {α : Type} {V : α → α → Prop} {a a' : α} (h : V a a') :
    Reserved V (Pure.pure a) (Pure.pure a') := fun _ => ⟨h, rfl⟩

theorem Reserved.bind {α γ : Type} {V : α → α → Prop} {U : γ → γ → Prop} {m m' : Slots α}
    {f f' : α → Slots γ} (hm : Reserved V m m') (hf : ∀ a a', V a a' → Reserved U (f a) (f' a')) :
    Reserved U (m >>= f) (m' >>= f') := by
  intro n
  obtain ⟨h₁, h₂⟩ := hm n
  have h := hf _ _ h₁ (m' n).2
  show U ((f (m n).1 (m n).2)).1 _ ∧ ((f (m n).1 (m n).2)).2 = _
  rw [h₂]
  exact h

mutual
theorem compile_alike
    (hsteps : ∀ c, L.const c → Option.Rel L.step (steps.lookup c) (steps'.lookup c))
    (hplain : ∀ c, L.const c → steps.lookup c = none → plain c) : ∀ {k : Nat} {t t' : Term β σ}, L.Alike k t t' →
    Reserved (Code.Alike L plain k) (compile steps t) (compile steps' t')
  | k, _, _, .const (c := c) hc => by
      have hl := hsteps c hc
      simp only [compile]
      generalize hlookup : steps.lookup c = x at hl
      generalize steps'.lookup c = x' at hl
      cases hl with
      | some hs => exact .pure (.step (.const hc) hs)
      | none => exact fun n => ⟨.const (hplain c hc hlookup), rfl⟩
  | _, _, _, .ctor => by simp only [compile]; exact .pure .ctor
  | _, _, _, .bvar h => by simp only [compile]; exact .pure (.var h)
  | _, _, _, .free => by simp only [compile]; exact .pure (.neutral .free)
  | _, _, _, .uvar => by simp only [compile]; exact .pure (.neutral .uvar)
  | _, _, _, .lit => by simp only [compile]; exact .pure .lit
  | _, _, _, .app _ h has => by
      simp only [compile]
      refine (compile_alike hsteps hplain h).bind fun c c' hc => ?_
      exact (delayAll_alike hsteps hplain has).bind fun ds ds' hds => .pure (.app hc hds)
  | _, _, _, .lam hn h => by
      simp only [compile]
      exact (compile_alike hsteps hplain h).bind fun c c' hc => .pure (.lam (.lam hn h) hc)
  | _, _, _, .case h hbrs => by
      simp only [compile]
      refine (compile_alike hsteps hplain h).bind fun c c' hc => ?_
      exact (compileBranches_alike hsteps hplain hbrs).bind fun ds ds' hds => .pure (.case hc hds)
  | _, _, _, .ascribed h _ => by simp only [compile]; exact compile_alike hsteps hplain h
  | _, _, _, .annotated h => by simp only [compile]; exact compile_alike hsteps hplain h
  | _, _, _, .reify h => by simp only [compile]; exact compile_alike hsteps hplain h
  | _, _, _, .blob h => by simp only [compile]; exact .pure (.blob h)
  | _, _, _, .native h => by simp only [compile]; exact .pure (.step (.native h) h)

theorem delayAll_alike
    (hsteps : ∀ c, L.const c → Option.Rel L.step (steps.lookup c) (steps'.lookup c))
    (hplain : ∀ c, L.const c → steps.lookup c = none → plain c) : ∀ {k : Nat} {as as' : List (Term β σ)}, L.AlikeArgs k as as' →
    Reserved (Delayed.AlikeArgs L plain k) (delayAll steps as) (delayAll steps' as')
  | _, _, _, .nil => by simp only [delayAll]; exact .pure .nil
  | k, _, _, @Term.AlikeArgs.cons _ _ _ _ _ _ _ _ a a' as as' h has => by
      have hrest := delayAll_alike hsteps hplain has
      have hcode := compile_alike hsteps hplain h
      have hthunk : Reserved (Delayed.AlikeArgs L plain k)
          (do
            let code ← compile steps a
            let as ← delayAll steps as
            return .thunk a code :: as)
          (do
            let code ← compile steps' a'
            let as ← delayAll steps' as'
            return .thunk a' code :: as) :=
        hcode.bind fun c c' hc => hrest.bind fun ds ds' hds => .pure (.cons (.thunk h hc) hds)
      cases h with
      | bvar hi =>
          simp only [delayAll]
          exact hrest.bind fun ds ds' hds => .pure (.cons (.var hi) hds)
      | lit =>
          simp only [delayAll]
          exact hrest.bind fun ds ds' hds => .pure (.cons .lit hds)
      | blob hb =>
          simp only [delayAll]
          exact hrest.bind fun ds ds' hds => .pure (.cons (.blob hb) hds)
      | _ => simpa only [delayAll] using hthunk

theorem compileBranches_alike
    (hsteps : ∀ c, L.const c → Option.Rel L.step (steps.lookup c) (steps'.lookup c))
    (hplain : ∀ c, L.const c → steps.lookup c = none → plain c) : ∀ {k : Nat} {brs brs' : List (Branch (Term β σ))},
    L.AlikeBranches k brs brs' →
    Reserved (Code.AlikeBranches L plain k) (compileBranches steps brs)
      (compileBranches steps' brs')
  | _, _, _, .nil => by simp only [compileBranches]; exact .pure .nil
  | _, _, _, .cons h hbrs => by
      simp only [compileBranches]
      refine (compile_alike hsteps hplain h).bind fun c c' hc => ?_
      exact (compileBranches_alike hsteps hplain hbrs).bind fun ds ds' hds => .pure (.cons h hc hds)
end

end Compile

/-! ## Values -/

/-- Whether a value is a suspended computation. -/
def Value.isThunk : Value β σ → Bool
  | .thunk .. => true
  | _ => false

mutual
/-- Values of the same shape. -/
inductive Value.Alike (L : Likeness β σ) (plain : String → Prop) :
    Value β σ → Value β σ → Prop where
  | ctor {c vs vs'} : Value.AlikeArgs L plain vs vs' → Value.Alike L plain (.ctor c vs) (.ctor c vs')
  | lit {l} : Value.Alike L plain (.lit l) (.lit l)
  | blob {b b'} : L.blob b b' → Value.Alike L plain (.blob b) (.blob b')
  | lam {n t t' c c' fs fs' vs vs'} : L.Alike fs.length t t' →
      Code.Alike L plain (fs.length + n) c c' → Value.AlikeArgs L plain fs fs' →
      Value.AlikeArgs L plain vs vs' →
      Value.Alike L plain (.lam n t c fs vs) (.lam n t' c' fs' vs')
  | step {t t' s s' vs vs'} : L.Alike 0 t t' → L.step s s' → Value.AlikeArgs L plain vs vs' →
      Value.Alike L plain (.step t s vs) (.step t' s' vs')
  | neutral {t t' vs vs'} : L.Alike 0 t t' → Value.AlikeArgs L plain vs vs' →
      Value.Alike L plain (.neutral t vs) (.neutral t' vs')
  | stuck {s s' brs brs' fs fs' vs vs'} : Value.Alike L plain s s' →
      L.AlikeBranches fs.length brs brs' → Value.AlikeArgs L plain fs fs' →
      Value.AlikeArgs L plain vs vs' →
      Value.Alike L plain (.stuck s brs fs vs) (.stuck s' brs' fs' vs')
  | unknown {slot t t' fs fs'} : L.Alike fs.length t t' → Value.AlikeArgs L plain fs fs' →
      Value.Alike L plain (.thunk slot t fs none) (.thunk slot t' fs' none)
  | thunk {slot t t' fs fs' c c'} : L.Alike fs.length t t' → Value.AlikeArgs L plain fs fs' →
      Code.Alike L plain fs.length c c' →
      Value.Alike L plain (.thunk slot t fs (some c)) (.thunk slot t' fs' (some c'))

/-- Lists of values, item by item. -/
inductive Value.AlikeArgs (L : Likeness β σ) (plain : String → Prop) :
    List (Value β σ) → List (Value β σ) → Prop where
  | nil : Value.AlikeArgs L plain [] []
  | cons {v v' vs vs'} : Value.Alike L plain v v' → Value.AlikeArgs L plain vs vs' →
      Value.AlikeArgs L plain (v :: vs) (v' :: vs')
end

section

variable {L : Likeness β σ} {plain : String → Prop} {v v' : Value β σ} {vs vs' : List (Value β σ)}

theorem Value.alikeArgs_iff_forall₂ :
    Value.AlikeArgs L plain vs vs' ↔ List.Forall₂ (Value.Alike L plain) vs vs' := by
  constructor
  · intro h
    induction vs generalizing vs' with
    | nil => cases h; exact .nil
    | cons v vs ih =>
        cases h with
        | cons hv hvs => exact .cons hv (ih hvs)
  · intro h
    induction h with
    | nil => exact .nil
    | cons hv _ ih => exact .cons hv ih

theorem Value.AlikeArgs.length_eq (h : Value.AlikeArgs L plain vs vs') : vs.length = vs'.length :=
  (Value.alikeArgs_iff_forall₂.mp h).length_eq

theorem Value.AlikeArgs.append {ws ws' : List (Value β σ)} (hv : Value.AlikeArgs L plain vs vs')
    (hw : Value.AlikeArgs L plain ws ws') : Value.AlikeArgs L plain (vs ++ ws) (vs' ++ ws') :=
  Value.alikeArgs_iff_forall₂.mpr
    (List.rel_append (Value.alikeArgs_iff_forall₂.mp hv) (Value.alikeArgs_iff_forall₂.mp hw))

theorem Value.AlikeArgs.take (n : Nat) (h : Value.AlikeArgs L plain vs vs') :
    Value.AlikeArgs L plain (vs.take n) (vs'.take n) :=
  Value.alikeArgs_iff_forall₂.mpr (List.forall₂_take n (Value.alikeArgs_iff_forall₂.mp h))

theorem Value.AlikeArgs.drop (n : Nat) (h : Value.AlikeArgs L plain vs vs') :
    Value.AlikeArgs L plain (vs.drop n) (vs'.drop n) :=
  Value.alikeArgs_iff_forall₂.mpr (List.forall₂_drop n (Value.alikeArgs_iff_forall₂.mp h))

theorem Value.AlikeArgs.reverse (h : Value.AlikeArgs L plain vs vs') :
    Value.AlikeArgs L plain vs.reverse vs'.reverse :=
  Value.alikeArgs_iff_forall₂.mpr
    (List.forall₂_reverse_iff.mpr (Value.alikeArgs_iff_forall₂.mp h))

theorem Value.AlikeArgs.getElem? (h : Value.AlikeArgs L plain vs vs') (i : Nat) :
    Option.Rel (Value.Alike L plain) vs[i]? vs'[i]? := by
  induction i generalizing vs vs' with
  | zero =>
      cases h with
      | nil => exact .none
      | cons hv _ => exact .some hv
  | succ i ih =>
      cases h with
      | nil => exact .none
      | cons _ hvs => simpa using ih hvs

/-! ## Sources -/

theorem substituteBranches?_alike {ts ts' : List (Term β σ)} (hts : L.AlikeArgs 0 ts ts') :
    ∀ {k : Nat} {brs brs' : List (Branch (Term β σ))}, L.AlikeBranches k brs brs' →
      k = ts.length →
      Option.Rel (L.AlikeBranches 0) (substituteBranches? ts brs) (substituteBranches? ts' brs')
  | _, _, _, .nil, _ => .some .nil
  | _, _, _, .cons (p := p) hb hbrs, rfl => by
      have hinst := Term.Alike.instantiate? (c := p.binders) hts
        (by rwa [Nat.add_zero, Nat.add_comm])
      refine Term.rel_bind hinst fun b b' hb => ?_
      refine Term.rel_bind (substituteBranches?_alike hts hbrs rfl) fun ds ds' hds => ?_
      exact .some (.cons (by rwa [Nat.zero_add]) hds)

mutual
/-- Alike values stand for alike terms. -/
theorem Value.Alike.source? : ∀ {v v' : Value β σ}, Value.Alike L plain v v' →
    Option.Rel (L.Alike 0) v.source? v'.source?
  | _, _, .ctor hvs =>
      Term.rel_bind hvs.sources? fun ts ts' hts => .some (Term.Alike.ctor.apps hts.1)
  | _, _, .lit => .some .lit
  | _, _, .blob h => .some (.blob h)
  | _, _, .lam ht _ hfs hvs => by
      refine Term.rel_bind hfs.sources? fun ts ts' hts => ?_
      have hinst := Term.Alike.instantiate? (c := 0) hts.1
        (by rwa [Nat.zero_add, Nat.add_zero, hts.2])
      refine Term.rel_bind hinst fun f f' hf => ?_
      exact Term.rel_bind hvs.sources? fun us us' hus => .some (hf.apps hus.1)
  | _, _, .step ht _ hvs =>
      Term.rel_bind hvs.sources? fun ts ts' hts => .some (ht.apps hts.1)
  | _, _, .neutral ht hvs =>
      Term.rel_bind hvs.sources? fun ts ts' hts => .some (ht.apps hts.1)
  | _, _, @Value.Alike.stuck _ _ _ _ _ _ brs brs' _ _ _ _ hs hbrs hfs hvs => by
      have hempty : brs.isEmpty = brs'.isEmpty := by cases hbrs <;> rfl
      have hrest {s s' : Term β σ} (ts ts' : List (Term β σ)) (hs : L.Alike 0 s s')
          (h : Option.Rel (L.AlikeBranches 0) (substituteBranches? ts brs)
            (substituteBranches? ts' brs')) :=
        Term.rel_bind h fun ds ds' hds => Term.rel_bind hvs.sources? fun us us' hus =>
          Option.Rel.some ((Term.Alike.case hs hds).apps hus.1)
      refine Term.rel_bind hs.source? fun s s' hs => ?_
      dsimp only
      rw [← hempty]
      split
      next hnil =>
        obtain rfl := List.isEmpty_iff.mp hnil
        cases hbrs
        exact hrest [] [] hs (.some .nil)
      next =>
        refine Term.rel_bind hfs.sources? fun ts ts' hts => ?_
        exact hrest _ _ hs (substituteBranches?_alike hts.1 hbrs hts.2.symm)
  | _, _, .unknown ht hfs =>
      Term.rel_bind hfs.sources? fun ts ts' hts =>
        Term.Alike.instantiate? (c := 0) hts.1 (by rwa [Nat.zero_add, Nat.add_zero, hts.2])
  | _, _, .thunk ht hfs _ =>
      Term.rel_bind hfs.sources? fun ts ts' hts =>
        Term.Alike.instantiate? (c := 0) hts.1 (by rwa [Nat.zero_add, Nat.add_zero, hts.2])

theorem Value.AlikeArgs.sources? : ∀ {vs vs' : List (Value β σ)}, Value.AlikeArgs L plain vs vs' →
    Option.Rel (fun ts ts' => L.AlikeArgs 0 ts ts' ∧ ts.length = vs.length) (sources? vs)
      (sources? vs')
  | _, _, .nil => .some ⟨.nil, rfl⟩
  | _, _, .cons h hvs =>
      Term.rel_bind h.source? fun _ _ ht => Term.rel_bind hvs.sources? fun _ _ hts =>
        .some ⟨.cons ht hts.1, congrArg (· + 1) hts.2⟩
end

/-! ## Choosing a branch -/

/-- The branches taken for alike values are alike, and so are the values that they bind. -/
theorem select_alike {k : Nat} (hv : Value.Alike L plain v v') :
    ∀ {brs brs' : List (Branch (Term β σ × Code β σ))}, Code.AlikeBranches L plain k brs brs' →
      Option.Rel (fun x x' => Code.Alike L plain (k + x.2.length) x.1.2 x'.1.2 ∧
        Value.AlikeArgs L plain x.2 x'.2) (select v brs) (select v' brs')
  | _, _, .nil => .none
  | _, _, .cons (p := .wild) _ hc _ => .some ⟨hc, .nil⟩
  | _, _, .cons (p := .var) _ hc _ => .some ⟨hc, .cons hv .nil⟩
  | _, _, .cons (p := .lit l) _ hc hbrs => by
      have hrest := select_alike hv hbrs
      cases hv with
      | lit =>
          simp only [select]
          split
          · exact .some ⟨hc, .nil⟩
          · exact hrest
      | _ => exact .none
  | _, _, .cons (p := .ctor c n) _ hc hbrs => by
      have hrest := select_alike hv hbrs
      cases hv with
      | ctor hvs =>
          simp only [select, hvs.length_eq]
          split
          next h => exact .some ⟨by rw [hvs.length_eq, h.2]; exact hc, hvs⟩
          next => exact hrest
      | _ => exact .none

end

end TacticEngine.Machine
