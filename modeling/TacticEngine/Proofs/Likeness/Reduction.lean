/-
# TacticEngine.Proofs.Likeness.Reduction -- reduction takes alike terms to alike terms.

Two settings are alike if their tables and definitions are, on the constants that may occur, and if
what their steps do goes alike on alike arguments.  Then whatever a reduction in the one setting does
to a term, the reductions in the other one do to every term alike to it, provided they are given
enough fuel.
-/
import TacticEngine.Proofs.Likeness.Term
import TacticEngine.Proofs.Run.Follows
import TacticEngine.Reduce

namespace TacticEngine

variable {β σ α : Type}

/-- What the evaluators need of a tie between worlds: they may break off because fuel or a machine word
was too small, and they write into the journal and the log. -/
structure Tie.Fair (T : Tie (Halt β) (World β σ) (Halt β) (World β σ)) (L : Likeness β σ) :
    Prop where
  /-- Nothing is claimed about a run that used up its fuel. -/
  exhausted : ∀ w, T.mute .exhausted w
  /-- A machine word is too small on both sides, or nothing is claimed about it. -/
  overflow : (∀ w, T.mute .overflow w) ∨ T.halt .overflow .overflow
  /-- Alike firings may be noted. -/
  fired : ∀ {w w' s s' ts ts'}, T.state w w' → L.step s s' → L.AlikeArgs 0 ts ts' →
    T.state (w.noted (.fired s ts)) (w'.noted (.fired s' ts'))
  /-- A text may be logged. -/
  debug : ∀ level text, T.Follows (fun _ _ => True) (Act.debug level fun _ => some text)
    fun _ _ => Act.debug level fun _ => some text

/-- Related steps have one name and one arity. -/
def Likeness.KeepsArity (L : Likeness β σ) : Prop :=
  ∀ {s s'}, L.step s s' → s.name = s'.name ∧ s.arity = s'.arity

theorem Tie.Fair.bounded {T : Tie (Halt β) (World β σ) (Halt β) (World β σ)} {L : Likeness β σ}
    (hT : T.Fair L) {V : α → α → Prop} {a? a?' : Option α} (h : Option.Rel V a? a?') :
    T.Follows V (Act.bounded a?) fun _ _ => Act.bounded a?' := by
  cases h with
  | some h => exact .pure h
  | none =>
      rcases hT.overflow with hm | hh
      · exact .mute hm
      · exact .throw hh

theorem Tie.Fair.note {T : Tie (Halt β) (World β σ) (Halt β) (World β σ)} {L : Likeness β σ}
    (hT : T.Fair L) {s s' : Step σ} {ts ts' : List (Term β σ)} (hs : L.step s s')
    (hts : L.AlikeArgs 0 ts ts') :
    T.Follows (fun _ _ => True) (Act.note (.fired s ts)) fun _ _ => Act.note (.fired s' ts') :=
  .const fun _ _ hw => .ok trivial (hT.fired hw hs hts)

namespace Reduce

/-- A setting with another meaning of steps. -/
def Setting.withInterp (cfg : Setting β σ) (i : Interp β σ) : Setting β σ := { cfg with interp := i }

@[simp]
theorem Setting.flags_withInterp (cfg : Setting β σ) (i : Interp β σ) :
    (cfg.withInterp i).flags = cfg.flags := rfl

@[simp]
theorem stepOf_withInterp (cfg : Setting β σ) (i : Interp β σ) (t : Term β σ) :
    stepOf (cfg.withInterp i) t = stepOf cfg t := rfl

@[simp]
theorem bodyOf?_withInterp (cfg : Setting β σ) (i : Interp β σ) (c : String) :
    bodyOf? (cfg.withInterp i) c = bodyOf? cfg c := rfl

/-- What becomes of an application whose head is neither an application nor a lambda. -/
def whnfStep (cfg : Setting β σ) (fuel : Nat) (h : Term β σ) (args : List (Term β σ)) :
    Act β σ (Term β σ) :=
  match stepOf cfg h with
  | none => pure (h.apps args)
  | some step =>
    if step.arity ≤ args.length then do
      match ← fire cfg (norm cfg fuel) step h args with
      | (true, result) => whnf cfg fuel result
      | (false, stuck) => pure stuck
    else pure (h.apps args)

/-- Settings that are alike; on the right, what steps do may depend on how deep runs may nest. -/
structure Setting.Like (T : Tie (Halt β) (World β σ) (Halt β) (World β σ)) (L : Likeness β σ)
    (cfg cfg' : Setting β σ) (I : Nat → Interp β σ) : Prop where
  /-- The same may be done. -/
  flags : cfg.flags = cfg'.flags
  /-- Names mean related steps. -/
  lookup : ∀ c, L.const c → Option.Rel L.step (cfg.steps.lookup c) (cfg'.steps.lookup c)
  /-- Names that mean no steps mean alike terms. -/
  unfoldable : ∀ c, L.const c → cfg.steps.lookup c = none →
    Option.Rel (L.Alike 0) (cfg.env.unfoldable c) (cfg'.env.unfoldable c)
  /-- What steps do goes alike. -/
  interp : ∀ {s s' ts ts'}, L.step s s' → L.AlikeArgs 0 ts ts' →
    T.Follows (Option.Rel (L.Alike 0)) (cfg.interp s.body cfg.env ts)
      fun l _ => I l s'.body cfg'.env ts'

variable {T : Tie (Halt β) (World β σ) (Halt β) (World β σ)} {L : Likeness β σ}
  {cfg cfg' : Setting β σ} {I : Nat → Interp β σ}

/-! ## Parts of a step -/

theorem select_alike {s s' : Term β σ} (hs : L.Alike 0 s s') :
    ∀ {brs brs' : List (Branch (Term β σ))}, L.AlikeBranches 0 brs brs' →
      Option.Rel (Option.Rel (L.Alike 0)) (select s brs) (select s' brs')
  | _, _, .nil => .none
  | _, _, .cons (p := .wild) hb _ => .some (.some hb)
  | _, _, .cons (p := .var) hb _ => .some (Term.Alike.beta? (.cons hs .nil) hb)
  | _, _, .cons (p := .lit l) hb hbrs => by
      simp only [select, hs.asLit?_eq]
      cases s'.asLit? with
      | none => exact .none
      | some l' =>
          dsimp only
          split
          · exact .some (.some hb)
          · exact select_alike hs hbrs
  | _, _, .cons (p := .ctor c n) hb hbrs => by
      have hctor := hs.asCtorApp?
      simp only [select]
      generalize s.asCtorApp? = x at hctor
      generalize s'.asCtorApp? = x' at hctor
      cases hctor with
      | none => exact .none
      | @some x x' h =>
          obtain ⟨c₁, args⟩ := x
          obtain ⟨c₂, args'⟩ := x'
          obtain ⟨rfl, has⟩ := h
          dsimp only at has ⊢
          rw [has.length_eq]
          split
          next hn => exact .some (Term.Alike.beta? has (by rw [has.length_eq, hn.2]; exact hb))
          next => exact select_alike hs hbrs

theorem stepOf_alike (hS : Setting.Like T L cfg cfg' I) {h h' : Term β σ} (hh : L.Alike 0 h h') :
    Option.Rel L.step (stepOf cfg h) (stepOf cfg' h') := by
  unfold stepOf
  rw [hS.flags]
  split
  · cases hh with
    | const hc => exact hS.lookup _ hc
    | native hs => exact .some hs
    | _ => exact .none
  · exact .none

theorem bodyOf?_alike (hS : Setting.Like T L cfg cfg' I) {c : String} (hc : L.const c) :
    Option.Rel (L.Alike 0) (bodyOf? cfg c) (bodyOf? cfg' c) := by
  have hl := hS.lookup c hc
  have hu := hS.unfoldable c hc
  unfold bodyOf?
  rw [hS.flags]
  generalize cfg.steps.lookup c = x at hl hu
  generalize cfg'.steps.lookup c = x' at hl
  cases hl with
  | none =>
      split
      · exact hu rfl
      · exact .none
  | some _ => simp

theorem fire_alike (hT : T.Fair L) (hL : L.KeepsArity) (hS : Setting.Like T L cfg cfg' I)
    {norm : Term β σ → Act β σ (Term β σ)} {norm' : Term β σ → Family (Halt β) (World β σ) (Term β σ)}
    (hnorm : ∀ t t', L.Alike 0 t t' → T.Follows (L.Alike 0) (norm t) (norm' t'))
    {s s' : Step σ} (hs : L.step s s') {h h' : Term β σ} (hh : L.Alike 0 h h')
    {as as' : List (Term β σ)} (has : L.AlikeArgs 0 as as') :
    T.Follows (fun p p' => p.1 = p'.1 ∧ L.Alike 0 p.2 p'.2) (fire cfg norm s h as)
      fun l n => fire (cfg'.withInterp (I l)) (norm' · l n) s' h' as' := by
  have hname := (hL hs).1
  have harity := (hL hs).2
  unfold fire
  rw [harity]
  refine .bind (.mapM hnorm (Term.alikeArgs_iff_forall₂.mp (has.take _))) fun now now' hnow => ?_
  have hnow := Term.alikeArgs_iff_forall₂.mpr hnow
  rw [hname, hnow.length_eq]
  refine (hT.debug _ _).bind fun _ _ _ => ?_
  refine (hT.note hs hnow).bind fun _ _ _ => ?_
  refine (hS.interp hs hnow).bind fun r r' hr => ?_
  cases hr with
  | none => exact .pure ⟨rfl, hh.apps (hnow.append (has.drop _))⟩
  | some hr => exact .pure ⟨rfl, hr.apps (has.drop _)⟩

/-! ## Reduction -/

section

variable (T L cfg cfg' I)

/-- With a given amount of fuel, reduction takes alike terms to alike terms. -/
structure AlikeAt (n : Nat) : Prop where
  whnf : ∀ {t t'}, L.Alike 0 t t' →
    T.Follows (L.Alike 0) (whnf cfg n t) fun l m => whnf (cfg'.withInterp (I l)) m t'
  fireConstant : ∀ {s s' t t'}, L.step s s' → L.Alike 0 t t' →
    T.Follows (L.Alike 0) (fireConstant cfg n s t)
      fun l m => fireConstant (cfg'.withInterp (I l)) m s' t'
  whnfApp : ∀ {h h' as as'}, L.Alike 0 h h' → L.AlikeArgs 0 as as' →
    T.Follows (L.Alike 0) (whnfApp cfg n h as)
      fun l m => whnfApp (cfg'.withInterp (I l)) m h' as'
  norm : ∀ {t t'}, L.Alike 0 t t' →
    T.Follows (L.Alike 0) (norm cfg n t) fun l m => norm (cfg'.withInterp (I l)) m t'

end

theorem alikeAt_zero (hT : T.Fair L) : AlikeAt T L cfg cfg' I 0 where
  whnf _ := .mute hT.exhausted
  fireConstant _ _ := .mute hT.exhausted
  whnfApp _ _ := .mute hT.exhausted
  norm _ := .mute hT.exhausted

section Step

variable (hS : Setting.Like T L cfg cfg' I) {n : Nat} (ih : AlikeAt T L cfg cfg' I n)

include hS ih

theorem norm_alike {t t' : Term β σ} (ht : L.Alike 0 t t') :
    T.Follows (L.Alike 0) (norm cfg (n + 1) t) fun l m => norm (cfg'.withInterp (I l)) m t' := by
  refine .succ ?_
  simp only [norm, hS.flags, Setting.flags_withInterp]
  refine (ih.whnf ht).bind fun u u' hu => ?_
  by_cases hhead : cfg'.flags.hnf = true
  · simp only [hhead, ↓reduceIte]
    exact .pure hu
  · simp only [hhead, ↓reduceIte, Bool.false_eq_true]
    cases hu with
    | app hc hh has =>
        refine (Tie.Follows.mapM (fun _ _ h => ih.norm h) (Term.alikeArgs_iff_forall₂.mp has)).bind ?_
        exact fun us us' hus => .pure (hh.apps (Term.alikeArgs_iff_forall₂.mpr hus))
    | _ => exact .pure (by constructor <;> assumption)

variable (hT : T.Fair L)

include hT

theorem whnf_alike {t t' : Term β σ} (ht : L.Alike 0 t t') :
    T.Follows (L.Alike 0) (whnf cfg (n + 1) t) fun l m => whnf (cfg'.withInterp (I l)) m t' := by
  cases ht with
  | annotated h =>
      refine .succ ?_
      simp only [whnf]
      exact ih.whnf h
  | @ascribed _ a a' s s' h hs =>
      refine .succ ?_
      simp only [whnf, hS.flags, Setting.flags_withInterp]
      by_cases hflag : cfg'.flags.unascribe = true
      · simp only [hflag, ↓reduceIte]
        exact ih.whnf h
      · simp only [hflag, ↓reduceIte, Bool.false_eq_true]
        exact .pure (.ascribed h hs)
  | @reify _ a a' h =>
      refine .succ ?_
      simp only [whnf, hS.flags, Setting.flags_withInterp]
      by_cases hflag : cfg'.flags.reify = true
      · simp only [hflag, ↓reduceIte]
        exact ih.whnf h
      · simp only [hflag, ↓reduceIte, Bool.false_eq_true]
        exact .pure (.reify h)
  | @const _ c hc =>
      have hstep := stepOf_alike hS (Term.Alike.const (k := 0) hc)
      have hbody := bodyOf?_alike hS hc
      refine .succ ?_
      simp only [whnf, stepOf_withInterp, bodyOf?_withInterp]
      generalize stepOf cfg (.const c) = x at hstep ⊢
      generalize stepOf cfg' (.const c) = x' at hstep ⊢
      cases hstep with
      | some hs => exact ih.fireConstant hs (.const hc)
      | none =>
          generalize bodyOf? cfg c = y at hbody ⊢
          generalize bodyOf? cfg' c = y' at hbody ⊢
          cases hbody with
          | some hb => exact ih.whnf hb
          | none => exact .pure (.const hc)
  | @native _ s s' hs =>
      have hstep := stepOf_alike hS (Term.Alike.native (k := 0) hs)
      refine .succ ?_
      simp only [whnf, stepOf_withInterp]
      generalize stepOf cfg (.native s) = x at hstep ⊢
      generalize stepOf cfg' (.native s') = x' at hstep ⊢
      cases hstep with
      | some hs' => exact ih.fireConstant hs' (.native hs)
      | none => exact .pure (.native hs)
  | @app _ h h' as as' _ hh has =>
      refine .succ ?_
      simp only [whnf]
      exact (ih.whnf hh).bind fun f f' hf => ih.whnfApp hf has
  | @case _ s s' brs brs' hs hbrs =>
      refine .succ ?_
      simp only [whnf]
      refine (ih.whnf hs).bind fun v v' hv => ?_
      have hsel := select_alike hv hbrs
      generalize select v brs = x at hsel ⊢
      generalize select v' brs' = x' at hsel ⊢
      cases hsel with
      | some hb => exact (hT.bounded hb).bind fun b b' hb => ih.whnf hb
      | none => exact .pure (.case hv hbrs)
  | ctor => exact .succ (.pure .ctor)
  | bvar h => exact .succ (.pure (.bvar h))
  | free => exact .succ (.pure .free)
  | uvar => exact .succ (.pure .uvar)
  | lit => exact .succ (.pure .lit)
  | lam hn h => exact .succ (.pure (.lam hn h))
  | blob h => exact .succ (.pure (.blob h))

variable (hL : L.KeepsArity)

include hL

theorem fireConstant_alike {s s' : Step σ} {t t' : Term β σ} (hs : L.step s s')
    (ht : L.Alike 0 t t') : T.Follows (L.Alike 0) (fireConstant cfg (n + 1) s t)
      fun l m => fireConstant (cfg'.withInterp (I l)) m s' t' := by
  refine .succ ?_
  simp only [fireConstant, (hL hs).2]
  split
  · exact .pure ht
  · refine (fire_alike hT hL hS (fun _ _ => ih.norm) hs ht .nil).bind ?_
    rintro ⟨fired, u⟩ ⟨fired', u'⟩ ⟨rfl, hu⟩
    cases fired with
    | true => exact ih.whnf hu
    | false => exact .pure ht

theorem whnfStep_alike {h h' : Term β σ} {as as' : List (Term β σ)} (hh : L.Alike 0 h h')
    (has : L.AlikeArgs 0 as as') : T.Follows (L.Alike 0) (whnfStep cfg n h as)
      fun l m => whnfStep (cfg'.withInterp (I l)) m h' as' := by
  have hstep := stepOf_alike hS hh
  simp only [whnfStep, stepOf_withInterp]
  generalize stepOf cfg h = x at hstep ⊢
  generalize stepOf cfg' h' = x' at hstep ⊢
  cases hstep with
  | none => exact .pure (hh.apps has)
  | some hs =>
      dsimp only
      rw [(hL hs).2, has.length_eq]
      split
      · refine (fire_alike hT hL hS (fun _ _ => ih.norm) hs hh has).bind ?_
        rintro ⟨fired, u⟩ ⟨fired', u'⟩ ⟨rfl, hu⟩
        cases fired with
        | true => exact ih.whnf hu
        | false => exact .pure hu
      · exact .pure (hh.apps has)

theorem whnfApp_alike {h h' : Term β σ} {as as' : List (Term β σ)} (hh : L.Alike 0 h h')
    (has : L.AlikeArgs 0 as as') : T.Follows (L.Alike 0) (whnfApp cfg (n + 1) h as)
      fun l m => whnfApp (cfg'.withInterp (I l)) m h' as' := by
  have hstep := whnfStep_alike hS ih hT hL hh has
  cases hh with
  | app hc hf hbs =>
      refine .succ ?_
      simp only [whnfApp]
      exact ih.whnf ((Term.Alike.app hc hf hbs).apps has)
  | @lam _ k b b' hk hb =>
      refine .succ ?_
      simp only [whnfApp, has.length_eq]
      split
      next hle =>
        have hlen : (as.take k).length = k := by
          rw [List.length_take, has.length_eq]
          omega
        refine (hT.bounded (Term.Alike.beta? (has.take k) (by rwa [hlen]))).bind ?_
        exact fun u u' hu => ih.whnf (hu.apps (has.drop k))
      next => exact .pure ((Term.Alike.lam hk hb).apps has)
  | _ => exact .succ hstep

end Step

/-- Reduction takes alike terms to alike terms. -/
theorem alikeAt (hT : T.Fair L) (hL : L.KeepsArity) (hS : Setting.Like T L cfg cfg' I) (n : Nat) :
    AlikeAt T L cfg cfg' I n := by
  induction n with
  | zero => exact alikeAt_zero hT
  | succ n ih =>
      exact ⟨whnf_alike hS ih hT, fireConstant_alike hS ih hT hL, whnfApp_alike hS ih hT hL,
        norm_alike hS ih⟩

end Reduce

end TacticEngine
