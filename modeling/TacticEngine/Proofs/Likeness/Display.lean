/-
# TacticEngine.Proofs.Likeness.Display -- alike terms are shown alike.

How a term is shown depends on its shape, on the kinds of the blobs in it and on the names of the native steps
in it.  So does what is to blame for a stuck evaluation, and hence the issue about that.
-/
import TacticEngine.Diagnosis
import TacticEngine.Proofs.Likeness.Term

namespace TacticEngine

variable {β σ : Type}

/-- Related blobs are of one kind, and related steps have one name. -/
structure Likeness.KeepsNames (L : Likeness β σ) : Prop where
  kind : ∀ {b b'}, L.blob b b' → b.kind = b'.kind
  name : ∀ {s s'}, L.step s s' → s.name = s'.name

variable {L : Likeness β σ}

namespace Term

mutual
theorem Alike.doc_eq (hL : L.KeepsNames) : ∀ {k : Nat} {t t' : Term β σ}, L.Alike k t t' → t.doc = t'.doc
  | _, _, _, .const _ | _, _, _, .ctor | _, _, _, .bvar _ | _, _, _, .free | _, _, _, .uvar
  | _, _, _, .lit => rfl
  | _, _, _, .app _ h has => by rw [doc, doc, h.doc_eq hL, has.docArgs_eq hL]
  | _, _, _, .lam _ h => by rw [doc, doc, h.doc_eq hL]
  | _, _, _, .case h hbrs => by rw [doc, doc, h.doc_eq hL, hbrs.docBranches_eq hL]
  | _, _, _, .ascribed h h₂ => by rw [doc, doc, h.doc_eq hL, h₂.doc_eq hL]
  | _, _, _, .annotated (n := .span _) h => by rw [doc, doc, h.doc_eq hL]
  | _, _, _, .annotated (n := .monadic _) h => by rw [doc, doc, h.doc_eq hL]
  | _, _, _, .reify h => by rw [doc, doc, h.doc_eq hL]
  | _, _, _, .blob h => by rw [doc, doc, hL.kind h]
  | _, _, _, .native h => by rw [doc, doc, hL.name h]

theorem AlikeArgs.docArgs_eq (hL : L.KeepsNames) : ∀ {k : Nat} {as as' : List (Term β σ)},
    L.AlikeArgs k as as' → docArgs as = docArgs as'
  | _, _, _, .nil => rfl
  | _, _, _, .cons h has => by rw [docArgs, docArgs, h.doc_eq hL, has.docArgs_eq hL]

theorem AlikeBranches.docBranches_eq (hL : L.KeepsNames) : ∀ {k : Nat}
    {brs brs' : List (Branch (Term β σ))}, L.AlikeBranches k brs brs' →
      docBranches brs = docBranches brs'
  | _, _, _, .nil => rfl
  | _, _, _, .cons h hbrs => by rw [docBranches, docBranches, h.doc_eq hL, hbrs.docBranches_eq hL]
end

theorem Alike.display_eq (hL : L.KeepsNames) {k : Nat} {t t' : Term β σ} (h : L.Alike k t t') :
    t.display = t'.display := by
  rw [display, display, render, render, h.doc_eq hL]

mutual
/-- The same is found in alike terms, if it is not told apart what is alike. -/
theorem Alike.anySubterm_eq {p : Term β σ → Bool} (hp : ∀ k t t', L.Alike k t t' → p t = p t') :
    ∀ {k : Nat} {t t' : Term β σ}, L.Alike k t t' → t.anySubterm p = t'.anySubterm p
  | _, _, _, .app hc h has => by
      rw [anySubterm, anySubterm, hp _ _ _ (.app hc h has), h.anySubterm_eq hp, has.anySubtermArgs_eq hp]
  | _, _, _, .lam hn h => by rw [anySubterm, anySubterm, hp _ _ _ (.lam hn h), h.anySubterm_eq hp]
  | _, _, _, .case h hbrs => by
      rw [anySubterm, anySubterm, hp _ _ _ (.case h hbrs), h.anySubterm_eq hp, hbrs.anySubtermBranches_eq hp]
  | _, _, _, .ascribed h h₂ => by
      rw [anySubterm, anySubterm, hp _ _ _ (.ascribed h h₂), h.anySubterm_eq hp, h₂.anySubterm_eq hp]
  | _, _, _, .annotated h => by rw [anySubterm, anySubterm, hp _ _ _ (.annotated h), h.anySubterm_eq hp]
  | _, _, _, .reify h => by rw [anySubterm, anySubterm, hp _ _ _ (.reify h), h.anySubterm_eq hp]
  | k, _, _, .const h => hp k _ _ (.const h)
  | k, _, _, .ctor => hp k _ _ .ctor
  | k, _, _, .bvar h => hp k _ _ (.bvar h)
  | k, _, _, .free => hp k _ _ .free
  | k, _, _, .uvar => hp k _ _ .uvar
  | k, _, _, .lit => hp k _ _ .lit
  | k, _, _, .blob h => hp k _ _ (.blob h)
  | k, _, _, .native h => hp k _ _ (.native h)

theorem AlikeArgs.anySubtermArgs_eq {p : Term β σ → Bool}
    (hp : ∀ k t t', L.Alike k t t' → p t = p t') : ∀ {k : Nat} {as as' : List (Term β σ)},
    L.AlikeArgs k as as' → anySubtermArgs p as = anySubtermArgs p as'
  | _, _, _, .nil => rfl
  | _, _, _, .cons h has => by
      rw [anySubtermArgs, anySubtermArgs, h.anySubterm_eq hp, has.anySubtermArgs_eq hp]

theorem AlikeBranches.anySubtermBranches_eq {p : Term β σ → Bool}
    (hp : ∀ k t t', L.Alike k t t' → p t = p t') : ∀ {k : Nat} {brs brs' : List (Branch (Term β σ))},
    L.AlikeBranches k brs brs' → anySubtermBranches p brs = anySubtermBranches p brs'
  | _, _, _, .nil => rfl
  | _, _, _, .cons h hbrs => by
      rw [anySubtermBranches, anySubtermBranches, h.anySubterm_eq hp, hbrs.anySubtermBranches_eq hp]
end

theorem Alike.mentionsUnfinished_eq {k : Nat} {t t' : Term β σ} (h : L.Alike k t t') :
    t.mentionsUnfinished = t'.mentionsUnfinished := by
  refine h.anySubterm_eq fun k u u' hu => ?_
  cases hu <;> rfl

/-- Of alike terms, alike subterms are to blame. -/
theorem Alike.blame : ∀ {k : Nat} {t t' : Term β σ}, L.Alike k t t' → L.Alike k t.blame t'.blame
  | _, _, _, .annotated h => h.blame
  | _, _, _, .ascribed h _ => h.blame
  | _, _, _, .case h _ => h.blame
  | _, _, _, .app hc h has => by
      have hs := h.strip
      have hb := h.blame
      rw [Term.blame, Term.blame]
      generalize Term.strip _ = f at hs
      generalize Term.strip _ = f' at hs
      cases hs <;> first | exact .app hc h has | exact hb
  | _, _, _, .const h => .const h
  | _, _, _, .ctor => .ctor
  | _, _, _, .bvar h => .bvar h
  | _, _, _, .free => .free
  | _, _, _, .uvar => .uvar
  | _, _, _, .lit => .lit
  | _, _, _, .lam hn h => .lam hn h
  | _, _, _, .reify h => .reify h
  | _, _, _, .blob h => .blob h
  | _, _, _, .native h => .native h

end Term

/-- The issue that an evaluation got stuck is the same for alike terms at one place. -/
theorem stuckIssue_eq (hL : L.KeepsNames) {env env' : Env β σ} (henv : env.range = env'.range) {k : Nat}
    {t t' : Term β σ} (h : L.Alike k t t') : (stuckIssue env t : Issue β) = stuckIssue env' t' := by
  rw [stuckIssue, stuckIssue, henv, h.blame.mentionsUnfinished_eq, h.blame.display_eq hL]

end TacticEngine
