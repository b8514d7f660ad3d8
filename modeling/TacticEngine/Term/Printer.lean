/-
# TacticEngine.Term.Printer -- how terms are shown.

Terms are shown as parenthesised lists, laid out on lines of eighty columns.  Source regions are not
shown, effects and ascriptions are.
-/
import TacticEngine.Term.Basic
import TacticEngine.Text.Layout
import TacticEngine.Proof.UVarTable

namespace TacticEngine

open Text

/-- A literal as it is written. -/
def Literal.display : Literal → String
  | .unit => "()"
  | .bool b => if b then "true" else "false"
  | .int n => toString n
  | .string s => quote s

/-- A pattern as it is written; fields have no names. -/
def Pattern.display : Pattern → String
  | .ctor c 0 => c
  | .ctor c n => "(" ++ c ++ String.join (List.replicate n " _") ++ ")"
  | .lit l => l.display
  | .var => "x"
  | .wild => "_"

namespace Term

variable {β σ : Type}

mutual
/-- The document of a term. -/
def doc : Term β σ → Doc
  | .const c => .ofText c
  | .ctor c => .ofText c
  | .bvar i => .text ("#" ++ toString i)
  | .free x => .ofText x
  | .uvar u => .text (displayUVar u)
  | .lit l => .text l.display
  | .app h args => .paren (h.doc :: docArgs args)
  | .lam n b => .paren [.text ("fun/" ++ toString n), b.doc]
  | .case s brs => .paren (.text "match" :: s.doc :: docBranches brs)
  | .ascribed a t => .paren [a.doc, .text "<:", t.doc]
  | .annotated a (.span _) => a.doc
  | .annotated a (.monadic m) => .paren [.text ("monadic[" ++ m ++ "]"), a.doc]
  | .reify a => .paren [.text "reify", a.doc]
  | .blob b => .text ("<" ++ b.kind.display ++ ">")
  | .native s => .text ("<native " ++ s.name ++ ">")

/-- The documents of arguments. -/
def docArgs : List (Term β σ) → List Doc
  | [] => []
  | a :: as => a.doc :: docArgs as

/-- The documents of branches. -/
def docBranches : List (Branch (Term β σ)) → List Doc
  | [] => []
  | ⟨p, b⟩ :: brs => .paren [.ofText p.display, .text "=>", b.doc] :: docBranches brs
end

/-- A term laid out on lines of the given width. -/
def render (width : Nat) (t : Term β σ) : String := t.doc.render width

/-- A term as it is shown. -/
def display (t : Term β σ) : String := t.render 80

end Term

end TacticEngine
