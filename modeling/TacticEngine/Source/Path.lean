/-
# TacticEngine.Source.Path -- paths of source files.

A path is kept as it was written, but two paths name the same file if they have the same
components: repeated and trailing slashes and inner `.` components do not count, a leading `.` does,
and `..` is never resolved.  A file is shown by its last proper name.
-/

namespace TacticEngine.Source

/-- A step of a path from one directory to the next. -/
inductive Component where
  /-- The leading slash. -/
  | root
  /-- A leading dot. -/
  | here
  /-- Two dots. -/
  | parent
  /-- A proper name. -/
  | name (s : String)
  deriving Repr, DecidableEq

/-- The text of a component inside a path; the root has none of its own. -/
def Component.text? : Component → Option String
  | .root => none
  | .here => some "."
  | .parent => some ".."
  | .name s => some s

/-- The pieces of a text between slashes. -/
def segments : List Char → List (List Char)
  | [] => [[]]
  | c :: rest =>
    match segments rest with
    | [] => [[c]]
    | s :: ss => if c = '/' then [] :: s :: ss else (c :: s) :: ss

/-- The component that a piece between slashes stands for, if it stands for one. -/
def Component.ofSegment? (s : List Char) : Option Component :=
  if s = [] ∨ s = ['.'] then none
  else if s = ['.', '.'] then some .parent
  else some (.name (String.ofList s))

/-- The path of a source file, as written. -/
structure Path where
  /-- The path as written. -/
  text : String := ""
  deriving Repr, Inhabited

namespace Path

/-- The components of a path. -/
def components (p : Path) : List Component :=
  match segments p.text.toList with
  | [] => []
  | first :: rest =>
    let start :=
      if first = [] then (if rest = [] then [] else [Component.root])
      else if first = ['.'] then [.here]
      else (Component.ofSegment? first).toList
    start ++ rest.filterMap Component.ofSegment?

/-- Paths are compared by component. -/
instance : BEq Path := ⟨fun p q => p.components == q.components⟩

/-- The last component, if it is a proper name. -/
def fileName? (p : Path) : Option String :=
  match p.components.getLast? with
  | some (.name s) => some s
  | _ => none

/-- A file is shown by its name, or by the whole path if it has none. -/
def display (p : Path) : String :=
  p.fileName?.getD p.text

/-- What a hash of a path is computed from: the bytes of the components, run together, and a word
that mixes their lengths, so that `a/bc` and `ab/c` differ.  The root leaves no trace, hence `/a` and
`a` have one fingerprint although they are different paths. -/
def fingerprint (p : Path) : String × UInt64 :=
  let texts := p.components.filterMap Component.text?
  let mix := texts.foldl (fun (acc : UInt64) s =>
    let sum := acc + UInt64.ofNat s.utf8ByteSize
    (sum >>> 2) ||| (sum <<< 62)) 0
  (String.join texts, mix)

end Path

end TacticEngine.Source
