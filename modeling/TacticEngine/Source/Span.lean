/-
# TacticEngine.Source.Span -- regions of source files.

A region of a file is given by the byte offsets of its first byte and of the byte behind it.  It is
shown as the file's name and the two offsets.
-/
import TacticEngine.Source.Path

namespace TacticEngine.Source

/-- A region of some text, by byte offsets: `start` is in it, `stop` is not. -/
structure Span where
  /-- The offset of the first byte. -/
  start : Nat := 0
  /-- The offset just behind the last byte. -/
  stop : Nat := 0
  deriving Repr, DecidableEq, Inhabited

/-- The two offsets, separated by two dots. -/
def Span.display (s : Span) : String :=
  toString s.start ++ ".." ++ toString s.stop

/-- A region of a source file. -/
structure FileSpan where
  /-- The file. -/
  file : Path := {}
  /-- The region inside it. -/
  span : Span := {}
  deriving Repr, BEq, Inhabited

namespace FileSpan

/-- The file's name and the two offsets. -/
def display (s : FileSpan) : String :=
  s.file.display ++ ":" ++ s.span.display

/-- What a hash of a region is computed from. -/
def fingerprint (s : FileSpan) : (String × UInt64) × Span :=
  (s.file.fingerprint, s.span)

end FileSpan

end TacticEngine.Source
