/-
# TacticEngine.Text.Quoted -- the written form of a string.

A string is written between double quotes.  A quote and a backslash are escaped by a backslash, a
newline, carriage return, tabulator and NUL have letters of their own, and every character that has
no picture of its own, would be drawn onto the character before it, or might not be drawn at all, is
written as its code point in hexadecimal between braces.  Everything else stands for itself.
-/
import TacticEngine.Text.GraphemeExtend
import TacticEngine.Text.Ignorable
import TacticEngine.Text.Printable

namespace TacticEngine.Text

/-- Hexadecimal digits of a code point, lower case and without leading zeros. -/
def hexDigits (n : Nat) : List Char :=
  Nat.toDigits 16 n

/-- The voicing marks of halfwidth Katakana, which extend a grapheme and yet have a cell of their
own. -/
def halfwidthVoicingMarks : CharRanges := [(0xff9e, 0xff9f)]

/-- Would a reader see the character, and see it apart from its neighbours? -/
def isLegible (c : Char) : Bool :=
  isPrintable c && !ignorable.mem c && (!graphemeExtend.mem c || halfwidthVoicingMarks.mem c)

/-- The written form of one character inside a quoted string. -/
def escapeChar (c : Char) : List Char :=
  match c with
  | '"' => ['\\', '"']
  | '\\' => ['\\', '\\']
  | '\n' => ['\\', 'n']
  | '\r' => ['\\', 'r']
  | '\t' => ['\\', 't']
  | '\x00' => ['\\', '0']
  | c =>
    if isLegible c then [c]
    else '\\' :: 'u' :: '\x7b' :: hexDigits c.toNat ++ ['\x7d']

/-- The written form of a string. -/
def quote (s : String) : String :=
  String.ofList ('"' :: s.toList.flatMap escapeChar ++ ['"'])

end TacticEngine.Text
