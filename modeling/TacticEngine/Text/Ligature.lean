/-
# TacticEngine.Text.Ligature -- letters that are drawn as one with the letter before them.

In some scripts two neighbouring letters share one picture, directly or by way of a joiner between
them.  A `Ligature` is what is known of the second letter when a text is read from its end:
`Ligature.extend?` says which characters in front of it complete the picture, and how many columns
they add to those already counted.  Ignorable marks between the letters leave the picture whole.
-/
import TacticEngine.Text.Emoji
import TacticEngine.Text.GraphemeExtend

namespace TacticEngine.Text

/-- The joiner U+200D. -/
def zeroWidthJoiner : Char := '\u200d'

/-! ## Classes of letters -/

/-- The Arabic letters shaped like alef. -/
def arabicAlef : CharRanges := [
  (0x622, 0x623), (0x625, 0x625), (0x627, 0x627), (0x671, 0x673), (0x675, 0x675), (0x773, 0x774),
  (0x870, 0x882)]

/-- The Arabic letters shaped like lam. -/
def arabicLam : CharRanges := [
  (0x644, 0x644), (0x6b5, 0x6b8), (0x76a, 0x76a), (0x8a6, 0x8a6), (0x8c7, 0x8c7)]

/-- The Khmer letters that may be written below another letter, after U+17D2. -/
def khmerSubscripts : CharRanges := [
  (0x1780, 0x1782), (0x1784, 0x1787), (0x1789, 0x178c), (0x178e, 0x1793), (0x1795, 0x1798),
  (0x179b, 0x179d), (0x17a0, 0x17a0), (0x17a2, 0x17a2), (0x17a7, 0x17a7), (0x17ab, 0x17ac),
  (0x17af, 0x17af)]

/-- The consonants of Tifinagh. -/
def tifinaghConsonants : CharRanges := [(0x2d31, 0x2d65), (0x2d6f, 0x2d6f)]

/-- The Lisu tones written first in a pair. -/
def lisuFirstTones : CharRanges := [(0xa4f8, 0xa4fb)]

/-- The Lisu tones written second in a pair. -/
def lisuSecondTones : CharRanges := [(0xa4fc, 0xa4fd)]

/-- Marks that may stand inside a ligature: the combining ones among the ignorable characters. -/
def ligatureMarks : CharRanges := [
  (0x34f, 0x34f), (0x17b4, 0x17b5), (0x180b, 0x180d), (0x180f, 0x180f), (0xfe00, 0xfe0f),
  (0xe0100, 0xe01ef)]

/-- The characters without a column of their own that part an Arabic lam from its alef. -/
def joiningBarriers : CharRanges := [
  (0x605, 0x605), (0x890, 0x891), (0x8e2, 0x8e2), (0x9be, 0x9be), (0x9d7, 0x9d7), (0xb3e, 0xb3e),
  (0xb57, 0xb57), (0xbbe, 0xbbe), (0xbd7, 0xbd7), (0xcc0, 0xcc0), (0xcc2, 0xcc2), (0xcc7, 0xcc8),
  (0xcca, 0xccb), (0xcd5, 0xcd6), (0xd3e, 0xd3e), (0xd4e, 0xd4e), (0xd57, 0xd57), (0xdcf, 0xdcf),
  (0xddf, 0xddf), (0x1160, 0x11ff), (0x1715, 0x1715), (0x1734, 0x1734), (0x180e, 0x180e),
  (0x1b35, 0x1b35), (0x1b3b, 0x1b3b), (0x1b3d, 0x1b3d), (0x1b43, 0x1b44), (0x1baa, 0x1baa),
  (0x1bf2, 0x1bf3), (0x200c, 0x200d), (0x2065, 0x2069), (0x302e, 0x302f), (0x3164, 0x3164),
  (0xa8fa, 0xa8fa), (0xa953, 0xa953), (0xa9c0, 0xa9c0), (0xd7b0, 0xd7c6), (0xd7cb, 0xd7fb),
  (0xffa0, 0xffa0), (0xfff0, 0xfff8), (0x111c0, 0x111c0), (0x111c2, 0x111c3), (0x11235, 0x11235),
  (0x1133e, 0x1133e), (0x1134d, 0x1134d), (0x11357, 0x11357), (0x113b8, 0x113b8),
  (0x113c2, 0x113c2), (0x113c5, 0x113c5), (0x113c7, 0x113c9), (0x113cf, 0x113cf),
  (0x113d1, 0x113d1), (0x114b0, 0x114b0), (0x114bd, 0x114bd), (0x115af, 0x115af),
  (0x116b6, 0x116b6), (0x11930, 0x11930), (0x1193d, 0x1193d), (0x1193f, 0x1193f),
  (0x11941, 0x11941), (0x11a84, 0x11a89), (0x11d46, 0x11d46), (0x11f02, 0x11f02),
  (0x11f41, 0x11f41), (0x16ff0, 0x16ff1), (0x1d165, 0x1d166), (0x1d16d, 0x1d172),
  (0xe0000, 0xe0000), (0xe0002, 0xe001f), (0xe0080, 0xe00ff), (0xe01f0, 0xe0fff)]

/-! ## Ligatures -/

/-- The second letter of a possible ligature. -/
inductive Ligature where
  /-- Hebrew lamed, after alef. -/
  | lamed
  /-- Buginese ya, after the vowel sign i. -/
  | ya
  /-- The Buginese vowel sign i and ya, after the letter a. -/
  | vowelYa
  /-- A Tifinagh consonant, after another one. -/
  | consonant
  /-- A Tifinagh consonant with the joiner of that script before it. -/
  | joinedConsonant
  /-- A second tone of Lisu. -/
  | tone
  /-- Old Turkic i, after the letter ich. -/
  | orkhonI
  /-- A Khmer letter, below another one. -/
  | subscript
  deriving Repr, DecidableEq

namespace Ligature

/-- The ligature whose second letter is `c`. -/
def ofChar? (c : Char) : Option Ligature :=
  if c = '\u05dc' then some .lamed
  else if c = '\u1a10' then some .ya
  else if tifinaghConsonants.mem c then some .consonant
  else if lisuSecondTones.mem c then some .tone
  else if c.toNat = 0x10c03 then some .orkhonI
  else if khmerSubscripts.mem c then some .subscript
  else none

/-- The ligature with `c` in front of it: the columns that `c` adds, and what a further character
may complete.  `afterJoiner` tells whether a joiner stands between the two. -/
def extend? (afterJoiner : Bool) (c : Char) : Ligature → Option (Int × Option Ligature)
  | .lamed => if afterJoiner && c = '\u05d0' then some (0, none) else none
  | .ya => if afterJoiner && c = '\u1a17' then some (0, some .vowelYa) else none
  | .vowelYa => if c = '\u1a15' then some (0, none) else none
  | .consonant =>
    if c = '\u2d7f' then some (1, some .joinedConsonant)
    else if afterJoiner && tifinaghConsonants.mem c then some (0, none)
    else none
  | .joinedConsonant => if tifinaghConsonants.mem c then some (-1, none) else none
  | .tone => if lisuFirstTones.mem c then some (0, none) else none
  | .orkhonI => if afterJoiner && c.toNat = 0x10c32 then some (0, none) else none
  | .subscript => if c = '\u17d2' then some (-1, none) else none

end Ligature

end TacticEngine.Text
