/-
# TacticEngine.Text.Columns -- how many terminal columns a text takes.

The layout of documents measures text by a library for the width of characters.  That is no part of the
engine; what is said here stands for it, and so do the tables of the classes of characters.

A text made of ASCII characters only is measured by its length, control characters included.  In any other
text a character of the East Asian width classes W and F takes two
columns, a character that is drawn onto its neighbour or not drawn at all takes none, every other
character takes one; and characters that are drawn as one picture are measured as that picture: a
line break of two characters, the ligatures of some scripts, emoji with a selector, a modifier or
joined to each other.

Whether a character belongs to a picture depends on what follows it.  So a text is measured from its
end, and `Ahead` is what is remembered of the part already measured.
-/
import TacticEngine.Text.Ignorable
import TacticEngine.Text.Ligature
import TacticEngine.Text.Wide

namespace TacticEngine.Text

/-! ## Single characters -/

/-- Characters that take no column although they neither extend a grapheme nor are ignorable: vowels
and final consonants of conjoining Hangul, marks written before the letters they belong to, and the
caret of Devanagari. -/
def columnlessChars : CharRanges := [
  (0x605, 0x605), (0x70f, 0x70f), (0x890, 0x891), (0x8e2, 0x8e2), (0xd4e, 0xd4e),
  (0x1160, 0x11ff), (0xa8fa, 0xa8fa), (0xd7b0, 0xd7c6), (0xd7cb, 0xd7fb), (0x111c2, 0x111c3),
  (0x113d1, 0x113d1), (0x1193f, 0x1193f), (0x11941, 0x11941), (0x11a84, 0x11a89),
  (0x11d46, 0x11d46), (0x11f02, 0x11f02)]

/-- Characters of the classes without a column that are drawn all the same: the filler of initial
Hangul consonants, the joiner of Tifinagh and the halfwidth voicing marks. -/
def drawnMarks : CharRanges := [(0x115f, 0x115f), (0x2d7f, 0x2d7f), (0xff9e, 0xff9f)]

/-- A character that takes no column by itself. -/
def isColumnless (c : Char) : Bool :=
  (graphemeExtend.mem c || ignorable.mem c || columnlessChars.mem c) && !drawnMarks.mem c

/-- The columns of a character of Khmer that stands for two or three letters and is drawn as them:
the vowel qaa, written as a letter and a vowel sign, and the sign beyyal. -/
def khmerColumns? (c : Char) : Option Nat :=
  if c = '\u17a4' then some 2
  else if c = '\u17d8' then some 3
  else none

/-- The columns of one character by itself. -/
def charColumns (c : Char) : Nat :=
  if c.toNat ≤ 0xa0 || regionalIndicators.mem c then 1
  else if isColumnless c then 0
  else if eastAsianWide.mem c || reservedPictographs.mem c then 2
  else (khmerColumns? c).getD 1

/-! ## What has been measured -/

/-- A variation selector that changes the width of the character before it. -/
inductive Selector where
  /-- U+FE01 behind a quotation mark: as wide as an ideograph. -/
  | fullwidth
  /-- U+FE0E: as text. -/
  | text
  /-- U+FE0F: as an emoji. -/
  | emoji
  deriving Repr, DecidableEq

/-- The selector that a character is. -/
def Selector.ofChar? (c : Char) : Option Selector :=
  if c = '\ufe01' then some .fullwidth
  else if c = '\ufe0e' then some .text
  else if c = '\ufe0f' then some .emoji
  else none

/-- An element of an emoji sequence, read up to its last characters, with a joiner and an emoji
behind it. -/
inductive Element where
  /-- Nothing of it has been read. -/
  | unread
  /-- It ends in the keycap U+20E3. -/
  | keycap
  /-- It ends in so many regional indicators. -/
  | indicators (count : Nat)
  /-- It is a flag that ends in so many tag letters and the closing tag. -/
  | tagLetters (count : Nat)
  /-- It is a flag that ends in so many tag digits, at least, and the closing tag. -/
  | tagDigits (count : Nat)
  deriving Repr, DecidableEq

/-- The first picture of a text, as far as a character in front of it can become part of it. -/
inductive Lead where
  /-- A picture that nothing joins. -/
  | closed
  /-- A line feed, which a carriage return joins. -/
  | lineFeed
  /-- An Arabic alef. -/
  | alef
  /-- The second letter of another ligature, and whether a joiner precedes it. -/
  | ligature (second : Ligature) (afterJoiner : Bool)
  /-- The Kirat Rai vowel sign e. -/
  | vowelE
  /-- The Kirat Rai vowel sign ai. -/
  | vowelAi
  /-- A modifier of skin tone. -/
  | modifier
  /-- One regional indicator. -/
  | indicator
  /-- Several regional indicators. -/
  | indicators
  /-- An emoji. -/
  | emoji
  /-- A joiner and an emoji, after an element of the same sequence. -/
  | joined (element : Element)
  deriving Repr, DecidableEq

/-- What is remembered of the text behind a character: its first picture, and the selector before
it. -/
structure Ahead where
  /-- The first picture. -/
  lead : Lead
  /-- The selector in front of it. -/
  selector? : Option Selector
  deriving Repr, DecidableEq

/-- The picture that a character opens by itself. -/
def Lead.ofChar (c : Char) : Lead :=
  if c = '\n' then .lineFeed
  else if arabicAlef.mem c then .alef
  else if c.toNat = 0x16d67 then .vowelE
  else if c.toNat = 0x16d68 then .vowelAi
  else if regionalIndicators.mem c then .indicator
  else if emojiModifiers.mem c then .modifier
  else if emojiPresentation.mem c then .emoji
  else match Ligature.ofChar? c with
    | some second => .ligature second false
    | none => .closed

/-- Selectors in front of the picture do not part it from what precedes them. -/
def Lead.ignoresSelectors : Lead → Bool
  | .alef | .ligature _ _ => true
  | _ => false

namespace Ahead

/-- Nothing that matters to the character in front. -/
def closed : Ahead := ⟨.closed, none⟩

/-- With a selector in front; the selector of emoji also stands inside a joined sequence. -/
def select (a : Ahead) (s : Selector) : Ahead :=
  match a.lead with
  | .joined _ => if s = .emoji then ⟨a.lead, some s⟩ else ⟨.closed, some s⟩
  | lead => if lead.ignoresSelectors then ⟨lead, some s⟩ else ⟨.closed, some s⟩

/-- With the selector in front found to be without effect. -/
def unselect (a : Ahead) : Ahead :=
  match a.selector? with
  | none => a
  | some _ => if a.lead.ignoresSelectors then ⟨a.lead, none⟩ else closed

end Ahead

/-! ## Pictures of several characters -/

/-- The tags that spell letters. -/
def letterTags : CharRanges := [(0xe0061, 0xe007a)]

/-- The tags that spell digits. -/
def digitTags : CharRanges := [(0xe0030, 0xe0039)]

/-- An element of a joined sequence with `c` in front: the columns that `c` adds to those of the
emoji behind the joiner.  Indicators count as flags by twos from their first on, so which of them
belongs to the sequence changes with each further one. -/
def Element.extend? (c : Char) : Element → Option (Int × Lead)
  | .unread =>
    if c = '\u20e3' then some (0, .joined .keycap)
    else if regionalIndicators.mem c then some (1, .joined (.indicators 1))
    else if emojiModifiers.mem c then some (0, .modifier)
    else if c.toNat = 0xe007f then some (0, .joined (.tagLetters 0))
    else if emojiPresentation.mem c then some (0, .emoji)
    else none
  | .keycap => none
  | .indicators n =>
    if regionalIndicators.mem c then
      some (if n % 2 = 1 then -1 else 3, .joined (.indicators (n + 1)))
    else if c = zeroWidthJoiner && 2 ≤ n then some (0, .joined .unread)
    else none
  | .tagLetters n =>
    if letterTags.mem c && n < 6 then some (0, .joined (.tagLetters (n + 1)))
    else if digitTags.mem c && n < 5 then some (0, .joined (.tagDigits 1))
    else if c.toNat = 0x1f3f4 && 3 ≤ n then some (0, .emoji)
    else none
  | .tagDigits n =>
    if digitTags.mem c && n < 3 then some (0, .joined (.tagDigits (n + 1)))
    else if c.toNat = 0x1f3f4 && n = 3 then some (0, .emoji)
    else none

/-- The first picture of a text with `c` in front as a part of it, and the columns that `c` adds;
nothing if `c` is a picture of its own. -/
def Lead.extend? (c : Char) : Lead → Option (Int × Lead)
  | .closed => none
  | .lineFeed => if c = '\r' then some (0, .closed) else none
  | .alef =>
    if arabicLam.mem c then some (0, .closed)
    else if isColumnless c && !joiningBarriers.mem c then some (0, .alef)
    else none
  | .ligature second afterJoiner =>
    if c = zeroWidthJoiner then some (0, .ligature second true)
    else if ligatureMarks.mem c then some (0, .ligature second afterJoiner)
    else (second.extend? afterJoiner c).map fun (n, more?) =>
      (n, more?.elim .closed (.ligature · true))
  | .vowelE =>
    if c.toNat = 0x16d63 || c.toNat = 0x16d69 then some (0, .closed)
    else if c.toNat = 0x16d67 then some (0, .vowelAi)
    else if c.toNat = 0x16d68 then some (1, .vowelE)
    else none
  | .vowelAi => if c.toNat = 0x16d63 then some (0, .closed) else none
  | .modifier =>
    if emojiModifierBase.mem c then some (0, .emoji)
    else if c = zeroWidthJoiner then some (0, .joined .unread)
    else none
  | .indicator => if regionalIndicators.mem c then some (1, .indicators) else none
  | .indicators =>
    if regionalIndicators.mem c then some (1, .indicators)
    else if c = zeroWidthJoiner then some (0, .joined .unread)
    else none
  | .emoji => if c = zeroWidthJoiner then some (0, .joined .unread) else none
  | .joined element => element.extend? c

/-- The quotation marks whose width a selector decides. -/
def selectableQuotes : CharRanges := [(0x2018, 0x2019), (0x201c, 0x201d)]

/-- A selector makes a picture of itself and the character before it, if they are a listed pair: its
columns, less if the emoji is joined to the next one, and the picture. -/
def Selector.combine? (c : Char) (lead : Lead) : Selector → Option (Int × Lead)
  | .emoji =>
    if emojiVariationBase.mem c then
      match lead with
      | .joined _ => some (0, .emoji)
      | _ => some (2, .emoji)
    else none
  | .text => if narrowsAsText c then some (1, .closed) else none
  | .fullwidth => if selectableQuotes.mem c then some (2, .closed) else none

/-! ## Texts -/

/-- A text measured, with one more character in front. -/
def measureBefore (c : Char) : Int × Ahead → Int × Ahead
  | (n, ahead) =>
    match ahead.selector?.bind (Selector.combine? c ahead.lead) with
    | some (more, lead) => (n + more, ⟨lead, none⟩)
    | none =>
      match Selector.ofChar? c with
      | some s => (n, ahead.unselect.select s)
      | none =>
        match ahead.unselect.lead.extend? c with
        | some (more, lead) => (n + more, ⟨lead, none⟩)
        | none => (n + charColumns c, ⟨.ofChar c, none⟩)

/-- The columns of a text. -/
def columns (s : String) : Nat :=
  if s.toList.all (·.toNat < 0x80) then s.length
  else (s.toList.foldr measureBefore (0, .closed)).1.toNat

end TacticEngine.Text
