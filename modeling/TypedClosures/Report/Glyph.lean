import TypedClosures.Report.Ranges

/-!
# Characters as they are drawn

Which characters are white space, which end a line, and how many columns of a
terminal each one takes. A tab is as wide as the way to its next stop, so a
width depends on where the character stands.

The sets are properties of Unicode: `blank` is White_Space, and `ignorable` is
Default_Ignorable_Code_Point, characters that are not drawn. The vowels and final
consonants of Hangul in `joiningJamo` join the syllable before them, the signs in
`preceding` the character after them; the Devanagari caret counts among these.
-/

namespace TypedClosures.Report

-- ---------------------------------------------------------------------------
-- Blanks and line ends
-- ---------------------------------------------------------------------------

def blank : Ranges :=
  [(0x9, 0xd), (0x20, 0x20), (0x85, 0x85), (0xa0, 0xa0), (0x1680, 0x1680), (0x2000, 0x200a),
    (0x2028, 0x2029), (0x202f, 0x202f), (0x205f, 0x205f), (0x3000, 0x3000)]

def isBlank (c : Char) : Bool := blank.has c

def lineEnd : Ranges := [(0xa, 0xd), (0x85, 0x85), (0x2028, 0x2029)]

def endsLine (c : Char) : Bool := lineEnd.has c

-- ---------------------------------------------------------------------------
-- Widths
-- ---------------------------------------------------------------------------

def ignorable : Ranges :=
  [(0xad, 0xad), (0x34f, 0x34f), (0x61c, 0x61c), (0x115f, 0x1160), (0x17b4, 0x17b5),
    (0x180b, 0x180f), (0x200b, 0x200f), (0x202a, 0x202e), (0x2060, 0x206f), (0x3164, 0x3164),
    (0xfe00, 0xfe0f), (0xfeff, 0xfeff), (0xffa0, 0xffa0), (0xfff0, 0xfff8), (0x1bca0, 0x1bca3),
    (0x1d173, 0x1d17a), (0xe0000, 0xe0fff)]

def joiningJamo : Ranges := [(0x1160, 0x11ff), (0xd7b0, 0xd7c6), (0xd7cb, 0xd7fb)]

def preceding : Ranges :=
  [(0x605, 0x605), (0x70f, 0x70f), (0x890, 0x891), (0x8e2, 0x8e2), (0xd4e, 0xd4e),
    (0xa8fa, 0xa8fa), (0x111c2, 0x111c3), (0x1193f, 0x1193f), (0x11941, 0x11941),
    (0x11a3a, 0x11a3a), (0x11a84, 0x11a89), (0x11d46, 0x11d46), (0x11f02, 0x11f02)]

/-- Vowel signs of Kannada and Balinese that are equivalent to two extending
signs in a row, and so are set like them. -/
def doubleVowel : Ranges :=
  [(0xcc0, 0xcc0), (0xcc7, 0xcc8), (0xcca, 0xccb), (0x1b3b, 0x1b3b), (0x1b3d, 0x1b3d),
    (0x1b43, 0x1b43)]

def isZeroWidth (c : Char) : Bool :=
  ignorable.has c || extending.has c || doubleVowel.has c || joiningJamo.has c || preceding.has c

/-- How many columns a character takes that is no blank. Four characters have
a width of their own: the Tifinagh consonant joiner is drawn where it joins
nothing, the Hangul initial filler holds the place of a whole syllable, and two
Khmer signs stand for two and three letters. -/
def glyphWidth (c : Char) : Nat :=
  if c = '\u2d7f' then 1
  else if c = '\u115f' || c = '\u17a4' then 2
  else if c = '\u17d8' then 3
  else if isZeroWidth c then 0
  else if wide.has c then 2
  else 1

/-- The width of a tab that starts in the given column: up to the next stop,
and stops are four columns apart. -/
def tabWidth (column : Nat) : Nat := (column / 4 + 1) * 4 - column

def charWidth (column : Nat) (c : Char) : Nat :=
  if c = '\t' then tabWidth column
  else if isBlank c then 1
  else glyphWidth c

end TypedClosures.Report
