import TypedClosures.Report.Glyph

/-!
# Source text in lines

A text is cut after each line end, and a carriage return with a line feed is
one line end. A line keeps its end, so the lines put together are the text
again (`flatten_cut`). Offsets count characters from the start of the text.
-/

namespace TypedClosures.Report

/-- The lines of a text; nothing follows a final line end. -/
def cut : List Char → List (List Char)
  | [] => []
  | '\r' :: '\n' :: cs => ['\r', '\n'] :: cut cs
  | c :: cs =>
    if endsLine c then [c] :: cut cs
    else
      match cut cs with
      | [] => [[c]]
      | line :: lines => (c :: line) :: lines

theorem flatten_cut (cs : List Char) : (cut cs).flatten = cs := by
  fun_induction cut cs <;> simp_all

structure Line where
  start : Nat
  chars : List Char
  deriving Repr, DecidableEq, Inhabited

namespace Line

def stop (line : Line) : Nat := line.start + line.chars.length

def visible (line : Line) : List Char := (line.chars.reverse.dropWhile isBlank).reverse

end Line

def placed (start : Nat) : List (List Char) → List Line
  | [] => []
  | chars :: rest => ⟨start, chars⟩ :: placed (start + chars.length) rest

structure Source where
  lines : List Line
  length : Nat
  deriving Repr

namespace Source

/-- Even the empty text has a line. -/
def ofString (text : String) : Source :=
  let chars := text.toList
  ⟨if chars.isEmpty then [⟨0, []⟩] else placed 0 (cut chars), chars.length⟩

/-- The number of the last line, from 0 on, that starts at the offset or before it. The offset just
after the text is still in its last line. -/
def lineAt? (source : Source) (offset : Nat) : Option Nat :=
  if offset ≤ source.length then
    some ((source.lines.takeWhile fun line => line.start ≤ offset).length - 1)
  else none

def line (source : Source) (number : Nat) : Line := source.lines.getD number ⟨0, []⟩

end Source

/-- A line and a position in it, both counted from 1. -/
structure Place where
  line : Nat
  column : Nat
  deriving DecidableEq, Repr

def Source.place? (source : Source) (offset : Nat) : Option Place := do
  let number ← source.lineAt? offset
  return ⟨number + 1, offset - (source.line number).start + 1⟩

end TypedClosures.Report
