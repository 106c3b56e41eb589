import TypedClosures.Report.Source
import TypedClosures.Fault

/-!
# Drawing a fault

A report has the message, the place, the lines that the span covers, and the
label under them. A span inside one line is underlined and the label hangs from
its middle; a longer one is bracketed from its first line to its last, and what
lies between is left out. A span that starts outside the text gives the message
alone.

A fault is handed to a renderer as a diagnostic, with its span as it is. The one
that draws takes the offsets of a span as counts of characters.
-/

namespace TypedClosures.Report

def repeated (n : Nat) (s : String) : String := String.join (List.replicate n s)

def drawn (chars : List Char) : String :=
  String.join (chars.zipIdx.map fun (c, column) =>
    if c = '\t' then repeated (tabWidth column) " "
    else if isBlank c then " "
    else c.toString)

/-- The width of the character in a column; past the end of the line it is 1. -/
def columnWidth (chars : List Char) (column : Nat) : Nat :=
  match chars[column]? with
  | some c => charWidth column c
  | none => 1

def mark (width : Nat) (head tail : String) : String :=
  if width = 0 then "" else head ++ repeated (width - 1) tail

structure Gutter where
  width : Nat

namespace Gutter

def ofLast (number : Nat) : Gutter := ⟨(Nat.repr (number + 1)).length⟩

def blank (g : Gutter) : String := repeated (g.width + 2) " "

def margin (g : Gutter) : String := g.blank ++ "│ "

def numbered (g : Gutter) (number : Nat) : String :=
  let digits := Nat.repr (number + 1)
  " " ++ repeated (g.width - digits.length) " " ++ digits ++ " │ "

end Gutter

def underlineMark (span : Span) (line : Line) (middle column width : Nat) : String :=
  let covered := span.start ≤ line.start + column && line.start + column < span.stop
  if column = middle then
    if covered then mark width "┬" "─" else mark width "│" " "
  else if covered then mark width "─" "─"
  else mark width " " " "

def leaderMark (middle column width : Nat) : String :=
  if column = middle then mark width "╰" "─"
  else if middle < column then mark width "─" "─"
  else mark width " " " "

/-- A span inside one line. Where it reaches past the text, the line is left out. -/
def oneLine (g : Gutter) (number : Nat) (line : Line) (span : Span) (label : String) :
    List String :=
  if line.stop < span.stop then [g.margin]
  else
    let chars := line.visible
    let middle := (span.start + span.stop) / 2 - line.start
    let columns := List.range (span.stop - line.start + 2)
    let row (f : Nat → Nat → String) : String :=
      String.join (columns.map fun column => f column (columnWidth chars column))
    [g.numbered number ++ drawn chars,
      g.margin ++ row (underlineMark span line middle),
      g.margin ++ row (leaderMark middle) ++ " " ++ label]

/-- The lines of a longer span after its first. The one that holds offset
`last` ends the bracket; the others are left out, with one sign for all. -/
def laterLines (g : Gutter) (last : Nat) (label : String) :
    List (Line × Nat) → Bool → List String
  | [], _ => []
  | (line, number) :: rest, elided =>
    if line.start ≤ last && last < line.stop then
      let chars := line.visible
      let width := (List.range (line.chars.length + 2)).foldl
        (fun width column => width + columnWidth chars column) 0
      [g.numbered number ++ "├─▶ " ++ drawn chars,
        g.margin ++ "│   " ++ repeated width " ",
        g.margin ++ "╰───" ++ repeated width "─" ++ " " ++ label]
        ++ laterLines g last label rest elided
    else if elided then laterLines g last label rest true
    else (g.blank ++ "┆ ┆   ") :: laterLines g last label rest true

def manyLines (g : Gutter) (source : Source) (first final : Nat) (span : Span)
    (label : String) : List String :=
  let later := (source.lines.zipIdx.take (final + 1)).drop (first + 1)
  (g.numbered first ++ "╭─▶ " ++ drawn (source.line first).visible)
    :: laterLines g (max (span.stop - 1) span.start) label later false

/-- The first and the last line of a span; an empty span lies in one line. -/
def lineRange? (source : Source) (span : Span) : Option (Nat × Nat) := do
  let first ← source.lineAt? span.start
  let final ← if span.stop ≤ span.start then some first else source.lineAt? (span.stop - 1)
  return (first, final)

def header (g : Gutter) (place : Place) : String :=
  g.blank ++ "╭─[ <unknown>:" ++ Nat.repr place.line ++ ":" ++ Nat.repr place.column ++ " ]"

def excerpt (source : Source) (span : Span) (label : String) : List String :=
  match lineRange? source span, source.place? span.start with
  | some (first, final), some place =>
    let g := Gutter.ofLast final
    let body :=
      if first = final then oneLine g first (source.line first) span label
      else manyLines g source first final span label
    header g place :: (g.blank ++ "│") :: body ++ [repeated (g.width + 2) "─" ++ "╯"]
  | _, _ => []

inductive Refusal
  | startAfterStop
  deriving DecidableEq, Repr

def Refusal.message : Refusal → String
  | .startAfterStop => "Label start is after its end"

-- ---------------------------------------------------------------------------
-- Renderers
-- ---------------------------------------------------------------------------

structure Diagnostic where
  span : Span
  message : String
  label : String
  deriving DecidableEq, Repr

/-- Where an offset into a text is, and what a diagnostic looks like against the text. -/
structure Renderer where
  place? : String → Nat → Option Place
  write : Diagnostic → String → Except Refusal String

def drawing : Renderer where
  place? text offset := (Source.ofString text).place? offset
  write d text :=
    if d.span.stop < d.span.start then .error .startAfterStop
    else
      let lines := ("Error: " ++ d.message) :: excerpt (.ofString text) d.span d.label
      .ok (String.join (lines.map (· ++ "\n")))

end TypedClosures.Report

namespace TypedClosures.Fault

def diagnostic (fault : Fault) : Report.Diagnostic :=
  ⟨fault.span, fault.message, fault.cause.label⟩

/-- The report of a fault against the text it was found in. -/
def renderWith (renderer : Report.Renderer) (fault : Fault) (text : String) :
    Except Report.Refusal String :=
  renderer.write fault.diagnostic text

def render (fault : Fault) (text : String) : Except Report.Refusal String :=
  fault.renderWith Report.drawing text

end TypedClosures.Fault
