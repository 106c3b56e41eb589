/-!
# Names, spans and slots

The small vocabulary that every later module shares: names of variables and
base types, the stretch of source text that a node came from, and the numbers
of the cells in which compiled code keeps its variables.
-/

namespace TypedClosures

abbrev Name := String

/-- A half-open stretch of source text, in bytes. Nothing asks for `start ≤ stop`: a
span is data, and only drawing it needs the two ends to be in order. -/
structure Span where
  start : Nat
  stop : Nat
  deriving DecidableEq, Repr

def Span.none : Span := ⟨0, 0⟩

instance : Inhabited Span := ⟨.none⟩

abbrev Slot := Nat

def Slot.text (slot : Slot) : String := "#" ++ Nat.repr slot

def Slot.sort (slots : List Slot) : List Slot := slots.mergeSort (· ≤ ·)

end TypedClosures
