import TypedClosures.Basic
import Std.Data.TreeMap
import Std.Data.TreeMap.Lemmas

/-!
# Frames

A frame hands out slots to names: a new name gets the next free slot, a known
name keeps the one it has. The names stand in slot order, and an index beside
them answers look-ups. A frame is told apart from another by its names alone
(`Alike`); that the index agrees with them is `Sound`, which holds of the empty
frame and is kept by `findOrAdd`. A `SoundFrame` carries the proof with it.
-/

namespace TypedClosures

structure Frame where
  names : Array Name
  index : Std.TreeMap Name Slot

namespace Frame

def empty : Frame := ⟨#[], ∅⟩

instance : Inhabited Frame := ⟨empty⟩

def size (frame : Frame) : Nat := frame.names.size

def isEmpty (frame : Frame) : Bool := frame.names.isEmpty

def find? (frame : Frame) (name : Name) : Option Slot := frame.index[name]?

def push (frame : Frame) (name : Name) : Frame :=
  ⟨frame.names.push name, frame.index.insert name frame.size⟩

def findOrAdd (frame : Frame) (name : Name) : Slot × Frame :=
  match frame.find? name with
  | some slot => (slot, frame)
  | none => (frame.size, frame.push name)

def addAll (frame : Frame) (names : List Name) : Frame :=
  names.foldl (fun frame name => (frame.findOrAdd name).2) frame

def ofNames (names : List Name) : Frame := empty.addAll names

def entries (frame : Frame) : List (Name × Slot) := frame.names.toList.zipIdx

def Alike (f g : Frame) : Prop := f.names = g.names

instance (f g : Frame) : Decidable (f.Alike g) :=
  inferInstanceAs (Decidable (f.names = g.names))

-- ---------------------------------------------------------------------------
-- The index agrees with the names
-- ---------------------------------------------------------------------------

@[simp]
theorem find?_empty (name : Name) : empty.find? name = none := by
  simp [empty, find?]

@[simp]
theorem find?_push (frame : Frame) (added name : Name) :
    (frame.push added).find? name =
      if added = name then some frame.size else frame.find? name := by
  simp [push, find?, Std.TreeMap.getElem?_insert]

@[simp]
theorem toList_push (frame : Frame) (name : Name) :
    (frame.push name).names.toList = frame.names.toList ++ [name] := by
  simp [push]

/-- A look-up finds exactly the position at which the name stands. -/
def Sound (frame : Frame) : Prop :=
  ∀ name slot, frame.find? name = some slot ↔ frame.names[slot]? = some name

theorem sound_empty : empty.Sound := by
  intro name slot
  simp [empty, find?]

theorem Sound.push {frame : Frame} (h : frame.Sound) {name : Name}
    (hn : frame.find? name = none) : (frame.push name).Sound := by
  intro x slot
  have hfree : ∀ i : Nat, frame.names[i]? ≠ some name := by
    intro i hi
    rw [(h name i).mpr hi] at hn
    exact Option.some_ne_none i hn
  rw [find?_push, Frame.push, Array.getElem?_push]
  by_cases hx : name = x
  · subst hx
    by_cases hs : slot = frame.names.size
    · simp [hs, size]
    · simp only [if_pos, if_neg hs, hfree slot, iff_false, size, Option.some.injEq]
      exact Ne.symm hs
  · by_cases hs : slot = frame.names.size
    · subst hs
      simp [hx, h x]
    · simp [hx, hs, h x slot]

theorem Sound.findOrAdd {frame : Frame} (h : frame.Sound) (name : Name) :
    (frame.findOrAdd name).2.Sound := by
  unfold Frame.findOrAdd
  split
  · exact h
  · exact h.push ‹_›

theorem Sound.addAll {frame : Frame} (h : frame.Sound) (names : List Name) :
    (frame.addAll names).Sound := by
  induction names generalizing frame with
  | nil => exact h
  | cons name names ih => exact ih (h.findOrAdd name)

theorem Sound.nodup {frame : Frame} (h : frame.Sound) : frame.names.toList.Nodup := by
  rw [List.Nodup, List.pairwise_iff_getElem]
  intro i j hi hj hij heq
  have found : ∀ k, (hk : k < frame.names.toList.length) →
      frame.find? frame.names.toList[k] = some k := by
    intro k hk
    rw [h, ← Array.getElem?_toList, List.getElem?_eq_getElem hk]
  have hfi := found i hi
  rw [heq, found j hj] at hfi
  injection hfi with hji
  omega

end Frame

/-- A frame with the proof that its index agrees with its names. -/
structure SoundFrame extends Frame where
  sound : toFrame.Sound

namespace SoundFrame

instance : Coe SoundFrame Frame := ⟨toFrame⟩

def empty : SoundFrame := ⟨.empty, Frame.sound_empty⟩

def findOrAdd (frame : SoundFrame) (name : Name) : Slot × SoundFrame :=
  let found := frame.toFrame.findOrAdd name
  (found.1, ⟨found.2, frame.sound.findOrAdd name⟩)

def addAll (frame : SoundFrame) (names : List Name) : SoundFrame :=
  ⟨frame.toFrame.addAll names, frame.sound.addAll names⟩

def ofNames (names : List Name) : SoundFrame := empty.addAll names

@[simp]
theorem toFrame_empty : empty.toFrame = .empty := rfl

@[simp]
theorem toFrame_findOrAdd (frame : SoundFrame) (name : Name) :
    (frame.findOrAdd name).2.toFrame = (frame.toFrame.findOrAdd name).2 := rfl

@[simp]
theorem toFrame_addAll (frame : SoundFrame) (names : List Name) :
    (frame.addAll names).toFrame = frame.toFrame.addAll names := rfl

end SoundFrame

end TypedClosures
