import TypedClosures.Frame
import Mathlib.Data.List.Basic
import Mathlib.Data.List.Nodup

/-!
# Slots as positions

In a sound frame the slot of a name is its position among the frame's names, and
allocating names appends the new ones. So a frame can be read as a list of names
without repeats, and a slot as an index into it.
-/

namespace TypedClosures

/-- The names of `known`, then those of `more` that are not among them. -/
def appendNew (known more : List Name) : List Name :=
  known ++ more.filter (· ∉ known)

theorem mem_appendNew {known more : List Name} {x : Name} :
    x ∈ appendNew known more ↔ x ∈ known ∨ x ∈ more := by
  by_cases hx : x ∈ known <;> simp [appendNew, hx]

theorem nodup_appendNew {known more : List Name} (hk : known.Nodup) (hm : more.Nodup) :
    (appendNew known more).Nodup := by
  refine List.nodup_append.mpr ⟨hk, hm.filter _, ?_⟩
  rintro x hx y hy rfl
  simp [hx] at hy

theorem appendNew_cons_of_mem {known : List Name} {y : Name} (hy : y ∈ known) (ys : List Name) :
    appendNew known (y :: ys) = appendNew known ys := by
  simp [appendNew, hy]

theorem appendNew_cons_of_not_mem {known ys : List Name} {y : Name} (hk : y ∉ known)
    (hy : y ∉ ys) : appendNew known (y :: ys) = appendNew (known ++ [y]) ys := by
  -- The names after `y` differ from it, so it does not matter that `y` is known by then.
  have hfilter : ys.filter (· ∉ known ++ [y]) = ys.filter (· ∉ known) := by
    apply List.filter_congr
    intro z hz
    have hzy : z ≠ y := fun heq => hy (heq ▸ hz)
    simp [hzy]
  rw [appendNew, appendNew, hfilter]
  simp [hk]

theorem zipIdx_eq_map_idxOf {names : List Name} (h : names.Nodup) :
    names.zipIdx = names.map fun x => (x, names.idxOf x) := by
  apply List.ext_getElem
  · simp
  · intro i hi _
    rw [List.length_zipIdx] at hi
    simp [h.idxOf_getElem i hi]

namespace Frame

variable {frame : Frame} {x : Name}

def slotOf (frame : Frame) (x : Name) : Slot := frame.names.toList.idxOf x

-- ---------------------------------------------------------------------------
-- One name
-- ---------------------------------------------------------------------------

theorem Sound.find?_slotOf (h : frame.Sound) (hx : x ∈ frame.names.toList) :
    frame.find? x = some (frame.slotOf x) := by
  rw [h, ← Array.getElem?_toList, slotOf]
  exact List.getElem?_idxOf hx

theorem Sound.find?_eq_none (h : frame.Sound) (hx : x ∉ frame.names.toList) :
    frame.find? x = none := by
  rw [Option.eq_none_iff_forall_ne_some]
  intro slot hslot
  rw [h, ← Array.getElem?_toList] at hslot
  exact hx (List.mem_of_getElem? hslot)

theorem Sound.findOrAdd_of_mem (h : frame.Sound) (hx : x ∈ frame.names.toList) :
    frame.findOrAdd x = (frame.slotOf x, frame) := by
  rw [Frame.findOrAdd, h.find?_slotOf hx]

theorem Sound.findOrAdd_of_not_mem (h : frame.Sound) (hx : x ∉ frame.names.toList) :
    frame.findOrAdd x = (frame.size, frame.push x) := by
  rw [Frame.findOrAdd, h.find?_eq_none hx]

theorem slotOf_push (hx : x ∉ frame.names.toList) : (frame.push x).slotOf x = frame.size := by
  rw [slotOf, toList_push, List.idxOf_append_of_notMem hx]
  simp [size]

theorem Sound.findOrAdd_fst (h : frame.Sound) (x : Name) :
    (frame.findOrAdd x).1 = (frame.findOrAdd x).2.slotOf x := by
  by_cases hx : x ∈ frame.names.toList
  · rw [h.findOrAdd_of_mem hx]
  · rw [h.findOrAdd_of_not_mem hx, slotOf_push hx]

theorem Sound.mem_findOrAdd (h : frame.Sound) {y : Name} :
    y ∈ (frame.findOrAdd x).2.names.toList ↔ y ∈ frame.names.toList ∨ y = x := by
  by_cases hx : x ∈ frame.names.toList
  · rw [h.findOrAdd_of_mem hx]
    constructor
    · exact .inl
    · rintro (hy | rfl)
      · exact hy
      · exact hx
  · rw [h.findOrAdd_of_not_mem hx, toList_push]
    simp

-- ---------------------------------------------------------------------------
-- Names in turn
-- ---------------------------------------------------------------------------

@[simp]
theorem addAll_nil (frame : Frame) : frame.addAll [] = frame := rfl

theorem addAll_cons (frame : Frame) (x : Name) (xs : List Name) :
    frame.addAll (x :: xs) = (frame.findOrAdd x).2.addAll xs := rfl

theorem addAll_append (frame : Frame) (xs ys : List Name) :
    frame.addAll (xs ++ ys) = (frame.addAll xs).addAll ys :=
  List.foldl_append

theorem prefix_findOrAdd (frame : Frame) (x : Name) :
    frame.names.toList <+: (frame.findOrAdd x).2.names.toList := by
  unfold findOrAdd
  split
  · exact List.prefix_rfl
  · rw [toList_push]
    exact List.prefix_append _ _

theorem prefix_addAll (frame : Frame) (xs : List Name) :
    frame.names.toList <+: (frame.addAll xs).names.toList := by
  induction xs generalizing frame with
  | nil => exact List.prefix_rfl
  | cons x xs ih => exact (frame.prefix_findOrAdd x).trans (ih _)

theorem slotOf_of_prefix {grown : Frame} (h : frame.names.toList <+: grown.names.toList)
    (hx : x ∈ frame.names.toList) : grown.slotOf x = frame.slotOf x := by
  obtain ⟨rest, hrest⟩ := h
  rw [slotOf, ← hrest, List.idxOf_append_of_mem hx, slotOf]

theorem slotOf_addAll (xs : List Name) (hx : x ∈ frame.names.toList) :
    (frame.addAll xs).slotOf x = frame.slotOf x :=
  slotOf_of_prefix (frame.prefix_addAll xs) hx

theorem Sound.slotOf_findOrAdd (h : frame.Sound) (x : Name) (xs : List Name) :
    ((frame.findOrAdd x).2.addAll xs).slotOf x = (frame.findOrAdd x).1 := by
  have hx : x ∈ (frame.findOrAdd x).2.names.toList := h.mem_findOrAdd.mpr (.inr rfl)
  rw [slotOf_addAll xs hx, h.findOrAdd_fst]

theorem Sound.mem_addAll (h : frame.Sound) {xs : List Name} :
    x ∈ (frame.addAll xs).names.toList ↔ x ∈ frame.names.toList ∨ x ∈ xs := by
  induction xs generalizing frame with
  | nil => simp
  | cons y ys ih =>
    rw [addAll_cons, ih (h.findOrAdd y), h.mem_findOrAdd, List.mem_cons, or_assoc]

theorem Sound.toList_addAll (h : frame.Sound) {xs : List Name} (hxs : xs.Nodup) :
    (frame.addAll xs).names.toList = appendNew frame.names.toList xs := by
  induction xs generalizing frame with
  | nil => simp [appendNew]
  | cons y ys ih =>
    obtain ⟨hy, hys⟩ := List.nodup_cons.mp hxs
    rw [addAll_cons, ih (h.findOrAdd y) hys]
    by_cases hmem : y ∈ frame.names.toList
    · rw [h.findOrAdd_of_mem hmem, appendNew_cons_of_mem hmem]
    · rw [h.findOrAdd_of_not_mem hmem, toList_push, appendNew_cons_of_not_mem hmem hy]

theorem toList_ofNames {xs : List Name} (hxs : xs.Nodup) : (ofNames xs).names.toList = xs := by
  rw [ofNames, sound_empty.toList_addAll hxs]
  simp [appendNew, empty]

theorem size_ofNames {xs : List Name} (hxs : xs.Nodup) : (ofNames xs).size = xs.length := by
  rw [size, ← Array.length_toList, toList_ofNames hxs]

theorem slotOf_ofNames {xs : List Name} (hxs : xs.Nodup) : (ofNames xs).slotOf = xs.idxOf := by
  funext x
  rw [slotOf, toList_ofNames hxs]

theorem Sound.addAll_of_subset (h : frame.Sound) {xs : List Name}
    (hxs : ∀ x ∈ xs, x ∈ frame.names.toList) : frame.addAll xs = frame := by
  induction xs with
  | nil => rfl
  | cons y ys ih =>
    rw [addAll_cons, h.findOrAdd_of_mem (hxs y List.mem_cons_self)]
    exact ih fun x hx => hxs x (List.mem_cons_of_mem y hx)

theorem Sound.addAll_filter (h : frame.Sound) {known : List Name}
    (hk : ∀ x ∈ known, x ∈ frame.names.toList) (xs : List Name) :
    frame.addAll (xs.filter (· ∉ known)) = frame.addAll xs := by
  induction xs generalizing frame with
  | nil => rfl
  | cons y ys ih =>
    rw [addAll_cons]
    by_cases hy : y ∈ known
    · rw [h.findOrAdd_of_mem (hk y hy), ← ih h hk]
      simp [hy]
    · rw [← ih (h.findOrAdd y) fun x hx => h.mem_findOrAdd.mpr (.inl (hk x hx))]
      simp [hy, addAll_cons]

theorem Sound.addAll_appendNew (h : frame.Sound) (xs ys : List Name) :
    frame.addAll (appendNew xs ys) = (frame.addAll xs).addAll ys := by
  rw [appendNew, addAll_append]
  exact (h.addAll xs).addAll_filter (fun x hx => h.mem_addAll.mpr (.inr hx)) ys

end Frame

theorem SoundFrame.addAll_appendNew (frame : SoundFrame) (xs ys : List Name) :
    frame.addAll (appendNew xs ys) = (frame.addAll xs).addAll ys := by
  simp only [addAll, frame.sound.addAll_appendNew]

end TypedClosures
