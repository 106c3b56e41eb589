import TypedClosures.Proofs.Resolution

/-!
# Compiled code can be relocated

Code that was compiled on its own is made to fit any other frame by moving slots:
those that it reads itself, and those that its closures capture from. The bodies of
closures have frames of their own, so nothing inside them moves. Compiling into a
frame gives the code compiled on its own, moved to where the frame has its names
(`compile_relocates`).
-/

namespace TypedClosures

def Capture.relocate (move : Slot → Option Slot) (c : Capture) : Option Capture :=
  (move c.parent).map fun parent => { c with parent }

namespace Code

mutual

/-- The code with the slots of its own level moved. Of a closure only the slots
change that it captures from. There is none if a slot has nowhere to go. -/
def relocate (move : Slot → Option Slot) : Code → Option Code
  | .slot s τ n => do
    let n ← move n
    return .slot s τ n
  | .cond s τ c a b => do
    let c ← c.relocate move
    let a ← a.relocate move
    let b ← b.relocate move
    return .cond s τ c a b
  | .app s τ f xs => do
    let f ← f.relocate move
    let xs ← relocateList move xs
    return .app s τ f xs
  | .closure s τ l b => do
    let captures ← l.captures.mapM (Capture.relocate move)
    return .closure s τ { l with captures } b

def relocateList (move : Slot → Option Slot) : List Code → Option (List Code)
  | [] => some []
  | e :: es => do
    let e ← e.relocate move
    let es ← relocateList move es
    return e :: es

end

end Code

-- ---------------------------------------------------------------------------
-- From one place to another
-- ---------------------------------------------------------------------------

section
variable {move : Slot → Option Slot} {p q : Name → Slot}

theorem relocate_captures {names : List Name} (cell : Name → Slot)
    (h : ∀ x ∈ names, move (p x) = some (q x)) :
    (names.map fun x => Capture.mk (cell x) (p x)).mapM (Capture.relocate move) =
      some (names.map fun x => Capture.mk (cell x) (q x)) := by
  induction names with
  | nil => rfl
  | cons x xs ih =>
    have hx := h x List.mem_cons_self
    have hxs := ih fun y hy => h y (List.mem_cons_of_mem x hy)
    simp [Capture.relocate, hx, hxs]

theorem relocateList_resolve {ws : List Witness}
    (h : ∀ w ∈ ws, (w.resolve p).relocate move = some (w.resolve q)) :
    Code.relocateList move (Witness.resolveList p ws) = some (Witness.resolveList q ws) := by
  induction ws with
  | nil => rfl
  | cons w ws ih =>
    have hw := h w List.mem_cons_self
    have hws := ih fun v hv => h v (List.mem_cons_of_mem w hv)
    simp [Witness.resolveList, Code.relocateList, hw, hws]

/-- Moving the slots of the free names is enough, closures included: what a closure
captures is free in it. -/
theorem relocate_resolve {w : Witness} (h : ∀ x ∈ w.free, move (p x) = some (q x)) :
    (w.resolve p).relocate move = some (w.resolve q) := by
  induction w using Witness.induct with
  | var s τ x =>
    have hx := h x (List.mem_singleton_self x)
    simp [Witness.resolve, Code.relocate, hx]
  | cond s τ c a b ihc iha ihb =>
    simp only [Witness.mem_free_cond] at h
    have hc := ihc fun x hx => h x (.inl (.inl hx))
    have ha := iha fun x hx => h x (.inl (.inr hx))
    have hb := ihb fun x hx => h x (.inr hx)
    simp [Witness.resolve, Code.relocate, hc, ha, hb]
  | app s τ f xs ihf ihxs =>
    simp only [Witness.mem_free_app] at h
    have hf := ihf fun x hx => h x (.inl hx)
    have hxs := relocateList_resolve fun w hw => ihxs w hw fun x hx => h x (.inr ⟨w, hw, hx⟩)
    simp [Witness.resolve, Code.relocate, hf, hxs]
  | lam s τ ps b _ =>
    -- The body was resolved without `p`, so only the captures have to be compared.
    rw [Witness.free] at h
    have hcaptures := relocate_captures (Compile.captured ps b.free).idxOf h
    simp only [Witness.resolve, Code.relocate, Compile.layoutOf, hcaptures, Option.bind_eq_bind,
      Option.bind_some, Option.pure_def]

end

-- ---------------------------------------------------------------------------
-- Compiling into different frames
-- ---------------------------------------------------------------------------

theorem Compile.compile_of_prefix (w : Witness) {frame grown : SoundFrame}
    (h : (compile w frame).frame.names.toList <+: grown.names.toList) :
    (compile w grown).value = (compile w frame).value ∧ (compile w grown).frame = grown := by
  have hknown : ∀ x ∈ w.free, x ∈ grown.names.toList :=
    fun x hx => h.subset (mem_names_compile w frame hx)
  have hframe : (compile w grown).frame = grown := by
    rw [compile_frame w grown]
    exact grown.sound.addAll_of_subset hknown
  refine ⟨?_, hframe⟩
  rw [compile_value w grown, compile_value w frame, hframe]
  apply Witness.resolve_congr
  intro x hx
  exact Frame.slotOf_of_prefix h (mem_names_compile w frame hx)

/-- Compiling into a frame adds the names that compiling on its own would, in the same
order, and gives the code compiled on its own with each slot moved to where its name is.
The frame may grow afterwards: the code stays the same. -/
theorem compile_relocates (w : Witness) (frame : SoundFrame) :
    let alone := Compile.compile w .empty
    let compiled := Compile.compile w frame
    compiled.frame = frame.addAll alone.frame.names.toList ∧
      alone.value.relocate (fun i => alone.frame.names[i]?.bind compiled.frame.find?) =
        some compiled.value ∧
      ∀ grown : SoundFrame, compiled.frame.names.toList <+: grown.names.toList →
        (Compile.compile w grown).value = compiled.value ∧
          (Compile.compile w grown).frame = grown := by
  intro alone compiled
  refine ⟨?_, ?_, fun grown hprefix => Compile.compile_of_prefix w hprefix⟩
  · simp only [alone, compiled, Compile.toList_compile_empty]
    exact Compile.compile_frame w frame
  · simp only [alone, compiled]
    rw [← SoundFrame.toFrame_empty, Compile.compile_value w .empty, Compile.compile_value w frame]
    apply relocate_resolve
    intro x hx
    have hmem := Compile.mem_names_compile w frame hx
    rw [Compile.getElem?_slotOf_compile w .empty hx, Option.bind_some]
    exact (Compile.frameAfter w frame).sound.find?_slotOf hmem

def sharing : Witness :=
  let τ : Ty := .base "T"
  .app ⟨0, 9⟩ τ (.var ⟨0, 1⟩ τ "f") [.lam ⟨2, 7⟩ τ ["y"]
    (.app ⟨3, 7⟩ τ (.var ⟨3, 4⟩ τ "x") [.var ⟨4, 5⟩ τ "y", .var ⟨5, 6⟩ τ "f"]),
    .var ⟨8, 9⟩ τ "x"]

theorem compile_relocates_sharing :
    let alone := Compile.compile sharing .empty
    let compiled := Compile.compile sharing (Frame.ofNames ["b", "x"])
    let grown := Frame.ofNames ["b", "x", "f", "y"]
    alone.frame.names.toList = ["f", "x"] ∧ compiled.frame.names.toList = ["b", "x", "f"] ∧
      alone.value.relocate (fun i => alone.frame.names[i]?.bind compiled.frame.find?) =
        some compiled.value ∧
      (Compile.compile sharing grown).value = compiled.value ∧
      (Compile.compile sharing grown).frame = grown := by
  intro alone compiled grown
  obtain ⟨hframe, hcode, hgrown⟩ := compile_relocates sharing (.ofNames ["b", "x"])
  change compiled.frame = (Frame.ofNames ["b", "x"]).addAll alone.frame.names.toList at hframe
  have halone : alone.frame.names.toList = ["f", "x"] := Compile.toList_compile_empty sharing
  have hnames : compiled.frame.names.toList = ["b", "x", "f"] := by
    rw [hframe, halone]
    rfl
  have hprefix : compiled.frame.names.toList <+: grown.names.toList := by
    rw [hnames]
    decide
  exact ⟨halone, hnames, hcode, hgrown (.ofNames _) hprefix⟩

end TypedClosures
