import TypedClosures.Compile.MachineLaws
import TypedClosures.Proofs.Slots
import TypedClosures.Proofs.Parameters

/-!
# Compiling without a frame

What compiling makes of a witness can be said without a frame that grows. The
names read from outside (`Witness.free`) say which slots there will be, and once
every name has its place, code is the witness with the places put in for the
names (`Witness.resolve`). `compile_frame` and `compile_value` say that compiling
into a sound frame does this, and with them a statement on compiled code becomes
an induction on the witness.
-/

namespace TypedClosures

namespace Compile

def captured (params names : List Name) : List Name := names.filter (· ∉ params)

theorem mem_captured {params names : List Name} {x : Name} :
    x ∈ captured params names ↔ x ∈ names ∧ x ∉ params := by
  simp [captured]

def offset (params names : List Name) : Nat := if captured params names = [] then 0 else 1

/-- The layout of a closure whose body reads `names`, where the enclosing frame
has its names at `place`. -/
def layoutOf (params names : List Name) (place : Name → Slot) : Layout :=
  let outer := captured params names
  { arity := params.length
    closureSize := outer.length
    captures := outer.map fun x => ⟨outer.idxOf x, place x⟩
    frameSize := names.length
    envLoads := outer.map fun x => ⟨names.idxOf x, outer.idxOf x⟩
    argLoads := (names.filter (· ∈ params)).map fun x =>
      ⟨names.idxOf x, lastIndexIn params x + offset params names⟩ }

end Compile

namespace Witness

mutual

/-- The names read from outside, each once, in the order of their first reading. -/
def free : Witness → List Name
  | .var _ _ x => [x]
  | .cond _ _ c a b => appendNew (appendNew c.free a.free) b.free
  | .app _ _ f xs => appendNew f.free (freeList xs)
  | .lam _ _ ps b => Compile.captured ps b.free

def freeList : List Witness → List Name
  | [] => []
  | w :: ws => appendNew w.free (freeList ws)

end

theorem mem_freeList {ws : List Witness} {x : Name} :
    x ∈ freeList ws ↔ ∃ w ∈ ws, x ∈ w.free := by
  induction ws with
  | nil => simp [freeList]
  | cons w ws ih => simp [freeList, mem_appendNew, ih]

theorem mem_free_cond {s : Span} {τ : Ty} {c a b : Witness} {x : Name} :
    x ∈ free (.cond s τ c a b) ↔ (x ∈ c.free ∨ x ∈ a.free) ∨ x ∈ b.free := by
  simp [free, mem_appendNew]

theorem mem_free_app {s : Span} {τ : Ty} {f : Witness} {xs : List Witness} {x : Name} :
    x ∈ free (.app s τ f xs) ↔ x ∈ f.free ∨ ∃ w ∈ xs, x ∈ w.free := by
  simp [free, mem_appendNew, mem_freeList]

theorem nodup_freeList {ws : List Witness} (h : ∀ w ∈ ws, w.free.Nodup) :
    (freeList ws).Nodup := by
  induction ws with
  | nil => simp [freeList]
  | cons w ws ih =>
    exact nodup_appendNew (h w List.mem_cons_self)
      (ih fun v hv => h v (List.mem_cons_of_mem w hv))

theorem nodup_free (w : Witness) : w.free.Nodup := by
  induction w using Witness.induct with
  | var s τ x => exact List.nodup_singleton x
  | cond s τ c a b ihc iha ihb => exact nodup_appendNew (nodup_appendNew ihc iha) ihb
  | app s τ f xs ihf ihxs => exact nodup_appendNew ihf (nodup_freeList ihxs)
  | lam s τ ps b ih => exact ih.filter _

mutual

/-- The code of a witness whose names have their slots at `place`. -/
def resolve : (Name → Slot) → Witness → Code
  | place, .var s τ x => .slot s τ (place x)
  | place, .cond s τ c a b => .cond s τ (c.resolve place) (a.resolve place) (b.resolve place)
  | place, .app s τ f xs => .app s τ (f.resolve place) (resolveList place xs)
  | place, .lam s τ ps b =>
    .closure s τ (Compile.layoutOf ps b.free place) (b.resolve b.free.idxOf)

def resolveList : (Name → Slot) → List Witness → List Code
  | _, [] => []
  | place, w :: ws => w.resolve place :: resolveList place ws

end

theorem resolveList_eq_map (place : Name → Slot) (ws : List Witness) :
    resolveList place ws = ws.map (resolve place) := by
  induction ws with
  | nil => rfl
  | cons w ws ih => rw [resolveList, ih, List.map_cons]

theorem ty_resolve (place : Name → Slot) (w : Witness) : (w.resolve place).ty = w.ty := by
  cases w <;> rfl

theorem resolve_congr {w : Witness} {p q : Name → Slot} (h : ∀ x ∈ w.free, p x = q x) :
    w.resolve p = w.resolve q := by
  induction w using Witness.induct with
  | var s τ x => rw [resolve, resolve, h x (List.mem_singleton_self x)]
  | cond s τ c a b ihc iha ihb =>
    simp only [free, mem_appendNew] at h
    rw [resolve, resolve, ihc fun x hx => h x (.inl (.inl hx)),
      iha fun x hx => h x (.inl (.inr hx)), ihb fun x hx => h x (.inr hx)]
  | app s τ f xs ihf ihxs =>
    simp only [free, mem_appendNew, mem_freeList] at h
    rw [resolve, resolve, ihf fun x hx => h x (.inl hx), resolveList_eq_map, resolveList_eq_map]
    congr 1
    exact List.map_congr_left fun w hw => ihxs w hw fun x hx => h x (.inr ⟨w, hw, hx⟩)
  | lam s τ ps b _ =>
    rw [resolve, resolve, Compile.layoutOf, Compile.layoutOf]
    congr 2
    apply List.map_congr_left
    intro x hx
    rw [h x hx]

end Witness

namespace Compile

-- ---------------------------------------------------------------------------
-- The layout of a closure
-- ---------------------------------------------------------------------------

section
variable {params : List Name} {shift : Nat}

/-- Going through the slots `body x` of a body's names: those that are no
parameters are added to the record and to the enclosing frame, and they are
captured from their slots there. -/
theorem loads_eq (names : List Name) (body : Name → Slot) (record frame : SoundFrame) :
    let outer := captured params names
    let r := loads params shift (names.map fun x => (x, body x)) record frame
    r.frame = frame.addAll outer ∧ r.value.1 = record.addAll outer ∧
      r.value.2 =
        { captures := outer.map fun x =>
            ⟨(record.addAll outer).slotOf x, (frame.addAll outer).slotOf x⟩
          envLoads := outer.map fun x => ⟨body x, (record.addAll outer).slotOf x⟩
          argLoads := (names.filter (· ∈ params)).map fun x =>
            ⟨body x, lastIndexIn params x + shift⟩ } := by
  induction names generalizing record frame with
  | nil => exact ⟨rfl, rfl, rfl⟩
  | cons x rest ih =>
    by_cases hmem : x ∈ params
    · obtain ⟨hframe, hrecord, hloads⟩ := ih record frame
      have houter : captured params (x :: rest) = captured params rest := by
        simp [captured, hmem]
      simp only [houter, List.map_cons, loads, lastIndexOf?_eq_some hmem, Emit.bind_run,
        Emit.pure_run]
      refine ⟨hframe, hrecord, ?_⟩
      simp [hloads, hmem]
    · obtain ⟨hframe, hrecord, hloads⟩ := ih (record.findOrAdd x).2 (frame.findOrAdd x).2
      have houter : captured params (x :: rest) = x :: captured params rest := by
        simp [captured, hmem]
      simp only [houter, List.map_cons, loads, lastIndexOf?_eq_none_iff.mpr hmem, Emit.bind_run,
        Emit.pure_run, Emit.inside_run, allocate_value, allocate_frame]
      refine ⟨hframe, hrecord, ?_⟩
      simp only [SoundFrame.toFrame_findOrAdd, SoundFrame.toFrame_addAll] at hloads
      simp [hloads, hmem, Frame.addAll_cons, record.sound.slotOf_findOrAdd,
        frame.sound.slotOf_findOrAdd]

theorem argOffset_eq (params : List Name) (inner : Frame) :
    argOffset params inner = offset params inner.names.toList := by
  have hany : inner.names.any (· ∉ params) = true ↔ captured params inner.names.toList ≠ [] := by
    rw [← Array.any_toList, List.any_eq_true, captured, ne_eq, List.filter_eq_nil_iff]
    simp
  unfold argOffset offset
  by_cases h : captured params inner.names.toList = []
  · rw [if_pos h, if_neg fun hyes => hany.mp hyes h]
  · rw [if_neg h, if_pos (hany.mpr h)]

theorem layOut_eq (inner frame : SoundFrame) :
    let outer := captured params inner.names.toList
    (layOut params inner frame).frame = frame.addAll outer ∧
      (layOut params inner frame).value =
        layoutOf params inner.names.toList (frame.addAll outer).slotOf := by
  intro outer
  have houter : outer.Nodup := inner.sound.nodup.filter _
  have hslot : (SoundFrame.empty.addAll outer).slotOf = outer.idxOf := Frame.slotOf_ofNames houter
  have hsize : (SoundFrame.empty.addAll outer).size = outer.length := Frame.size_ofNames houter
  have hentries : inner.entries =
      inner.names.toList.map fun x => (x, inner.names.toList.idxOf x) :=
    zipIdx_eq_map_idxOf inner.sound.nodup
  obtain ⟨hframe, hvalue, hloads⟩ :=
    @loads_eq params (argOffset params inner) inner.names.toList inner.names.toList.idxOf
      .empty frame
  rw [← hentries, SoundFrame.toFrame_empty] at hframe hvalue hloads
  simp only [layOut, Emit.bind_run, Emit.pure_run, Emit.tell_run]
  refine ⟨hframe, ?_⟩
  rw [hvalue, hloads, hsize, argOffset_eq]
  simp only [hslot, layoutOf, outer, Frame.size, Array.length_toList]

end

-- ---------------------------------------------------------------------------
-- Compiling resolves
-- ---------------------------------------------------------------------------

/-- Compiling allocates the free names and puts their slots in for them. -/
def Resolves (w : Witness) : Prop :=
  ∀ frame : SoundFrame,
    (emit w frame).frame = frame.addAll w.free ∧
      (emit w frame).value = w.resolve (frame.addAll w.free).slotOf

theorem Resolves.value_addAll {w : Witness} (h : Resolves w) (frame : SoundFrame)
    (xs : List Name) :
    (emit w frame).value = w.resolve ((frame.addAll w.free).addAll xs).slotOf := by
  rw [(h frame).2]
  apply Witness.resolve_congr
  intro x hx
  exact (Frame.slotOf_addAll xs (frame.sound.mem_addAll.mpr (.inr hx))).symm

theorem resolves_var (s : Span) (τ : Ty) (x : Name) : Resolves (.var s τ x) := by
  intro frame
  refine ⟨allocate_frame frame x, ?_⟩
  have hx := frame.sound.slotOf_findOrAdd x []
  simp only [emit, Emit.bind_run, Emit.pure_run, allocate_value, Witness.resolve, Witness.free]
  rw [← hx]
  rfl

theorem resolves_cond (s : Span) (τ : Ty) {c a b : Witness} (hc : Resolves c)
    (ha : Resolves a) (hb : Resolves b) : Resolves (.cond s τ c a b) := by
  intro frame
  have hfree : frame.addAll (Witness.free (.cond s τ c a b)) =
      ((frame.addAll c.free).addAll a.free).addAll b.free := by
    rw [Witness.free, frame.addAll_appendNew, frame.addAll_appendNew]
  simp only [emit, Emit.bind_run, Emit.pure_run, (hc _).1, (ha _).1, (hb _).1]
  refine ⟨congrArg _ hfree.symm, ?_⟩
  rw [hfree, Witness.resolve, ha.value_addAll _ b.free, (hb _).2,
    hc.value_addAll _ (appendNew a.free b.free), SoundFrame.addAll_appendNew]

theorem resolves_list {ws : List Witness} (h : ∀ w ∈ ws, Resolves w) (frame : SoundFrame) :
    (emitList ws frame).frame = frame.addAll (Witness.freeList ws) ∧
      (emitList ws frame).value =
        Witness.resolveList (frame.addAll (Witness.freeList ws)).slotOf ws := by
  induction ws generalizing frame with
  | nil => exact ⟨rfl, rfl⟩
  | cons w ws ih =>
    have hw := h w List.mem_cons_self
    obtain ⟨hframe, hvalue⟩ :=
      ih (fun v hv => h v (List.mem_cons_of_mem w hv)) (frame.addAll w.free)
    have hfree : frame.addAll (Witness.freeList (w :: ws)) =
        (frame.addAll w.free).addAll (Witness.freeList ws) := by
      rw [Witness.freeList, frame.addAll_appendNew]
    simp only [emitList, Emit.bind_run, Emit.pure_run, (hw frame).1]
    refine ⟨hframe.trans (congrArg _ hfree.symm), ?_⟩
    rw [hfree, Witness.resolveList, hvalue, hw.value_addAll frame (Witness.freeList ws)]

theorem resolves_app (s : Span) (τ : Ty) {f : Witness} {ws : List Witness} (hf : Resolves f)
    (hws : ∀ w ∈ ws, Resolves w) : Resolves (.app s τ f ws) := by
  intro frame
  obtain ⟨hlist, hvalues⟩ := resolves_list hws (frame.addAll f.free)
  have hfree : frame.addAll (Witness.free (.app s τ f ws)) =
      (frame.addAll f.free).addAll (Witness.freeList ws) := by
    rw [Witness.free, frame.addAll_appendNew]
  simp only [emit, Emit.bind_run, Emit.pure_run, (hf frame).1]
  refine ⟨hlist.trans (congrArg _ hfree.symm), ?_⟩
  rw [hfree, Witness.resolve, hvalues, hf.value_addAll frame (Witness.freeList ws)]

theorem resolves_lam (s : Span) (τ : Ty) (ps : List Name) {b : Witness} (hb : Resolves b) :
    Resolves (.lam s τ ps b) := by
  intro frame
  obtain ⟨hinner, hbody⟩ := hb .empty
  rw [SoundFrame.toFrame_empty] at hinner hbody
  have hnames : (SoundFrame.empty.addAll b.free).names.toList = b.free :=
    Frame.toList_ofNames b.nodup_free
  have hslot : (SoundFrame.empty.addAll b.free).slotOf = b.free.idxOf :=
    Frame.slotOf_ofNames b.nodup_free
  obtain ⟨hframe, hlayout⟩ := @layOut_eq ps (SoundFrame.empty.addAll b.free) frame
  rw [hnames] at hframe hlayout
  simp only [emit, Emit.bind_run, Emit.pure_run, Emit.inside_run, hinner, hbody, hlayout, hslot]
  exact ⟨hframe, rfl⟩

theorem resolves (w : Witness) : Resolves w := by
  induction w using Witness.induct with
  | var s τ x => exact resolves_var s τ x
  | cond s τ c a b hc ha hb => exact resolves_cond s τ hc ha hb
  | app s τ f ws hf hws => exact resolves_app s τ hf hws
  | lam s τ ps b hb => exact resolves_lam s τ ps hb

section
variable (w : Witness) (frame : SoundFrame) {x : Name}

theorem compile_frame : (compile w frame).frame = frame.addAll w.free := by
  rw [compile_eq_emit]
  exact (resolves w frame).1

theorem compile_value : (compile w frame).value = w.resolve (compile w frame).frame.slotOf := by
  rw [compile_frame, compile_eq_emit]
  exact (resolves w frame).2

def frameAfter : SoundFrame where
  toFrame := (compile w frame).frame
  sound := by
    rw [compile_frame]
    exact (frame.addAll w.free).sound

theorem mem_names_compile (hx : x ∈ w.free) : x ∈ (compile w frame).frame.names.toList := by
  rw [compile_frame]
  exact frame.sound.mem_addAll.mpr (.inr hx)

theorem toList_compile_empty : (compile w .empty).frame.names.toList = w.free := by
  rw [← SoundFrame.toFrame_empty, compile_frame]
  exact Frame.toList_ofNames w.nodup_free

theorem getElem?_slotOf_compile (hx : x ∈ w.free) :
    (compile w frame).frame.names[(compile w frame).frame.slotOf x]? = some x := by
  have hsound := (frameAfter w frame).sound
  exact (hsound _ _).mp (hsound.find?_slotOf (mem_names_compile w frame hx))

end

end Compile

end TypedClosures
