import TypedClosures.Proofs.Resolution

/-!
# What a frame answers depends on its names alone

A frame keeps its names twice, in slot order and in the index. In every frame that comes up
(`Reachable`), also while a witness is compiled, the two agree, so that a frame may be told
apart from another by its names: frames with the same names answer every series of requests
in the same way, code and log included, whatever their indexes look like inside
(`reachable_frames_observable`).

For compiling, two runs are followed side by side. A computation is `Oblivious` if it does the
same in frames that differ in the index alone, and computations made of such ones are.
-/

namespace TypedClosures

namespace Frame

/-- The frames that come up. How an index is laid out is left open: any other one that gives
the same answers will do. -/
inductive Reachable : Frame → Prop
  | empty : Reachable .empty
  | findOrAdd {frame : Frame} (x : Name) : Reachable frame → Reachable (frame.findOrAdd x).2
  | compile {frame : Frame} (w : Witness) :
      Reachable frame → Reachable (Compile.compile w frame).frame
  | reindex {frame other : Frame} : Reachable frame → other.names = frame.names →
      (∀ x, other.find? x = frame.find? x) → Reachable other

variable {f g : Frame}

theorem Reachable.sound (h : f.Reachable) : f.Sound := by
  induction h with
  | empty => exact sound_empty
  | findOrAdd x _ ih => exact ih.findOrAdd x
  | compile w _ ih => exact (Compile.frameAfter w ⟨_, ih⟩).sound
  | reindex _ hnames hindex ih =>
    intro x slot
    rw [hindex, hnames, ih]

theorem findOrAdd_of_find? {x : Name} {slot : Slot} (h : f.find? x = some slot) :
    f.findOrAdd x = (slot, f) := by
  rw [findOrAdd, h]

theorem findOrAdd_of_find?_none {x : Name} (h : f.find? x = none) :
    f.findOrAdd x = (f.size, f.push x) := by
  rw [findOrAdd, h]

theorem find?_findOrAdd (x : Name) {y : Name} {slot : Slot} (h : f.find? y = some slot) :
    (f.findOrAdd x).2.find? y = some slot := by
  cases hx : f.find? x with
  | some i => rwa [findOrAdd_of_find? hx]
  | none =>
    have hxy : x ≠ y := by
      rintro rfl
      rw [hx] at h
      cases h
    rwa [findOrAdd_of_find?_none hx, find?_push, if_neg hxy]

-- ---------------------------------------------------------------------------
-- Frames that differ in the index alone
-- ---------------------------------------------------------------------------

/-- Frames with the same names, which both find in the same slots. -/
structure Twins (f g : Frame) : Prop where
  left : f.Sound
  right : g.Sound
  alike : f.Alike g

theorem Twins.find?_eq (h : f.Twins g) (x : Name) : f.find? x = g.find? x := by
  apply Option.ext
  intro slot
  rw [h.left, h.right, h.alike]

theorem Twins.size_eq (h : f.Twins g) : f.size = g.size := congrArg Array.size h.alike

theorem Twins.push (h : f.Twins g) {x : Name} (hx : g.find? x = none) :
    (f.push x).Twins (g.push x) where
  left := h.left.push ((h.find?_eq x).trans hx)
  right := h.right.push hx
  alike := congrArg (Array.push · x) h.alike

end Frame

namespace Compile

-- ---------------------------------------------------------------------------
-- Compiling in frames that differ in the index alone
-- ---------------------------------------------------------------------------

structure Agrees {α : Type} (r r' : Emitted α) : Prop where
  value : r.value = r'.value
  events : r.events = r'.events
  frame : r.frame.Twins r'.frame

def Oblivious {α : Type} (m : Emit α) : Prop :=
  ∀ f g : Frame, f.Twins g → Agrees (m f) (m g)

section
variable {α β : Type}

theorem Oblivious.pure (a : α) : Oblivious (pure a : Emit α) :=
  fun _ _ h => ⟨rfl, rfl, h⟩

theorem Oblivious.bind {m : Emit α} {next : α → Emit β} (hm : Oblivious m)
    (hnext : ∀ a, Oblivious (next a)) : Oblivious (m >>= next) := by
  intro f g h
  obtain ⟨hvalue, hevents, hframe⟩ := hm f g h
  have hrest := hnext (m f).value _ _ hframe
  rw [Emit.bind_run, Emit.bind_run, ← hvalue, hevents]
  exact ⟨hrest.value, congrArg ((m g).events ++ ·) hrest.events, hrest.frame⟩

theorem oblivious_tell (event : Event) : Oblivious (Emit.tell event) :=
  fun _ _ h => ⟨rfl, rfl, h⟩

theorem oblivious_inside (own : Frame) (m : Emit α) : Oblivious (Emit.inside own m) :=
  fun _ _ h => ⟨rfl, rfl, h⟩

theorem oblivious_allocate (x : Name) : Oblivious (allocate x) := by
  intro f g h
  unfold allocate
  rw [h.find?_eq x, h.size_eq]
  cases hx : g.find? x with
  | some slot => exact ⟨rfl, rfl, h⟩
  | none => exact ⟨rfl, rfl, h.push hx⟩

end

theorem oblivious_loads (params : List Name) (offset : Nat) (entries : List (Name × Slot))
    (record : Frame) : Oblivious (loads params offset entries record) := by
  induction entries generalizing record with
  | nil => exact .pure _
  | cons entry rest ih =>
    obtain ⟨x, slot⟩ := entry
    cases hx : lastIndexOf? x params with
    | some i =>
      simp only [loads, hx]
      exact .bind (ih record) fun _ => .pure _
    | none =>
      simp only [loads, hx]
      exact .bind (oblivious_inside record _) fun made =>
        .bind (oblivious_allocate x) fun _ => .bind (ih made.2) fun _ => .pure _

theorem oblivious_layOut (params : List Name) (inner : Frame) :
    Oblivious (layOut params inner) :=
  .bind (oblivious_loads params _ _ _) fun _ => .bind (oblivious_tell _) fun _ => .pure _

theorem oblivious_emitList {ws : List Witness} (h : ∀ w ∈ ws, Oblivious (emit w)) :
    Oblivious (emitList ws) := by
  induction ws with
  | nil => exact .pure _
  | cons w ws ih =>
    rw [emitList]
    exact .bind (h w List.mem_cons_self) fun _ =>
      .bind (ih fun v hv => h v (List.mem_cons_of_mem w hv)) fun _ => .pure _

theorem oblivious_emit (w : Witness) : Oblivious (emit w) := by
  induction w using Witness.induct with
  | var s τ x =>
    rw [emit]
    exact .bind (oblivious_allocate x) fun _ => .pure _
  | cond s τ c a b ihc iha ihb =>
    rw [emit]
    exact .bind ihc fun _ => .bind iha fun _ => .bind ihb fun _ => .pure _
  | app s τ f ws ihf ihws =>
    rw [emit]
    exact .bind ihf fun _ => .bind (oblivious_emitList ihws) fun _ => .pure _
  | lam s τ ps b _ =>
    -- The body is compiled in the same empty frame both times.
    rw [emit]
    exact .bind (oblivious_inside .empty _) fun made =>
      .bind (oblivious_layOut ps made.2) fun _ => .pure _

theorem oblivious_compile (w : Witness) : Oblivious (compile w) := by
  rw [compile_eq_emit]
  exact oblivious_emit w

-- ---------------------------------------------------------------------------
-- Frames that are in use while a witness is compiled
-- ---------------------------------------------------------------------------

def Pending.outer? : Pending → Option Frame
  | .body _ _ _ outer => some outer
  | _ => none

/-- The frame that a state works in, and those of the levels around it, from the inside out. -/
def State.frames (s : State) : List Frame := s.frame :: s.pending.filterMap Pending.outer?

inductive Moves : List Frame → List Frame → Prop
  | stay {frames : List Frame} : Moves frames frames
  | add {frame : Frame} {outers : List Frame} (x : Name) :
      Moves (frame :: outers) ((allocate x frame).frame :: outers)
  | enter {frames : List Frame} : Moves frames (.empty :: frames)
  | leave {inner outer : Frame} {outers : List Frame} (params : List Name) :
      Moves (inner :: outer :: outers) ((layOut params inner outer).frame :: outers)

section
variable {pending : List Pending} {frame : Frame} {log : List Event}

theorem start_moves (w : Witness) :
    Moves (frame :: pending.filterMap Pending.outer?) (start w pending frame log).frames := by
  cases w with
  | var s τ x => exact .add x
  | cond s τ c a b => exact .stay
  | app s τ f ws => exact .stay
  | lam s τ ps b => exact .enter

theorem nextOperand_frames (s : Span) (τ : Ty) (f : Code) (done : List Code) (ws : List Witness) :
    (nextOperand s τ f done ws pending frame log).frames =
      frame :: pending.filterMap Pending.outer? := by
  cases ws <;> rfl

theorem resume_moves (p : Pending) (e : Code) :
    Moves (frame :: (p :: pending).filterMap Pending.outer?)
      (resume p e pending frame log).frames := by
  cases p with
  | operator s τ ws =>
    rw [resume, nextOperand_frames]
    exact .stay
  | operand s τ f done ws =>
    rw [resume, nextOperand_frames]
    exact .stay
  | body s τ ps outer => exact .leave ps
  | _ => exact .stay

theorem step_moves {s s' : State} (h : step s = .inl s') : Moves s.frames s'.frames := by
  obtain ⟨control, pending, frame, log⟩ := s
  cases control with
  | enter w =>
    cases h
    exact start_moves w
  | give e =>
    cases pending with
    | nil => cases h
    | cons p pending =>
      cases h
      exact resume_moves p e

end

inductive Visits (w : Witness) (frame : Frame) : State → Prop
  | start : Visits w frame ⟨.enter w, [], frame, []⟩
  | step {s s' : State} : Visits w frame s → step s = .inl s' → Visits w frame s'

/-- The frames in use in a state: those of its levels, and the record of the closure that its
next move makes. -/
inductive State.Uses : State → Frame → Prop
  | level {s : State} {frame : Frame} : frame ∈ s.frames → Uses s frame
  | record {e : Code} {span : Span} {τ : Ty} {params : List Name} {inner outer : Frame}
      {pending : List Pending} {log : List Event} :
      Uses ⟨.give e, .body span τ params outer :: pending, inner, log⟩
        (loads params (argOffset params inner) inner.entries .empty outer).value.1

theorem reachable_allocate {frame : Frame} (h : frame.Reachable) (x : Name) :
    (allocate x frame).frame.Reachable := by
  rw [allocate_frame]
  exact .findOrAdd x h

theorem reachable_loads (params : List Name) (offset : Nat) (entries : List (Name × Slot))
    {record frame : Frame} (hr : record.Reachable) (hf : frame.Reachable) :
    let r := loads params offset entries record frame
    r.value.1.Reachable ∧ r.frame.Reachable := by
  induction entries generalizing record frame with
  | nil => exact ⟨hr, hf⟩
  | cons entry rest ih =>
    obtain ⟨x, slot⟩ := entry
    cases hx : lastIndexOf? x params with
    | some i =>
      simp only [loads, hx]
      exact ih hr hf
    | none =>
      simp only [loads, hx]
      exact ih (reachable_allocate hr x) (reachable_allocate hf x)

theorem Moves.reachable {frames frames' : List Frame} (h : Moves frames frames')
    (hframes : ∀ g ∈ frames, g.Reachable) : ∀ g ∈ frames', g.Reachable := by
  cases h with
  | stay => exact hframes
  | add x =>
    obtain ⟨hframe, houters⟩ := List.forall_mem_cons.mp hframes
    exact List.forall_mem_cons.mpr ⟨reachable_allocate hframe x, houters⟩
  | enter => exact List.forall_mem_cons.mpr ⟨.empty, hframes⟩
  | leave params =>
    rw [List.forall_mem_cons, List.forall_mem_cons] at hframes
    obtain ⟨-, houter, houters⟩ := hframes
    exact List.forall_mem_cons.mpr ⟨(reachable_loads params _ _ .empty houter).2, houters⟩

theorem Visits.reachable {w : Witness} {frame : Frame} {s : State} (h : Visits w frame s)
    (hframe : frame.Reachable) : ∀ g ∈ s.frames, g.Reachable := by
  induction h with
  | start => exact List.forall_mem_singleton.mpr hframe
  | step _ hstep ih => exact (step_moves hstep).reachable ih

theorem Visits.reachable_of_uses {w : Witness} {frame g : Frame} {s : State}
    (h : Visits w frame s) (hframe : frame.Reachable) (hg : s.Uses g) : g.Reachable := by
  have hlevels := h.reachable hframe
  cases hg with
  | level hmem => exact hlevels _ hmem
  | record =>
    refine (reachable_loads _ _ _ .empty ?_).1
    exact hlevels _ (List.mem_cons_of_mem _ List.mem_cons_self)

end Compile

namespace Frame

-- ---------------------------------------------------------------------------
-- Requests in turn
-- ---------------------------------------------------------------------------

inductive Request
  | find (x : Name)
  | findOrAdd (x : Name)
  | size
  | entries
  | compile (w : Witness)

inductive Answer
  | found (slot : Option Slot)
  | slot (slot : Slot)
  | size (n : Nat)
  | entries (entries : List (Name × Slot))
  | compiled (code : Code) (log : List Compile.Event)

def answer (frame : Frame) : Request → Answer × Frame
  | .find x => (.found (frame.find? x), frame)
  | .findOrAdd x => (.slot (frame.findOrAdd x).1, (frame.findOrAdd x).2)
  | .size => (.size frame.size, frame)
  | .entries => (.entries frame.entries, frame)
  | .compile w =>
    let emitted := Compile.compile w frame
    (.compiled emitted.value emitted.events, emitted.frame)

def serve (frame : Frame) : List Request → List Answer × Frame
  | [] => ([], frame)
  | request :: rest =>
    let (first, next) := frame.answer request
    let (others, last) := next.serve rest
    (first :: others, last)

variable {f g : Frame}

theorem Twins.answer (h : f.Twins g) (request : Request) :
    (f.answer request).1 = (g.answer request).1 ∧
      (f.answer request).2.Twins (g.answer request).2 := by
  cases request with
  | find x => exact ⟨congrArg Answer.found (h.find?_eq x), h⟩
  | findOrAdd x =>
    have hadd := Compile.oblivious_allocate x f g h
    have hslot := hadd.value
    have hframe := hadd.frame
    rw [Compile.allocate_value, Compile.allocate_value] at hslot
    rw [Compile.allocate_frame, Compile.allocate_frame] at hframe
    exact ⟨congrArg Answer.slot hslot, hframe⟩
  | size => exact ⟨congrArg Answer.size h.size_eq, h⟩
  | entries =>
    have hentries : f.entries = g.entries := by rw [entries, entries, h.alike]
    exact ⟨congrArg Answer.entries hentries, h⟩
  | compile w =>
    have hcompile := Compile.oblivious_compile w f g h
    refine ⟨?_, hcompile.frame⟩
    simp only [Frame.answer, hcompile.value, hcompile.events]

theorem Twins.serve (h : f.Twins g) (requests : List Request) :
    (f.serve requests).1 = (g.serve requests).1 ∧
      (f.serve requests).2.Twins (g.serve requests).2 := by
  induction requests generalizing f g with
  | nil => exact ⟨rfl, h⟩
  | cons request rest ih =>
    obtain ⟨hfirst, hnext⟩ := h.answer request
    obtain ⟨hrest, hlast⟩ := ih hnext
    exact ⟨congrArg₂ List.cons hfirst hrest, hlast⟩

theorem alike_of_entries_eq (h : f.entries = g.entries) : f.Alike g := by
  have hnames := congrArg (List.map Prod.fst) h
  simpa [entries, Alike] using hnames

/-- In every frame that comes up, names are not repeated, and the index finds exactly the
position of a name; adding a name gives a new one the next slot and leaves the slots of the
others. The frames in use while a witness is compiled into such a frame are of this kind too.
Hence names are all that there is to tell about a frame: frames with the same names give the
same answers to any series of requests and have the same names at the end, and frames with
other names are told apart by some series. -/
theorem reachable_frames_observable (hf : f.Reachable) :
    f.names.toList.Nodup ∧
      (∀ x slot, f.find? x = some slot ↔ f.names[slot]? = some x) ∧
      (∀ x slot, f.find? x = some slot → f.findOrAdd x = (slot, f)) ∧
      (∀ x, f.find? x = none → (f.findOrAdd x).1 = f.size ∧
        (f.findOrAdd x).2.names = f.names.push x) ∧
      (∀ x y slot, f.find? y = some slot → (f.findOrAdd x).2.find? y = some slot) ∧
      (∀ w s inner, Compile.Visits w f s → s.Uses inner → inner.Reachable) ∧
      ∀ g : Frame, g.Reachable →
        (f.Alike g → ∀ requests, (f.serve requests).1 = (g.serve requests).1 ∧
          (f.serve requests).2.Alike (g.serve requests).2) ∧
        ((∀ requests, (f.serve requests).1 = (g.serve requests).1) → f.Alike g) := by
  refine ⟨hf.sound.nodup, hf.sound, fun x slot => findOrAdd_of_find?, ?_,
    fun x y slot => find?_findOrAdd x, fun w s inner hs => hs.reachable_of_uses hf, ?_⟩
  · intro x hx
    rw [findOrAdd_of_find?_none hx]
    exact ⟨rfl, rfl⟩
  · intro g hg
    refine ⟨?_, ?_⟩
    · intro halike requests
      have htwins : f.Twins g := ⟨hf.sound, hg.sound, halike⟩
      exact (htwins.serve requests).imp_right Twins.alike
    · intro h
      have hentries := h [.entries]
      simp only [Frame.serve, Frame.answer, List.cons.injEq, Answer.entries.injEq, and_true]
        at hentries
      exact alike_of_entries_eq hentries

def fromCall : Frame :=
  (Compile.compile (.app .none .bool (.var .none .bool "f") [.var .none .bool "x"]) .empty).frame

def reordered : Frame := ⟨#["f", "x"], ((∅ : Std.TreeMap Name Slot).insert "x" 1).insert "f" 0⟩

theorem reachable_frames_observable_reordered :
    fromCall.Reachable ∧ reordered.Reachable ∧ fromCall.Alike reordered ∧
      fromCall.names.toList.Nodup ∧ (fromCall.findOrAdd "b").1 = 2 ∧
      ∀ requests, (fromCall.serve requests).1 = (reordered.serve requests).1 ∧
        (fromCall.serve requests).2.Alike (reordered.serve requests).2 := by
  have hcall : fromCall.Reachable := .compile _ .empty
  have hreordered : reordered.Reachable := by
    refine .reindex (.findOrAdd "x" (.findOrAdd "f" .empty)) (by decide +kernel) ?_
    intro y
    have hadded : ((empty.findOrAdd "f").2.findOrAdd "x").2 = (empty.push "f").push "x" := by
      rw [findOrAdd_of_find?_none (find?_empty "f"), findOrAdd_of_find?_none (by simp)]
    rw [hadded, find?_push, find?_push, find?_empty]
    by_cases hf : "f" = y
    · simp [← hf, reordered, find?, size, empty]
    · simp [hf, reordered, find?, size, push, Std.TreeMap.getElem?_insert, empty]
  have halike : fromCall.Alike reordered := by decide +kernel
  obtain ⟨hnodup, -, -, hnew, -, -, hsame⟩ := reachable_frames_observable hcall
  refine ⟨hcall, hreordered, halike, hnodup, ?_, (hsame reordered hreordered).1 halike⟩
  rw [(hnew "b" (by decide +kernel)).1]
  decide +kernel

-- A frame whose index is behind does not come up: it is alike with another one, and yet
-- answers otherwise.
example : (Frame.mk #["x"] ∅).Alike (ofNames ["x"]) ∧
    (Frame.mk #["x"] ∅).find? "x" = none ∧ (ofNames ["x"]).find? "x" = some 0 := by
  decide +kernel

end Frame

end TypedClosures
