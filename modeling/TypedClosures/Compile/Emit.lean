import TypedClosures.Frame
import TypedClosures.Code

/-!
# Emitting code into a frame

Compiling reads names and hands out slots, so it runs in a frame that grows,
and it tells about each new slot and each finished closure. `Emit α` is a
computation of that kind: from the frame before, it gives a value, the frame
after, and the events in order. It never fails.
-/

namespace TypedClosures.Compile

inductive Event
  | allocated (slot : Slot) (name : Name)
  | converted (arity captures slots : Nat)
  deriving DecidableEq, Repr

structure Emitted (α : Type) where
  value : α
  frame : Frame
  events : List Event

def Emit (α : Type) : Type := Frame → Emitted α

namespace Emit

protected def pure {α : Type} (a : α) : Emit α := fun frame => ⟨a, frame, []⟩

protected def bind {α β : Type} (m : Emit α) (next : α → Emit β) : Emit β := fun frame =>
  let first := m frame
  let second := next first.value first.frame
  ⟨second.value, second.frame, first.events ++ second.events⟩

instance : Monad Emit where
  pure := Emit.pure
  bind := Emit.bind

def tell (event : Event) : Emit Unit := fun frame => ⟨(), frame, [event]⟩

/-- Runs a computation in a frame of its own, and gives that frame back with the value. -/
def inside {α : Type} (own : Frame) (m : Emit α) : Emit (α × Frame) := fun frame =>
  let result := m own
  ⟨(result.value, result.frame), frame, result.events⟩

@[simp]
theorem pure_run {α : Type} (a : α) (frame : Frame) : (pure a : Emit α) frame = ⟨a, frame, []⟩ :=
  rfl

@[simp]
theorem bind_run {α β : Type} (m : Emit α) (next : α → Emit β) (frame : Frame) :
    (m >>= next) frame =
      ⟨(next (m frame).value (m frame).frame).value, (next (m frame).value (m frame).frame).frame,
        (m frame).events ++ (next (m frame).value (m frame).frame).events⟩ := rfl

@[simp]
theorem inside_run {α : Type} (own : Frame) (m : Emit α) (frame : Frame) :
    inside own m frame = ⟨((m own).value, (m own).frame), frame, (m own).events⟩ := rfl

@[simp]
theorem tell_run (event : Event) (frame : Frame) : tell event frame = ⟨(), frame, [event]⟩ := rfl

end Emit

def allocate (name : Name) : Emit Slot := fun frame =>
  match frame.find? name with
  | some slot => ⟨slot, frame, []⟩
  | none => ⟨frame.size, frame.push name, [.allocated frame.size name]⟩

theorem allocate_value (frame : Frame) (name : Name) :
    (allocate name frame).value = (frame.findOrAdd name).1 := by
  cases h : frame.find? name <;> simp [allocate, Frame.findOrAdd, h]

theorem allocate_frame (frame : Frame) (name : Name) :
    (allocate name frame).frame = (frame.findOrAdd name).2 := by
  cases h : frame.find? name <;> simp [allocate, Frame.findOrAdd, h]

def allocateAll : List Name → Emit Unit
  | [] => return
  | name :: names => do
    let _ ← allocate name
    allocateAll names

end TypedClosures.Compile
