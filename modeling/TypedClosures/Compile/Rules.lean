import TypedClosures.Compile.Emit
import TypedClosures.Witness

/-!
# Closure conversion, as a recursion

`emit w` compiles a witness into the frame at hand. Variables become slots. A
lambda's body is compiled first, in a frame of its own; `layOut` then finds
where each of that frame's slots is filled from. A slot named like a parameter
is loaded from an argument, the last one of that name. Any other name is
captured: it gets a slot in the closure's record and one in the enclosing
frame, so captures of nested lambdas pass through every level in between.
-/

namespace TypedClosures.Compile

def lastIndexOf? (x : Name) : List Name → Option Nat
  | [] => none
  | y :: ys =>
    match lastIndexOf? x ys with
    | some i => some (i + 1)
    | none => if y = x then some 0 else none

theorem lastIndexOf?_eq_none_iff {x : Name} {ys : List Name} :
    lastIndexOf? x ys = none ↔ x ∉ ys := by
  induction ys with
  | nil => simp [lastIndexOf?]
  | cons y ys ih =>
    rw [lastIndexOf?, List.mem_cons]
    cases h : lastIndexOf? x ys with
    | none => simp [ih.mp h, @eq_comm _ x]
    | some i =>
      have : x ∈ ys := Classical.not_not.mp fun hx => by simp [ih.mpr hx] at h
      simp [this]

structure Loads where
  captures : List Capture
  envLoads : List EnvLoad
  argLoads : List ArgLoad

/-- Goes through the body's slots in order. The closure's record is `record`;
`offset` arguments stand before the parameters. -/
def loads (params : List Name) (offset : Nat) :
    List (Name × Slot) → Frame → Emit (Frame × Loads)
  | [], record => return (record, ⟨[], [], []⟩)
  | (x, slot) :: rest, record =>
    match lastIndexOf? x params with
    | some i => do
      let (record, l) ← loads params offset rest record
      return (record, { l with argLoads := ⟨slot, i + offset⟩ :: l.argLoads })
    | none => do
      let (closure, record) ← Emit.inside record (allocate x)
      let parent ← allocate x
      let (record, l) ← loads params offset rest record
      return (record,
        { l with
          captures := ⟨closure, parent⟩ :: l.captures
          envLoads := ⟨slot, closure⟩ :: l.envLoads })

/-- The record takes up argument 0 when the body reads a name that is no parameter. -/
def argOffset (params : List Name) (inner : Frame) : Nat :=
  if inner.names.any (· ∉ params) then 1 else 0

def layOut (params : List Name) (inner : Frame) : Emit Layout := do
  let (record, l) ← loads params (argOffset params inner) inner.entries .empty
  Emit.tell (.converted params.length l.captures.length inner.size)
  return {
    arity := params.length
    closureSize := record.size
    captures := l.captures
    frameSize := inner.size
    envLoads := l.envLoads
    argLoads := l.argLoads }

mutual

def emit : Witness → Emit Code
  | .var s τ x => do
    let slot ← allocate x
    return .slot s τ slot
  | .cond s τ c a b => do
    let c ← emit c
    let a ← emit a
    let b ← emit b
    return .cond s τ c a b
  | .app s τ f xs => do
    let f ← emit f
    let xs ← emitList xs
    return .app s τ f xs
  | .lam s τ ps b => do
    let (b, inner) ← Emit.inside .empty (emit b)
    let layout ← layOut ps inner
    return .closure s τ layout b

def emitList : List Witness → Emit (List Code)
  | [] => return []
  | w :: ws => do
    let e ← emit w
    let es ← emitList ws
    return e :: es

end

end TypedClosures.Compile
