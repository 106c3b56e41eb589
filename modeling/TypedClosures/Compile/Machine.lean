import TypedClosures.Compile.Rules
import TypedClosures.Machine

/-!
# Compiling without a call stack

As for the checker, the nodes that wait for a part of their code stand in a
list. A state enters a witness or gives code back to the innermost of them; a
lambda that waits for its body keeps the frame of the enclosing level aside.

`compile_eq_emit`, in `Compile.MachineLaws`, says that this is the recursion of
`Compile.Rules`.
-/

namespace TypedClosures.Compile

inductive Pending
  | test (span : Span) (ty : Ty) (yes no : Witness)
  | yes (span : Span) (ty : Ty) (test : Code) (no : Witness)
  | no (span : Span) (ty : Ty) (test yes : Code)
  | operator (span : Span) (ty : Ty) (operands : List Witness)
  /-- Operands compiled so far stand in reverse. -/
  | operand (span : Span) (ty : Ty) (operator : Code) (done : List Code)
      (operands : List Witness)
  | body (span : Span) (ty : Ty) (params : List Name) (outer : Frame)

inductive Control
  | enter (w : Witness)
  | give (code : Code)

/-- The log is kept in reverse. -/
structure State where
  control : Control
  pending : List Pending
  frame : Frame
  log : List Event

def nextOperand (span : Span) (ty : Ty) (operator : Code) (done : List Code) :
    List Witness → List Pending → Frame → List Event → State
  | [], pending, frame, log => ⟨.give (.app span ty operator done.reverse), pending, frame, log⟩
  | w :: ws, pending, frame, log =>
    ⟨.enter w, .operand span ty operator done ws :: pending, frame, log⟩

def start (w : Witness) (pending : List Pending) (frame : Frame) (log : List Event) : State :=
  match w with
  | .var s τ x =>
    let r := allocate x frame
    ⟨.give (.slot s τ r.value), pending, r.frame, r.events.reverse ++ log⟩
  | .cond s τ c a b => ⟨.enter c, .test s τ a b :: pending, frame, log⟩
  | .app s τ f xs => ⟨.enter f, .operator s τ xs :: pending, frame, log⟩
  | .lam s τ ps b => ⟨.enter b, .body s τ ps frame :: pending, .empty, log⟩

def resume (p : Pending) (e : Code) (pending : List Pending) (frame : Frame)
    (log : List Event) : State :=
  match p with
  | .test s τ a b => ⟨.enter a, .yes s τ e b :: pending, frame, log⟩
  | .yes s τ c b => ⟨.enter b, .no s τ c e :: pending, frame, log⟩
  | .no s τ c a => ⟨.give (.cond s τ c a e), pending, frame, log⟩
  | .operator s τ ws => nextOperand s τ e [] ws pending frame log
  | .operand s τ f done ws => nextOperand s τ f (e :: done) ws pending frame log
  | .body s τ ps outer =>
    let r := layOut ps frame outer
    ⟨.give (.closure s τ r.value e), pending, r.frame, r.events.reverse ++ log⟩

def step (s : State) : State ⊕ Emitted Code :=
  match s.control, s.pending with
  | .enter w, pending => .inl (start w pending s.frame s.log)
  | .give e, p :: pending => .inl (resume p e pending s.frame s.log)
  | .give e, [] => .inr ⟨e, s.frame, s.log.reverse⟩

-- ---------------------------------------------------------------------------
-- Every move takes weight off
-- ---------------------------------------------------------------------------

def Pending.weight : Pending → Nat
  | .test _ _ a b => 2 * (a.size + b.size) + 1
  | .yes _ _ _ b => 2 * b.size + 1
  | .no .. | .body .. => 1
  | .operator _ _ ws | .operand _ _ _ _ ws => 2 * Witness.sizeList ws + 1

def weigh : List Pending → Nat
  | [] => 0
  | p :: pending => p.weight + weigh pending

def Control.weight : Control → Nat
  | .enter w => 2 * w.size
  | .give _ => 1

def State.weight (s : State) : Nat := s.control.weight + weigh s.pending

theorem start_weight (w : Witness) (pending : List Pending) (frame : Frame)
    (log : List Event) : (start w pending frame log).weight < 2 * w.size + weigh pending := by
  cases w <;> simp [start, State.weight, Control.weight, weigh, Pending.weight, Witness.size] <;>
    omega

theorem nextOperand_weight (span : Span) (ty : Ty) (f : Code) (done : List Code)
    (ws : List Witness) (pending : List Pending) (frame : Frame) (log : List Event) :
    (nextOperand span ty f done ws pending frame log).weight <
      2 * Witness.sizeList ws + 1 + 1 + weigh pending := by
  unfold nextOperand
  split <;>
    (simp only [State.weight, Control.weight, weigh, Pending.weight, Witness.sizeList]; omega)

theorem resume_weight (p : Pending) (e : Code) (pending : List Pending) (frame : Frame)
    (log : List Event) :
    (resume p e pending frame log).weight < p.weight + 1 + weigh pending := by
  cases p with
  | operator s τ ws => exact nextOperand_weight s τ e [] ws pending frame log
  | operand s τ f done ws => exact nextOperand_weight s τ f (e :: done) ws pending frame log
  | test | yes =>
    simp only [resume, State.weight, Control.weight, weigh, Pending.weight]
    omega
  | no | body => simp [resume, State.weight, Control.weight, Pending.weight]

theorem step_weight {s s' : State} (h : step s = .inl s') : s'.weight < s.weight := by
  obtain ⟨control, pending, frame, log⟩ := s
  cases control with
  | enter w =>
    cases h
    exact start_weight w pending frame log
  | give e =>
    cases pending with
    | nil => cases h
    | cons p pending =>
      cases h
      have := resume_weight p e pending frame log
      simp [State.weight, Control.weight, weigh] at this ⊢
      omega

def machine : Machine State (Emitted Code) := ⟨step, State.weight, step_weight⟩

def compile (w : Witness) : Emit Code := fun frame => machine.finish ⟨.enter w, [], frame, []⟩

end TypedClosures.Compile
