import TypedClosures.Check.Rules
import TypedClosures.Machine

/-!
# Checking without a call stack

Terms may be nested hundreds of thousands of levels deep, so the checker keeps
the steps that are still open in a list. A state either enters a term or leaves
a step with what its rule found; `step` makes one move, and `elaborate` moves
until the outermost step is left. Every move takes weight off the state.

`elaborate_eq_derive`, in `Check.MachineLaws`, says that this is the recursion
of `Check.Rules`.
-/

namespace TypedClosures.Check

inductive Waiting
  | test (Γ : Scope) (yes no : Term)
  | yes (Γ : Scope) (test : Witness) (no : Term)
  | no (test yes : Witness)
  | operator (Γ : Scope) (operands : List Term)
  /-- Operands checked so far stand in reverse; `result` is the type left for the rest. -/
  | operand (Γ : Scope) (operator : Witness) (done : List Witness) (result : Ty)
      (operands : List Term)
  | body (params : List Binding)

structure Pending where
  goal : Goal
  waiting : Waiting

inductive Control
  | enter (Γ : Scope) (t : Term) (want : Option Ty)
  /-- The rule for `goal` ended so; its type is still to be compared. -/
  | leave (goal : Goal) (found : Except Fault Witness)

/-- The log is kept in reverse. -/
structure State where
  control : Control
  pending : List Pending
  log : List Event

def nextOperand (goal : Goal) (Γ : Scope) (operator : Witness) (done : List Witness) :
    List Term → Ty → List Pending → List Event → State
  | [], τ, pending, log =>
    ⟨.leave goal (.ok (.app goal.span τ operator done.reverse)), pending, log⟩
  | x :: xs, .arrow argument result, pending, log =>
    ⟨.enter Γ x (some argument), ⟨goal, .operand Γ operator done result xs⟩ :: pending, log⟩
  | _ :: _, .base name, pending, log =>
    ⟨.leave goal (.error ⟨.notAFunction (.base name), operator.span⟩), pending, log⟩

def resume (goal : Goal) : Waiting → Witness → List Pending → List Event → State
  | .test Γ a b, w, pending, log =>
    ⟨.enter Γ a goal.want, ⟨goal, .yes Γ w b⟩ :: pending, log⟩
  | .yes Γ c b, w, pending, log =>
    ⟨.enter Γ b (some w.ty), ⟨goal, .no c w⟩ :: pending, log⟩
  | .no c a, w, pending, log => ⟨.leave goal (.ok (.cond goal.span a.ty c a w)), pending, log⟩
  | .operator Γ xs, w, pending, log => nextOperand goal Γ w [] xs w.ty pending log
  | .operand Γ f done τ xs, w, pending, log =>
    nextOperand goal Γ f (w :: done) xs τ pending log
  | .body ps, w, pending, log => ⟨.leave goal (.ok (abstract goal.span ps w)), pending, log⟩

def start (Γ : Scope) (t : Term) (want : Option Ty) (pending : List Pending)
    (log : List Event) : State :=
  match t with
  | .var s x => ⟨.leave (t.goal want) (variableAt Γ s x), pending, log⟩
  | .cond _ c a b => ⟨.enter Γ c (some .bool), ⟨t.goal want, .test Γ a b⟩ :: pending, log⟩
  | .app _ f xs => ⟨.enter Γ f none, ⟨t.goal want, .operator Γ xs⟩ :: pending, log⟩
  | .lam s [] _ => ⟨.leave (t.goal want) (.error ⟨.nullaryLambda, s⟩), pending, log⟩
  | .lam _ (p :: ps) b =>
    ⟨.enter (Γ.extendAll (p :: ps)) b (bodyWant (p :: ps) want),
      ⟨t.goal want, .body (p :: ps)⟩ :: pending, log⟩

def step (s : State) : State ⊕ Run Witness :=
  match s.control with
  | .enter Γ t want => .inl (start Γ t want s.pending (.entered (t.goal want) :: s.log))
  | .leave goal found =>
    let outcome := found.bind (·.meets goal.want)
    let log := goal.closing outcome ++ s.log
    match s.pending, outcome with
    | [], outcome => .inr ⟨log.reverse, outcome⟩
    | p :: pending, .ok w => .inl (resume p.goal p.waiting w pending log)
    | p :: pending, .error fault => .inl ⟨.leave p.goal (.error fault), pending, log⟩

-- ---------------------------------------------------------------------------
-- Every move takes weight off
-- ---------------------------------------------------------------------------

def Waiting.weight : Waiting → Nat
  | .test _ a b => 2 * (a.size + b.size) + 1
  | .yes _ _ b => 2 * b.size + 1
  | .no _ _ | .body _ => 1
  | .operator _ xs | .operand _ _ _ _ xs => 2 * Term.sizeList xs + 1

theorem Waiting.weight_pos (waiting : Waiting) : 0 < waiting.weight := by
  cases waiting <;> simp [weight]

def weigh : List Pending → Nat
  | [] => 0
  | p :: pending => p.waiting.weight + weigh pending

def Control.weight : Control → Nat
  | .enter _ t _ => 2 * t.size
  | .leave _ _ => 1

def State.weight (s : State) : Nat := s.control.weight + weigh s.pending

theorem start_weight (Γ : Scope) (t : Term) (want : Option Ty) (pending : List Pending)
    (log : List Event) : (start Γ t want pending log).weight < 2 * t.size + weigh pending := by
  unfold start
  split <;> simp [State.weight, Control.weight, weigh, Waiting.weight, Term.size] <;> omega

theorem nextOperand_weight (goal : Goal) (Γ : Scope) (f : Witness) (done : List Witness)
    (xs : List Term) (τ : Ty) (pending : List Pending) (log : List Event) :
    (nextOperand goal Γ f done xs τ pending log).weight <
      2 * Term.sizeList xs + 2 + weigh pending := by
  unfold nextOperand
  split <;> (simp only [State.weight, Control.weight, weigh, Waiting.weight, Term.sizeList]; omega)

theorem resume_weight (goal : Goal) (waiting : Waiting) (w : Witness) (pending : List Pending)
    (log : List Event) :
    (resume goal waiting w pending log).weight < waiting.weight + 1 + weigh pending := by
  cases waiting with
  | operator Γ xs => exact nextOperand_weight goal Γ w [] xs w.ty pending log
  | operand Γ f done τ xs => exact nextOperand_weight goal Γ f (w :: done) xs τ pending log
  | test | yes =>
    simp only [resume, State.weight, Control.weight, weigh, Waiting.weight]
    omega
  | no | body => simp [resume, State.weight, Control.weight, Waiting.weight]

theorem step_weight {s s' : State} (h : step s = .inl s') : s'.weight < s.weight := by
  obtain ⟨control, pending, log⟩ := s
  cases control with
  | enter Γ t want =>
    cases h
    exact start_weight Γ t want pending _
  | leave goal found =>
    cases pending with
    | nil => cases h
    | cons p pending =>
      simp only [step] at h
      split at h
      · cases h
      · next heq _ =>
        cases heq
        cases h
        have := resume_weight p.goal p.waiting ‹_› pending
          (goal.closing (found.bind (·.meets goal.want)) ++ log)
        simp [State.weight, Control.weight, weigh] at this ⊢
        omega
      · next heq _ =>
        cases heq
        cases h
        simpa [State.weight, Control.weight, weigh] using p.waiting.weight_pos

def machine : Machine State (Run Witness) := ⟨step, State.weight, step_weight⟩

@[simp]
theorem machine_step (s : State) : machine.step s = step s := rfl

/-- Checks a term in a scope, against a type or inferring one. -/
def elaborate (Γ : Scope) (t : Term) (want : Option Ty) : Run Witness :=
  machine.finish ⟨.enter Γ t want, [], []⟩

def infer (Γ : Scope) (t : Term) : Except Fault Witness := (elaborate Γ t none).outcome

def check (Γ : Scope) (t : Term) (τ : Ty) : Except Fault Witness :=
  (elaborate Γ t (some τ)).outcome

end TypedClosures.Check
