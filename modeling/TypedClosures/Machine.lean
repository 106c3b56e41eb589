/-!
# Machines that come to an end

A machine makes one move after the other until a move gives a result. Every move takes
weight off the state, so each run ends, and what holds at the end of a run can be carried
back over its moves (`Machine.induct`).
-/

namespace TypedClosures

structure Machine (State Result : Type) where
  step : State → State ⊕ Result
  weight : State → Nat
  step_weight : ∀ {s s' : State}, step s = .inl s' → weight s' < weight s

namespace Machine

variable {State Result : Type} (m : Machine State Result)

def finish (s : State) : Result :=
  match _h : m.step s with
  | .inl s' => finish s'
  | .inr r => r
termination_by m.weight s
decreasing_by exact m.step_weight _h

/-- What the states of a run show, from a state on. -/
def visits {α : Type} (shown : State → List α) (s : State) : List α :=
  match _h : m.step s with
  | .inl s' => shown s ++ visits shown s'
  | .inr _ => shown s
termination_by m.weight s
decreasing_by exact m.step_weight _h

@[elab_as_elim]
theorem induct {motive : State → Prop}
    (move : ∀ s s', m.step s = .inl s' → motive s' → motive s)
    (halt : ∀ s r, m.step s = .inr r → motive s) (s : State) : motive s := by
  cases h : m.step s with
  | inl s' => exact move s s' h (induct move halt s')
  | inr r => exact halt s r h
termination_by m.weight s
decreasing_by exact m.step_weight h

section
variable {α : Type} {shown : State → List α} {s s' : State} {r : Result}

theorem finish_of_step (h : m.step s = .inl s') : m.finish s = m.finish s' := by
  rw [finish]
  split <;> simp_all

theorem finish_of_done (h : m.step s = .inr r) : m.finish s = r := by
  rw [finish]
  split <;> simp_all

theorem visits_of_step (h : m.step s = .inl s') :
    m.visits shown s = shown s ++ m.visits shown s' := by
  rw [visits]
  split <;> simp_all

theorem visits_of_done (h : m.step s = .inr r) : m.visits shown s = shown s := by
  rw [visits]
  split <;> simp_all

end

end Machine

end TypedClosures
