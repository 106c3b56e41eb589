import TypedClosures.Witness
import TypedClosures.Scope

/-!
# Runs of the checker

Checking a term takes one step for every node it looks at. A `Run` is what a
step shows to the outside: the events in the order in which they happened, and
the outcome. Runs compose in order, and the first fault ends the rest.
-/

namespace TypedClosures.Check

structure Goal where
  head : Head
  span : Span
  want : Option Ty
  deriving DecidableEq, Repr

/-- A step says that it starts, and once more if it ends in a fault. -/
inductive Event
  | entered (goal : Goal)
  | failed (goal : Goal) (fault : Fault)
  deriving DecidableEq, Repr

structure Run (α : Type) where
  events : List Event
  outcome : Except Fault α

namespace Run

protected def pure {α : Type} (a : α) : Run α := ⟨[], .ok a⟩

protected def bind {α β : Type} (r : Run α) (next : α → Run β) : Run β :=
  match r.outcome with
  | .ok a => ⟨r.events ++ (next a).events, (next a).outcome⟩
  | .error fault => ⟨r.events, .error fault⟩

instance : Monad Run where
  pure := Run.pure
  bind := Run.bind

def fail {α : Type} (fault : Fault) : Run α := ⟨[], .error fault⟩

def ofExcept {α : Type} (outcome : Except Fault α) : Run α := ⟨[], outcome⟩

@[simp]
theorem pure_eq {α : Type} (a : α) : (pure a : Run α) = ⟨[], .ok a⟩ := rfl

@[simp]
theorem ok_bind {α β : Type} (events : List Event) (a : α) (next : α → Run β) :
    (⟨events, .ok a⟩ : Run α) >>= next = ⟨events ++ (next a).events, (next a).outcome⟩ := rfl

@[simp]
theorem error_bind {α β : Type} (events : List Event) (fault : Fault) (next : α → Run β) :
    (⟨events, .error fault⟩ : Run α) >>= next = ⟨events, .error fault⟩ := rfl

end Run

def Goal.closing {α : Type} (goal : Goal) : Except Fault α → List Event
  | .ok _ => []
  | .error fault => [.failed goal fault]

/-- One step: it announces its goal, follows the rule for the node, and
compares the type found with the one wanted. -/
def Goal.visit (goal : Goal) (rule : Run Witness) : Run Witness :=
  let outcome := rule.outcome.bind (·.meets goal.want)
  ⟨.entered goal :: (rule.events ++ goal.closing outcome), outcome⟩

end TypedClosures.Check

namespace TypedClosures

def Term.goal (t : Term) (want : Option Ty) : Check.Goal := ⟨t.head, t.span, want⟩

end TypedClosures
