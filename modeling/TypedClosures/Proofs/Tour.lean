import TypedClosures.Check.MachineLaws
import TypedClosures.Proofs.Positions
import Mathlib.Data.List.Infix

/-!
# Where the checking machine is

The machine that checks a term enters one node after the other. Where it is in the term can
be read off the steps that are open around it (`position`), so that `reached` lists the
positions that it comes to in a run. These are the first positions of the term, one for
every step that the log says is entered (`reached_eq_take`): no move skips a position that
is still `ahead`, and only a fault gives up the rest.
-/

namespace TypedClosures.Check

def Waiting.index : Waiting → Nat
  | .test _ _ _ | .operator _ _ | .body _ => 0
  | .yes _ _ _ => 1
  | .no _ _ => 2
  | .operand _ _ done _ _ => done.length + 1

/-- The position of the node inside these open steps. -/
def position : List Pending → Path
  | [] => []
  | p :: pending => position pending ++ [p.waiting.index]

def State.entering (s : State) : List Path :=
  match s.control with
  | .enter _ _ _ => [position s.pending]
  | .leave _ _ => []

def tour (s : State) : List Path := machine.visits State.entering s

/-- The positions of a term that its check comes to, in order. -/
def reached (Γ : Scope) (t : Term) (want : Option Ty) : List Path :=
  tour ⟨.enter Γ t want, [], []⟩

-- ---------------------------------------------------------------------------
-- What a run comes to is a first part of the term
-- ---------------------------------------------------------------------------

def Waiting.rest : Waiting → List Term
  | .test _ a b => [a, b]
  | .yes _ _ b => [b]
  | .no _ _ | .body _ => []
  | .operator _ xs | .operand _ _ _ _ xs => xs

def remaining : List Pending → List Path
  | [] => []
  | p :: pending =>
    (Term.pathsFrom (p.waiting.index + 1) p.waiting.rest).map (position pending ++ ·) ++
      remaining pending

/-- The positions that a state still has to come to. After a fault there are none. -/
def State.ahead (s : State) : List Path :=
  match s.control with
  | .enter _ t _ => t.paths.map (position s.pending ++ ·) ++ remaining s.pending
  | .leave _ (.ok _) => remaining s.pending
  | .leave _ (.error _) => []

theorem ahead_enter (Γ : Scope) (x : Term) (want : Option Ty) (p : Pending)
    (pending : List Pending) (log : List Event) :
    State.ahead ⟨.enter Γ x want, p :: pending, log⟩ =
      (Term.pathsFrom p.waiting.index (x :: p.waiting.rest)).map (position pending ++ ·) ++
        remaining pending := by
  simp [State.ahead, remaining, position, Term.pathsFrom]

theorem start_ahead (Γ : Scope) (t : Term) (want : Option Ty) (pending : List Pending)
    (log : List Event) :
    (start Γ t want pending log).ahead <+:
      (Term.pathsFrom 0 t.parts).map (position pending ++ ·) ++ remaining pending := by
  cases t with
  | var s x =>
    simp only [start, State.ahead]
    cases variableAt Γ s x with
    | error fault => exact List.nil_prefix
    | ok w => exact List.prefix_rfl
  | cond s c a b =>
    rw [start, ahead_enter]
    exact List.prefix_rfl
  | app s f xs =>
    rw [start, ahead_enter]
    exact List.prefix_rfl
  | lam s ps b =>
    cases ps with
    | nil => exact List.nil_prefix
    | cons p ps =>
      rw [start, ahead_enter]
      exact List.prefix_rfl

theorem nextOperand_ahead (goal : Goal) (Γ : Scope) (f : Witness) (done : List Witness)
    (xs : List Term) (τ : Ty) (pending : List Pending) (log : List Event) :
    (nextOperand goal Γ f done xs τ pending log).ahead <+:
      (Term.pathsFrom (done.length + 1) xs).map (position pending ++ ·) ++ remaining pending := by
  cases xs with
  | nil => cases τ <;> exact List.prefix_rfl
  | cons x xs =>
    cases τ with
    | base name => exact List.nil_prefix
    | arrow argument result =>
      rw [nextOperand, ahead_enter]
      exact List.prefix_rfl

theorem resume_ahead (p : Pending) (w : Witness) (pending : List Pending) (log : List Event) :
    (resume p.goal p.waiting w pending log).ahead <+: remaining (p :: pending) := by
  obtain ⟨goal, waiting⟩ := p
  cases waiting with
  | test Γ a b =>
    rw [resume, ahead_enter]
    exact List.prefix_rfl
  | yes Γ c b =>
    rw [resume, ahead_enter]
    exact List.prefix_rfl
  | no c a => exact List.prefix_rfl
  | operator Γ xs => exact nextOperand_ahead goal Γ w [] xs w.ty pending log
  | operand Γ f done τ xs => exact nextOperand_ahead goal Γ f (w :: done) xs τ pending log
  | body ps => exact List.prefix_rfl

theorem step_leave (goal : Goal) (found : Except Fault Witness) (p : Pending)
    (pending : List Pending) (log : List Event) :
    step ⟨.leave goal found, p :: pending, log⟩ =
      .inl (match found.bind (·.meets goal.want) with
        | .ok w => resume p.goal p.waiting w pending log
        | .error fault => ⟨.leave p.goal (.error fault), pending, .failed goal fault :: log⟩) := by
  cases houtcome : found.bind (·.meets goal.want) <;> simp [step, houtcome, Goal.closing]

/-- One move comes to the first position that is ahead, or to none. -/
theorem step_ahead {s s' : State} (h : step s = .inl s') :
    s.entering ++ s'.ahead <+: s.ahead := by
  obtain ⟨control, pending, log⟩ := s
  cases control with
  | enter Γ t want =>
    cases h
    simp only [State.ahead, State.entering, t.paths_eq, List.map_cons, List.append_nil]
    exact List.cons_prefix_cons.mpr ⟨rfl, start_ahead Γ t want pending _⟩
  | leave goal found =>
    cases pending with
    | nil => cases h
    | cons p pending =>
      rw [step_leave] at h
      rcases houtcome : found.bind (·.meets goal.want) with fault | w
      · rw [houtcome] at h
        cases h
        exact List.nil_prefix
      · rw [houtcome] at h
        cases h
        obtain ⟨v, rfl, -⟩ := bind_ok.mp houtcome
        exact resume_ahead p w pending log

theorem step_done {s : State} {run : Run Witness} (h : step s = .inr run) :
    ∃ goal found log, s = ⟨.leave goal found, [], log⟩ := by
  obtain ⟨control, pending, log⟩ := s
  cases control with
  | enter Γ t want => cases h
  | leave goal found =>
    cases pending with
    | nil => exact ⟨goal, found, log, rfl⟩
    | cons p pending =>
      rw [step_leave] at h
      cases h

theorem tour_of_step {s s' : State} (h : machine.step s = .inl s') :
    tour s = s.entering ++ tour s' :=
  machine.visits_of_step h

theorem tour_of_done {s : State} {run : Run Witness} (h : machine.step s = .inr run) :
    tour s = s.entering :=
  machine.visits_of_done h

theorem tour_isPrefix_ahead (s : State) : tour s <+: s.ahead := by
  induction s using machine.induct with
  | move s s' hstep ih =>
    rw [tour_of_step hstep]
    exact ((List.prefix_append_right_inj _).mpr ih).trans (step_ahead hstep)
  | halt s run hstep =>
    rw [tour_of_done hstep]
    obtain ⟨goal, found, log, rfl⟩ := step_done hstep
    exact List.nil_prefix

theorem reached_isPrefix_paths (Γ : Scope) (t : Term) (want : Option Ty) :
    reached Γ t want <+: t.paths := by
  have hstart : State.ahead ⟨.enter Γ t want, [], []⟩ = t.paths := by
    simp [State.ahead, remaining, position]
  exact hstart ▸ tour_isPrefix_ahead ⟨.enter Γ t want, [], []⟩

-- ---------------------------------------------------------------------------
-- The log of the machine
-- ---------------------------------------------------------------------------

def Event.isEntered : Event → Bool
  | .entered _ => true
  | .failed _ _ => false

theorem start_log (Γ : Scope) (t : Term) (want : Option Ty) (pending : List Pending)
    (log : List Event) : (start Γ t want pending log).log = log := by
  unfold start
  split <;> rfl

theorem nextOperand_log (goal : Goal) (Γ : Scope) (f : Witness) (done : List Witness)
    (xs : List Term) (τ : Ty) (pending : List Pending) (log : List Event) :
    (nextOperand goal Γ f done xs τ pending log).log = log := by
  unfold nextOperand
  split <;> rfl

theorem resume_log (goal : Goal) (waiting : Waiting) (w : Witness) (pending : List Pending)
    (log : List Event) : (resume goal waiting w pending log).log = log := by
  cases waiting with
  | operator Γ xs => exact nextOperand_log goal Γ w [] xs w.ty pending log
  | operand Γ f done τ xs => exact nextOperand_log goal Γ f (w :: done) xs τ pending log
  | _ => rfl

theorem countP_closing {α : Type} (goal : Goal) (outcome : Except Fault α) :
    (goal.closing outcome).countP Event.isEntered = 0 := by
  cases outcome <;> rfl

theorem step_log {s s' : State} (h : step s = .inl s') :
    s'.log.countP Event.isEntered = s.log.countP Event.isEntered + s.entering.length := by
  obtain ⟨control, pending, log⟩ := s
  cases control with
  | enter Γ t want =>
    cases h
    rw [start_log, List.countP_cons_of_pos rfl]
    rfl
  | leave goal found =>
    cases pending with
    | nil => cases h
    | cons p pending =>
      rw [step_leave] at h
      cases h
      cases found.bind (·.meets goal.want) with
      | error fault => exact List.countP_cons_of_neg (by simp [Event.isEntered])
      | ok w => exact congrArg _ (resume_log p.goal p.waiting w pending log)

theorem countP_finish (s : State) :
    (machine.finish s).events.countP Event.isEntered =
      s.log.countP Event.isEntered + (tour s).length := by
  induction s using machine.induct with
  | move s s' hstep ih =>
    rw [machine.finish_of_step hstep, tour_of_step hstep, ih, step_log hstep, List.length_append,
      Nat.add_assoc]
  | halt s run hstep =>
    rw [machine.finish_of_done hstep, tour_of_done hstep]
    obtain ⟨goal, found, log, rfl⟩ := step_done hstep
    cases hstep
    simp [countP_closing, State.entering]

/-- What a check comes to are the first positions of the term, as many as there are steps
entered in its log. -/
theorem reached_eq_take (Γ : Scope) (t : Term) (want : Option Ty) :
    reached Γ t want = t.paths.take ((elaborate Γ t want).events.countP Event.isEntered) := by
  have hcount : (elaborate Γ t want).events.countP Event.isEntered = (reached Γ t want).length :=
    (countP_finish _).trans (Nat.zero_add _)
  rw [hcount]
  exact List.prefix_iff_eq_take.mp (reached_isPrefix_paths Γ t want)

end TypedClosures.Check
