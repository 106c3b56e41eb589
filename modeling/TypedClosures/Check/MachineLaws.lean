import TypedClosures.Check.Machine

/-!
# The checking machine follows the rules

Started on a term, the machine comes to leave that term's step with what `rule`
finds, whatever steps are open around it (`Follows`). By induction on terms this
holds of every term, and with no step open it says that `elaborate` is `derive`.
-/

namespace TypedClosures.Check

/-- A step that has been left with a run hands its outcome to the step around it. -/
def deliver (r : Run Witness) (p : Pending) (pending : List Pending) (log : List Event) : State :=
  match r.outcome with
  | .ok w => resume p.goal p.waiting w pending (r.events.reverse ++ log)
  | .error fault => ⟨.leave p.goal (.error fault), pending, r.events.reverse ++ log⟩

theorem finish_leave_cons (goal : Goal) (r : Run Witness) (p : Pending)
    (pending : List Pending) (log : List Event) :
    machine.finish ⟨.leave goal r.outcome, p :: pending,
        r.events.reverse ++ .entered goal :: log⟩ =
      machine.finish (deliver (goal.visit r) p pending log) := by
  apply machine.finish_of_step
  cases h : r.outcome.bind (·.meets goal.want) with
  | ok w => simp [step, deliver, Goal.visit, h, Goal.closing]
  | error fault => simp [step, deliver, Goal.visit, h, Goal.closing]

theorem finish_leave_nil (goal : Goal) (r : Run Witness) :
    machine.finish ⟨.leave goal r.outcome, [], r.events.reverse ++ [.entered goal]⟩ =
      goal.visit r := by
  apply machine.finish_of_done
  cases h : r.outcome.bind (·.meets goal.want) with
  | ok w => simp [step, Goal.visit, h, Goal.closing]
  | error fault => simp [step, Goal.visit, h, Goal.closing]

def Follows (t : Term) : Prop :=
  ∀ Γ want pending log,
    machine.finish ⟨.enter Γ t want, pending, log⟩ =
      machine.finish ⟨.leave (t.goal want) (rule Γ t want).outcome, pending,
        (rule Γ t want).events.reverse ++ .entered (t.goal want) :: log⟩

theorem Follows.deliver {t : Term} (h : Follows t) (Γ : Scope) (want : Option Ty) (p : Pending)
    (pending : List Pending) (log : List Event) :
    machine.finish ⟨.enter Γ t want, p :: pending, log⟩ =
      machine.finish (deliver (derive Γ t want) p pending log) := by
  rw [h, finish_leave_cons]
  rfl

theorem follows_of_start {t : Term}
    (h : ∀ Γ want pending log,
      machine.finish (start Γ t want pending log) =
        machine.finish ⟨.leave (t.goal want) (rule Γ t want).outcome, pending,
          (rule Γ t want).events.reverse ++ log⟩) : Follows t := by
  intro Γ want pending log
  have hs : machine.step ⟨.enter Γ t want, pending, log⟩ =
      .inl (start Γ t want pending (.entered (t.goal want) :: log)) := rfl
  rw [machine.finish_of_step hs, h]

-- ---------------------------------------------------------------------------
-- One kind of node after the other
-- ---------------------------------------------------------------------------

theorem follows_var (s : Span) (x : Name) : Follows (.var s x) :=
  follows_of_start fun _ _ _ _ => rfl

theorem follows_cond (s : Span) {c a b : Term} (hc : Follows c) (ha : Follows a)
    (hb : Follows b) : Follows (.cond s c a b) := by
  apply follows_of_start
  intro Γ want pending log
  rw [start, hc.deliver, rule_cond]
  obtain ⟨first, _ | c⟩ := derive Γ c (some .bool)
  · rfl
  simp only [Check.deliver, resume]
  rw [ha.deliver]
  simp only [Term.goal]
  obtain ⟨second, _ | a⟩ := derive Γ a want
  · simp [Check.deliver]
  simp only [Check.deliver, resume]
  rw [hb.deliver]
  rcases hr : derive Γ b (some a.ty) with ⟨third, _ | b⟩
  · simp [Check.deliver, hr]
  · simp [Check.deliver, resume, Term.span, hr]

theorem finish_nextOperand (goal : Goal) (Γ : Scope) (f : Witness) {xs : List Term}
    (h : ∀ x ∈ xs, Follows x) (done : List Witness) (τ : Ty) (pending : List Pending)
    (log : List Event) :
    machine.finish (nextOperand goal Γ f done xs τ pending log) =
      machine.finish ⟨.leave goal ((operands Γ f.span xs τ).outcome.map fun r =>
          .app goal.span r.1 f (done.reverse ++ r.2)), pending,
        (operands Γ f.span xs τ).events.reverse ++ log⟩ := by
  induction xs generalizing done τ log with
  | nil =>
    rw [operands_nil]
    simp [nextOperand, Except.map]
  | cons x xs ih =>
    cases τ with
    | base name => rfl
    | arrow argument result =>
      rw [nextOperand, (h x List.mem_cons_self).deliver, operands_cons_arrow]
      obtain ⟨first, _ | w⟩ := derive Γ x (some argument)
      · rfl
      simp only [Check.deliver, resume]
      rw [ih fun y hy => h y (List.mem_cons_of_mem x hy)]
      obtain ⟨rest, _ | ⟨τ, ws⟩⟩ := operands Γ f.span xs result
      · simp [Except.map]
      · simp [Except.map]

theorem follows_app (s : Span) {f : Term} {xs : List Term} (hf : Follows f)
    (hxs : ∀ x ∈ xs, Follows x) : Follows (.app s f xs) := by
  apply follows_of_start
  intro Γ want pending log
  rw [start, hf.deliver, rule_app]
  obtain ⟨first, _ | f⟩ := derive Γ f none
  · rfl
  simp only [Check.deliver, resume]
  rw [finish_nextOperand _ Γ f hxs]
  rcases hr : operands Γ f.span xs f.ty with ⟨rest, _ | ⟨τ, ws⟩⟩
  · simp [Except.map, hr]
  · simp [Except.map, Term.goal, Term.span, hr]

theorem follows_lam (s : Span) (ps : List Binding) {b : Term} (hb : Follows b) :
    Follows (.lam s ps b) := by
  apply follows_of_start
  intro Γ want pending log
  cases ps with
  | nil => rfl
  | cons p ps =>
    rw [start, hb.deliver, rule_lam_cons]
    obtain ⟨first, _ | b⟩ := derive (Γ.extendAll (p :: ps)) b (bodyWant (p :: ps) want)
    · rfl
    · simp [Check.deliver, resume, Term.goal, Term.span]

theorem follows (t : Term) : Follows t := by
  induction t using Term.induct with
  | var s x => exact follows_var s x
  | cond s c a b hc ha hb => exact follows_cond s hc ha hb
  | app s f xs hf hxs => exact follows_app s hf hxs
  | lam s ps b hb => exact follows_lam s ps hb

theorem elaborate_eq_derive (Γ : Scope) (t : Term) (want : Option Ty) :
    elaborate Γ t want = derive Γ t want := by
  unfold elaborate
  rw [follows t, finish_leave_nil]
  rfl

theorem infer_eq (Γ : Scope) (t : Term) : infer Γ t = (derive Γ t none).outcome := by
  rw [infer, elaborate_eq_derive]

end TypedClosures.Check
