import TypedClosures.Proofs.Tour

/-!
# What is not reached has no influence

If a check ends in a fault, there may be positions of the term that it has not `reached`:
what follows on the fault in its own node and in the nodes around it. Any terms may be put
in their place (`Term.graft`), and the run stays the same, events and fault included
(`elaborate_graft`).

The two runs are followed side by side. Putting terms in place commutes with every move of
the machine, as long as the node that it enters is not replaced (`step_graft`).
-/

namespace TypedClosures

-- ---------------------------------------------------------------------------
-- Terms put in the place of others
-- ---------------------------------------------------------------------------

abbrev Grafts := Path → Option Term

def Grafts.within (σ : Grafts) (path : Path) : Grafts := fun rest => σ (path ++ rest)

theorem Grafts.within_append (σ : Grafts) (path rest : Path) :
    σ.within (path ++ rest) = (σ.within path).within rest := by
  funext tail
  exact congrArg σ (List.append_assoc path rest tail)

theorem Grafts.within_nil (σ : Grafts) (path : Path) : σ.within path [] = σ path :=
  congrArg σ (List.append_nil path)

namespace Term

mutual

/-- Puts terms in the place of what stands at some positions. One that is put at a
position takes the place of everything inside. -/
def graft : Term → Grafts → Term
  | .var s x, σ => (σ []).getD (.var s x)
  | .cond s c a b, σ =>
    (σ []).getD (.cond s (c.graft (σ.within [0])) (a.graft (σ.within [1])) (b.graft (σ.within [2])))
  | .app s f xs, σ => (σ []).getD (.app s (f.graft (σ.within [0])) (graftFrom xs 1 σ))
  | .lam s ps b, σ => (σ []).getD (.lam s ps (b.graft (σ.within [0])))

def graftFrom : List Term → Nat → Grafts → List Term
  | [], _, _ => []
  | t :: ts, i, σ => t.graft (σ.within [i]) :: graftFrom ts (i + 1) σ

end

theorem length_graftFrom (ts : List Term) (i : Nat) (σ : Grafts) :
    (graftFrom ts i σ).length = ts.length := by
  induction ts generalizing i with
  | nil => rfl
  | cons t ts ih => rw [graftFrom, List.length_cons, List.length_cons, ih]

theorem goal_graft {σ : Grafts} (h : σ [] = none) (t : Term) (want : Option Ty) :
    (t.graft σ).goal want = t.goal want := by
  cases t <;> simp [graft, h, goal, head, span, length_graftFrom]

end Term

namespace Check

-- ---------------------------------------------------------------------------
-- The machine on the other term
-- ---------------------------------------------------------------------------

/-- An open step of the node that `σ` is for keeps the parts that are still to come. -/
def Waiting.graft (σ : Grafts) : Waiting → Waiting
  | .test Γ a b => .test Γ (a.graft (σ.within [1])) (b.graft (σ.within [2]))
  | .yes Γ c b => .yes Γ c (b.graft (σ.within [2]))
  | .no c a => .no c a
  | .operator Γ xs => .operator Γ (Term.graftFrom xs 1 σ)
  | .operand Γ f done τ xs => .operand Γ f done τ (Term.graftFrom xs (done.length + 2) σ)
  | .body ps => .body ps

def graftPending (σ : Grafts) : List Pending → List Pending
  | [] => []
  | p :: pending => ⟨p.goal, p.waiting.graft (σ.within (position pending))⟩ :: graftPending σ pending

def Control.graft (σ : Grafts) : Control → Control
  | .enter Γ t want => .enter Γ (t.graft σ) want
  | .leave goal found => .leave goal found

def State.graft (σ : Grafts) (s : State) : State :=
  ⟨s.control.graft (σ.within (position s.pending)), graftPending σ s.pending, s.log⟩

section
variable {σ : Grafts}

theorem graft_enter (σ : Grafts) (Γ : Scope) (x : Term) (want : Option Ty) (p : Pending)
    (pending : List Pending) (log : List Event) :
    State.graft σ ⟨.enter Γ x want, p :: pending, log⟩ =
      ⟨.enter Γ (x.graft ((σ.within (position pending)).within [p.waiting.index])) want,
        ⟨p.goal, p.waiting.graft (σ.within (position pending))⟩ :: graftPending σ pending, log⟩ := by
  rw [← Grafts.within_append]
  rfl

theorem start_graft {pending : List Pending} (h : σ (position pending) = none) (Γ : Scope)
    (t : Term) (want : Option Ty) (log : List Event) :
    start Γ (t.graft (σ.within (position pending))) want (graftPending σ pending) log =
      (start Γ t want pending log).graft σ := by
  have hroot : σ.within (position pending) [] = none := by rw [Grafts.within_nil, h]
  have hgoal := Term.goal_graft hroot t want
  cases t with
  | var s x =>
    simp only [Term.graft, hroot, Option.getD_none]
    rfl
  | cond s c a b =>
    simp only [Term.graft, hroot, Option.getD_none] at hgoal ⊢
    simp only [start, graft_enter, hgoal]
    rfl
  | app s f xs =>
    simp only [Term.graft, hroot, Option.getD_none] at hgoal ⊢
    simp only [start, graft_enter, hgoal]
    rfl
  | lam s ps b =>
    simp only [Term.graft, hroot, Option.getD_none] at hgoal ⊢
    cases ps with
    | nil => rfl
    | cons p ps =>
      simp only [start, graft_enter, hgoal]
      rfl

theorem nextOperand_graft (goal : Goal) (Γ : Scope) (f : Witness) (done : List Witness)
    (xs : List Term) (τ : Ty) (pending : List Pending) (log : List Event) :
    nextOperand goal Γ f done (Term.graftFrom xs (done.length + 1) (σ.within (position pending))) τ
        (graftPending σ pending) log =
      (nextOperand goal Γ f done xs τ pending log).graft σ := by
  cases xs with
  | nil => cases τ <;> rfl
  | cons x xs =>
    cases τ with
    | base name => rfl
    | arrow argument result =>
      simp only [nextOperand, graft_enter]
      rfl

theorem resume_graft (goal : Goal) (waiting : Waiting) (w : Witness) (pending : List Pending)
    (log : List Event) :
    resume goal (waiting.graft (σ.within (position pending))) w (graftPending σ pending) log =
      (resume goal waiting w pending log).graft σ := by
  cases waiting with
  | test Γ a b =>
    simp only [resume, graft_enter]
    rfl
  | yes Γ c b =>
    simp only [resume, graft_enter]
    rfl
  | no c a => rfl
  | operator Γ xs => exact nextOperand_graft goal Γ w [] xs w.ty pending log
  | operand Γ f done τ xs => exact nextOperand_graft goal Γ f (w :: done) xs τ pending log
  | body ps => rfl

/-- One move: on the other term the machine comes to the same state, but for the terms
that are still to come. -/
theorem step_graft {s : State} (h : ∀ path ∈ s.entering, σ path = none) :
    step (s.graft σ) = (step s).map (State.graft σ) id := by
  obtain ⟨control, pending, log⟩ := s
  cases control with
  | enter Γ t want =>
    have hhere : σ (position pending) = none := h _ (List.mem_singleton_self _)
    have hroot : σ.within (position pending) [] = none := by rw [Grafts.within_nil, hhere]
    simp only [step, State.graft, Control.graft, Term.goal_graft hroot]
    exact congrArg Sum.inl (start_graft hhere Γ t want _)
  | leave goal found =>
    cases pending with
    | nil => rfl
    | cons p pending =>
      simp only [State.graft, Control.graft, graftPending, step_leave]
      cases found.bind (·.meets goal.want) with
      | error fault => rfl
      | ok w => exact congrArg Sum.inl (resume_graft p.goal p.waiting w pending log)

theorem finish_graft {s : State} (h : ∀ path ∈ tour s, σ path = none) :
    machine.finish (s.graft σ) = machine.finish s := by
  induction s using machine.induct with
  | move s s' hstep ih =>
    rw [tour_of_step hstep] at h
    obtain ⟨hnow, hlater⟩ := List.forall_mem_append.mp h
    have hgraft : machine.step (s.graft σ) = .inl (s'.graft σ) := by
      rw [machine_step, step_graft hnow, ← machine_step, hstep]
      rfl
    rw [machine.finish_of_step hstep, machine.finish_of_step hgraft, ih hlater]
  | halt s r hstep =>
    rw [tour_of_done hstep] at h
    have hgraft : machine.step (s.graft σ) = .inr r := by
      rw [machine_step, step_graft h, ← machine_step, hstep]
      rfl
    rw [machine.finish_of_done hstep, machine.finish_of_done hgraft]

end

/-- A check comes to the first positions of the term, as many as there are steps entered in
its log. If none of them is replaced, the check of the other term is the same run: the same
events, and the same witness or the same fault, at the same span. -/
theorem elaborate_graft {Γ : Scope} {t : Term} {want : Option Ty} {σ : Grafts}
    (h : ∀ path u, σ path = some u → path ∉ reached Γ t want) :
    reached Γ t want = t.paths.take ((elaborate Γ t want).events.countP Event.isEntered) ∧
      elaborate Γ (t.graft σ) want = elaborate Γ t want := by
  refine ⟨reached_eq_take Γ t want, @finish_graft σ ⟨.enter Γ t want, [], []⟩ ?_⟩
  intro path hpath
  rw [Option.eq_none_iff_forall_ne_some]
  intro u hu
  exact h path u hu hpath

/-- The first operand has not the type that is wanted of it. The second one and the branch
after the application are not reached, and would not pass themselves. -/
theorem elaborate_graft_operand :
    let Γ : Scope := [⟨"b", .bool⟩, ⟨"f", .curried [.base "Int", .bool] .bool⟩]
    let t : Term := .cond ⟨0, 9⟩ (.var ⟨1, 2⟩ "b")
      (.app ⟨3, 8⟩ (.var ⟨3, 4⟩ "f") [.var ⟨5, 6⟩ "b", .var ⟨7, 8⟩ "b"]) (.var ⟨8, 9⟩ "b")
    let unbound : Term := .var ⟨20, 21⟩ "z"
    let σ : Grafts := fun path => [([1, 2], Term.lam ⟨30, 31⟩ [] unbound), ([2], unbound)].lookup path
    (∀ path u, σ path = some u → path ∉ reached Γ t none) ∧
      t.graft σ = .cond ⟨0, 9⟩ (.var ⟨1, 2⟩ "b")
        (.app ⟨3, 8⟩ (.var ⟨3, 4⟩ "f") [.var ⟨5, 6⟩ "b", .lam ⟨30, 31⟩ [] unbound]) unbound ∧
      elaborate Γ (t.graft σ) none = elaborate Γ t none ∧
      (elaborate Γ t none).outcome = .error ⟨.typeMismatch .bool (.base "Int"), ⟨5, 6⟩⟩ := by
  intro Γ t unbound σ
  have hreached : reached Γ t none = [[], [0], [1], [1, 0], [1, 1]] := by decide +kernel
  have hσ : ∀ path u, σ path = some u → path ∉ reached Γ t none := by
    intro path u hu hpath
    have hnone : ∀ path ∈ [[], [0], [1], [1, 0], [1, 1]], σ path = none := by decide +kernel
    rw [hreached] at hpath
    rw [hnone path hpath] at hu
    cases hu
  refine ⟨hσ, rfl, (elaborate_graft hσ).2, ?_⟩
  rw [elaborate_eq_derive]
  rfl

end Check

end TypedClosures
