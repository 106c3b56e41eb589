import TypedClosures.Check.MachineLaws
import Mathlib.Data.List.Forall2

/-!
# What a check answers, rule by rule

`answer` forgets the events of a check. It satisfies one equation for each kind
of node, and an answer that is a witness determines the answers for the parts:
`answer_cond_ok`, `answer_app_ok` and `answer_lam_ok`. Later proofs use these and
do not look into the machine.
-/

namespace TypedClosures

-- ---------------------------------------------------------------------------
-- Outcomes of runs
-- ---------------------------------------------------------------------------

theorem Witness.meets_none (w : Witness) : w.meets none = .ok w := rfl

theorem Witness.meets_self {w : Witness} {want : Option Ty} (h : ∀ τ ∈ want, w.ty = τ) :
    w.meets want = .ok w :=
  Witness.meets_eq_ok_iff.mpr ⟨rfl, h⟩

namespace Check

@[simp]
theorem ok_then {ε α β : Type} (a : α) (f : α → Except ε β) : .ok a >>= f = f a := rfl

@[simp]
theorem error_then {ε α β : Type} (e : ε) (f : α → Except ε β) : .error e >>= f = .error e := rfl

theorem bind_ok {ε α β : Type} {x : Except ε α} {f : α → Except ε β} {b : β} :
    x >>= f = .ok b ↔ ∃ a, x = .ok a ∧ f a = .ok b := by
  cases x <;> simp

theorem bind_error {ε α β : Type} {x : Except ε α} {f : α → Except ε β} {e : ε} :
    x >>= f = .error e ↔ x = .error e ∨ ∃ a, x = .ok a ∧ f a = .error e := by
  cases x <;> simp

theorem Run.outcome_bind {α β : Type} (r : Run α) (next : α → Run β) :
    (r >>= next).outcome = r.outcome >>= fun a => (next a).outcome := by
  obtain ⟨events, _ | a⟩ := r <;> rfl

theorem Goal.outcome_visit (goal : Goal) (r : Run Witness) :
    (goal.visit r).outcome = r.outcome >>= (·.meets goal.want) := rfl

def answer (Γ : Scope) (t : Term) (want : Option Ty) : Except Fault Witness :=
  (elaborate Γ t want).outcome

def operandAnswers (Γ : Scope) (place : Span) (xs : List Term) (τ : Ty) :
    Except Fault (Ty × List Witness) :=
  (operands Γ place xs τ).outcome

theorem outcome_derive (Γ : Scope) (t : Term) (want : Option Ty) :
    (derive Γ t want).outcome = answer Γ t want := by
  rw [answer, elaborate_eq_derive]

theorem outcome_operands (Γ : Scope) (place : Span) (xs : List Term) (τ : Ty) :
    (operands Γ place xs τ).outcome = operandAnswers Γ place xs τ := rfl

theorem answer_eq (Γ : Scope) (t : Term) (want : Option Ty) :
    answer Γ t want = (rule Γ t want).outcome >>= (·.meets want) := by
  rw [← outcome_derive, derive, Goal.outcome_visit]
  rfl

theorem meets_of_answer {Γ : Scope} {t : Term} {want : Option Ty} {w : Witness}
    (h : answer Γ t want = .ok w) : ∀ τ ∈ want, w.ty = τ := by
  rw [answer_eq, bind_ok] at h
  obtain ⟨v, _, hv⟩ := h
  obtain ⟨rfl, hτ⟩ := Witness.meets_eq_ok_iff.mp hv
  exact hτ

theorem ty_of_answer {Γ : Scope} {t : Term} {τ : Ty} {w : Witness}
    (h : answer Γ t (some τ) = .ok w) : w.ty = τ :=
  meets_of_answer h τ rfl

-- ---------------------------------------------------------------------------
-- One equation for each kind of node
-- ---------------------------------------------------------------------------

section
variable {Γ : Scope} {s : Span} {want : Option Ty}

theorem answer_var (x : Name) :
    answer Γ (.var s x) want = variableAt Γ s x >>= (·.meets want) := by
  rw [answer_eq, rule_var, Run.ofExcept]

/-- The conditional needs no comparison of its own: its type is that of the
first branch, which was compared already. -/
theorem answer_cond (c a b : Term) :
    answer Γ (.cond s c a b) want = (do
      let c ← answer Γ c (some .bool)
      let a ← answer Γ a want
      let b ← answer Γ b (some a.ty)
      return .cond s a.ty c a b) := by
  rw [answer_eq, rule_cond]
  simp only [Run.outcome_bind, outcome_derive, Run.pure_eq, bind_assoc]
  rcases answer Γ c (some .bool) with _ | c'
  · rfl
  rcases ha : answer Γ a want with _ | a'
  · rfl
  rcases hb : answer Γ b (some a'.ty) with _ | b'
  · simp [hb]
  have hw := meets_of_answer ha
  simp [hb, @Witness.meets_self (.cond s a'.ty c' a' b') want hw]

theorem answer_app (f : Term) (xs : List Term) :
    answer Γ (.app s f xs) want = (do
      let f ← answer Γ f none
      let r ← operandAnswers Γ f.span xs f.ty
      (Witness.app s r.1 f r.2).meets want) := by
  rw [answer_eq, rule_app]
  simp only [Run.outcome_bind, outcome_derive, outcome_operands, Run.pure_eq, bind_assoc, ok_then]

theorem answer_lam_nil (b : Term) :
    answer Γ (.lam s [] b) want = .error ⟨.nullaryLambda, s⟩ := by
  rw [answer_eq, rule_lam_nil]
  rfl

theorem answer_lam_cons (p : Binding) (ps : List Binding) (b : Term) :
    answer Γ (.lam s (p :: ps) b) want = (do
      let b ← answer (Γ.extendAll (p :: ps)) b (bodyWant (p :: ps) want)
      (abstract s (p :: ps) b).meets want) := by
  rw [answer_eq, rule_lam_cons]
  simp only [Run.outcome_bind, outcome_derive, Run.pure_eq, bind_assoc, ok_then]

theorem answer_lam {ps : List Binding} (hps : ps ≠ []) (b : Term) :
    answer Γ (.lam s ps b) want = (do
      let b ← answer (Γ.extendAll ps) b (bodyWant ps want)
      (abstract s ps b).meets want) := by
  obtain ⟨p, ps, rfl⟩ := List.exists_cons_of_ne_nil hps
  exact answer_lam_cons p ps b

theorem operandAnswers_nil (place : Span) (τ : Ty) :
    operandAnswers Γ place [] τ = .ok (τ, []) := by
  rw [operandAnswers, operands_nil]
  rfl

theorem operandAnswers_cons_arrow (place : Span) (x : Term) (xs : List Term)
    (argument result : Ty) :
    operandAnswers Γ place (x :: xs) (.arrow argument result) = (do
      let w ← answer Γ x (some argument)
      let r ← operandAnswers Γ place xs result
      return (r.1, w :: r.2)) := by
  rw [operandAnswers, operands_cons_arrow]
  simp only [Run.outcome_bind, outcome_derive, outcome_operands]
  rfl

theorem operandAnswers_cons_base (place : Span) (x : Term) (xs : List Term) (name : Name) :
    operandAnswers Γ place (x :: xs) (.base name) =
      .error ⟨.notAFunction (.base name), place⟩ := rfl

theorem operandAnswers_append (place : Span) (xs ys : List Term) (τ : Ty) :
    operandAnswers Γ place (xs ++ ys) τ = (do
      let r ← operandAnswers Γ place xs τ
      let r' ← operandAnswers Γ place ys r.1
      return (r'.1, r.2 ++ r'.2)) := by
  induction xs generalizing τ with
  | nil =>
    rw [List.nil_append, operandAnswers_nil, ok_then]
    rcases operandAnswers Γ place ys τ with _ | _ <;> rfl
  | cons x xs ih =>
    cases τ with
    | base name => rfl
    | arrow argument result =>
      rw [List.cons_append, operandAnswers_cons_arrow, operandAnswers_cons_arrow, ih]
      simp only [bind_assoc, pure_bind, List.cons_append]

end

-- ---------------------------------------------------------------------------
-- Answers that are witnesses
-- ---------------------------------------------------------------------------

section
variable {Γ : Scope} {s place : Span} {want : Option Ty} {w : Witness}

theorem variableAt_ok {x : Name} :
    variableAt Γ s x = .ok w ↔ ∃ τ, Γ.find? x = some τ ∧ w = .var s τ x := by
  cases h : Γ.find? x <;> simp [variableAt_eq, h, eq_comm]

theorem answer_var_ok {x : Name} :
    answer Γ (.var s x) want = .ok w ↔
      ∃ τ, Γ.find? x = some τ ∧ w = .var s τ x ∧ ∀ σ ∈ want, τ = σ := by
  simp only [answer_var, bind_ok, variableAt_ok, Witness.meets_eq_ok_iff]
  constructor
  · rintro ⟨v, ⟨τ, hx, rfl⟩, rfl, hτ⟩
    exact ⟨τ, hx, rfl, hτ⟩
  · rintro ⟨τ, hx, rfl, hτ⟩
    exact ⟨_, ⟨τ, hx, rfl⟩, rfl, hτ⟩

theorem answer_cond_ok {c a b : Term} :
    answer Γ (.cond s c a b) want = .ok w ↔
      ∃ c' a' b', answer Γ c (some .bool) = .ok c' ∧ answer Γ a want = .ok a' ∧
        answer Γ b (some a'.ty) = .ok b' ∧ w = .cond s a'.ty c' a' b' := by
  simp only [answer_cond, bind_ok, pure, Except.pure, Except.ok.injEq]
  constructor
  · rintro ⟨c', hc, a', ha, b', hb, rfl⟩
    exact ⟨c', a', b', hc, ha, hb, rfl⟩
  · rintro ⟨c', a', b', hc, ha, hb, rfl⟩
    exact ⟨c', hc, a', ha, b', hb, rfl⟩

theorem answer_app_ok {f : Term} {xs : List Term} :
    answer Γ (.app s f xs) want = .ok w ↔
      ∃ f' τ ws, answer Γ f none = .ok f' ∧ operandAnswers Γ f'.span xs f'.ty = .ok (τ, ws) ∧
        w = .app s τ f' ws ∧ ∀ σ ∈ want, τ = σ := by
  simp only [answer_app, bind_ok, Witness.meets_eq_ok_iff]
  constructor
  · rintro ⟨f', hf, ⟨τ, ws⟩, hxs, rfl, hτ⟩
    exact ⟨f', τ, ws, hf, hxs, rfl, hτ⟩
  · rintro ⟨f', τ, ws, hf, hxs, rfl, hτ⟩
    exact ⟨f', hf, (τ, ws), hxs, rfl, hτ⟩

theorem answer_lam_ok {ps : List Binding} {b : Term} :
    answer Γ (.lam s ps b) want = .ok w ↔
      ps ≠ [] ∧ ∃ b', answer (Γ.extendAll ps) b (bodyWant ps want) = .ok b' ∧
        w = abstract s ps b' ∧ ∀ σ ∈ want, w.ty = σ := by
  cases ps with
  | nil => simp [answer_lam_nil]
  | cons p ps =>
    simp only [answer_lam_cons, bind_ok, Witness.meets_eq_ok_iff]
    constructor
    · rintro ⟨b', hb, rfl, hτ⟩
      exact ⟨by simp, b', hb, rfl, hτ⟩
    · rintro ⟨-, b', hb, rfl, hτ⟩
      exact ⟨b', hb, rfl, hτ⟩

theorem operandAnswers_ok {xs : List Term} {σ τ : Ty} {ws : List Witness} :
    operandAnswers Γ place xs σ = .ok (τ, ws) ↔
      σ = .curried (ws.map Witness.ty) τ ∧
        List.Forall₂ (fun x w => answer Γ x (some w.ty) = .ok w) xs ws := by
  induction xs generalizing σ ws with
  | nil =>
    rw [operandAnswers_nil, List.forall₂_nil_left_iff]
    constructor
    · rintro ⟨⟩
      exact ⟨rfl, rfl⟩
    · rintro ⟨rfl, rfl⟩
      rfl
  | cons x xs ih =>
    cases σ with
    | base name =>
      rw [operandAnswers_cons_base]
      constructor
      · rintro ⟨⟩
      · rintro ⟨hσ, hxs⟩
        cases hxs
        cases hσ
    | arrow argument result =>
      rw [operandAnswers_cons_arrow]
      simp only [bind_ok]
      constructor
      · rintro ⟨w, hw, ⟨τ', ws'⟩, hws, ⟨⟩⟩
        obtain ⟨rfl, hxs⟩ := ih.mp hws
        obtain rfl := ty_of_answer hw
        exact ⟨rfl, .cons hw hxs⟩
      · rintro ⟨hσ, hxs⟩
        obtain - | ⟨hw, hxs⟩ := hxs
        obtain ⟨rfl, rfl⟩ := Ty.arrow.inj hσ
        exact ⟨_, hw, (τ, _), ih.mpr ⟨rfl, hxs⟩, rfl⟩

/-- Operands are refused at the first one that finds no arrow, or that fails against
the argument of the arrow it finds. -/
theorem operandAnswers_error {xs : List Term} {σ : Ty} {fault : Fault}
    (h : operandAnswers Γ place xs σ = .error fault) :
    ∃ before x after τ ws, xs = before ++ x :: after ∧
      operandAnswers Γ place before σ = .ok (τ, ws) ∧
      ((τ.isArrow = false ∧ fault = ⟨.notAFunction τ, place⟩) ∨
        ∃ argument result, τ = .arrow argument result ∧
          answer Γ x (some argument) = .error fault) := by
  induction xs generalizing σ with
  | nil => simp [operandAnswers_nil] at h
  | cons x xs ih =>
    cases σ with
    | base name =>
      rw [operandAnswers_cons_base] at h
      cases h
      exact ⟨[], x, xs, .base name, [], rfl, rfl, .inl ⟨rfl, rfl⟩⟩
    | arrow argument result =>
      rw [operandAnswers_cons_arrow] at h
      simp only [bind_error] at h
      obtain hx | ⟨w, hw, hxs | ⟨_, _, ⟨⟩⟩⟩ := h
      · exact ⟨[], x, xs, .arrow argument result, [], rfl, rfl, .inr ⟨argument, result, rfl, hx⟩⟩
      · obtain ⟨before, y, after, τ, ws, rfl, hbefore, hfault⟩ := ih hxs
        refine ⟨x :: before, y, after, τ, w :: ws, rfl, ?_, hfault⟩
        obtain ⟨rfl, hws⟩ := operandAnswers_ok.mp hbefore
        obtain rfl := ty_of_answer hw
        exact operandAnswers_ok.mpr ⟨rfl, .cons hw hws⟩

theorem span_of_answer {t : Term} (h : answer Γ t want = .ok w) : w.span = t.span := by
  cases t with
  | var s x =>
    obtain ⟨τ, _, rfl, _⟩ := answer_var_ok.mp h
    rfl
  | cond s c a b =>
    obtain ⟨c', a', b', _, _, _, rfl⟩ := answer_cond_ok.mp h
    rfl
  | app s f xs =>
    obtain ⟨f', τ, ws, _, _, rfl, _⟩ := answer_app_ok.mp h
    rfl
  | lam s ps b =>
    obtain ⟨_, b', _, rfl, _⟩ := answer_lam_ok.mp h
    rfl

end

-- ---------------------------------------------------------------------------
-- The type that is wanted of a body
-- ---------------------------------------------------------------------------

theorem bodyWant_eq_some_iff {ps : List Binding} {want : Option Ty} {τ : Ty} :
    bodyWant ps want = some τ ↔ want = some (.curried (ps.map Binding.ty) τ) := by
  induction ps generalizing want with
  | nil => rfl
  | cons p ps ih =>
    match want with
    | none => simp [bodyWant]
    | some (.base name) => simp [bodyWant]
    | some (.arrow argument result) =>
      rw [bodyWant, ih]
      by_cases h : argument = p.ty <;> simp [h]

end Check

end TypedClosures
