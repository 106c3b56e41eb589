import TypedClosures.Proofs.Typing

/-!
# Operands and parameters all at once or one part after the other

An application to some operands and then to some more has the answer of the application
to all of them: the same type with the same witnesses, or the same fault. The one thing
that tells the two apart is where an operator stands that has run out of arrows: its
fault is placed at the operator, and an application can be an operator itself
(`elaborate_app_append`).

In the same way a lambda whose body is a lambda has the answer of one lambda with the
parameters of both (`elaborate_lam_append`). A wanted type tells them apart only if it
fits the outer parameters and not the inner ones (`PartsWays`): then it gets as far as the
inner lambda, and it is there that it is found to be wrong.
-/

namespace TypedClosures

theorem Witness.meets_both {v w : Witness} (hty : v.ty = w.ty) (hspan : v.span = w.span)
    (want : Option Ty) :
    (v.meets want = .ok v ∧ w.meets want = .ok w) ∨
      ∃ fault, v.meets want = .error fault ∧ w.meets want = .error fault := by
  cases want with
  | none => exact .inl ⟨rfl, rfl⟩
  | some τ =>
    simp only [meets, hty, hspan]
    by_cases h : w.ty = τ
    · simp [h]
    · simp [h]

namespace Check

theorem operandAnswers_place {Γ : Scope} (place place' : Span) (xs : List Term) (τ : Ty) :
    operandAnswers Γ place xs τ = operandAnswers Γ place' xs τ ∨
      ∃ before x after ρ ws, xs = before ++ x :: after ∧ ρ.isArrow = false ∧
        operandAnswers Γ place before τ = .ok (ρ, ws) ∧
        operandAnswers Γ place xs τ = .error ⟨.notAFunction ρ, place⟩ ∧
        operandAnswers Γ place' xs τ = .error ⟨.notAFunction ρ, place'⟩ := by
  induction xs generalizing τ with
  | nil => exact .inl (by rw [operandAnswers_nil, operandAnswers_nil])
  | cons x xs ih =>
    cases τ with
    | base name =>
      exact .inr ⟨[], x, xs, .base name, [], rfl, rfl, operandAnswers_nil place _, rfl, rfl⟩
    | arrow argument result =>
      rw [operandAnswers_cons_arrow, operandAnswers_cons_arrow]
      rcases hx : answer Γ x (some argument) with fault | w
      · exact .inl rfl
      obtain heq | ⟨before, y, after, ρ, ws, rfl, hρ, hbefore, hplace, hplace'⟩ := ih result
      · rw [heq]
        exact .inl rfl
      · refine .inr ⟨x :: before, y, after, ρ, w :: ws, rfl, hρ, ?_, ?_, ?_⟩
        · rw [operandAnswers_cons_arrow, hx, ok_then, hbefore]
          rfl
        · rw [hplace]
          rfl
        · rw [hplace']
          rfl

/-- Two applications, of which the second has the first operands in an application of
its own. Either both have a witness, of one type and with the same witnesses for the
operands; or they have the same fault; or it is one of the later operands that finds no
arrow, and each names the span of its operator. -/
theorem elaborate_app_append (Γ : Scope) (want : Option Ty) (s inner : Span) (f : Term)
    (xs ys : List Term) :
    let whole := (elaborate Γ (.app s f (xs ++ ys)) want).outcome
    let nested := (elaborate Γ (.app s (.app inner f xs) ys) want).outcome
    (∃ τ σ f' vs ws, whole = .ok (.app s τ f' (vs ++ ws)) ∧
      nested = .ok (.app s τ (.app inner σ f' vs) ws)) ∨
    (∃ fault, whole = .error fault ∧ nested = .error fault) ∨
    ∃ before y after w, ys = before ++ y :: after ∧
      infer Γ (.app s f (xs ++ before)) = .ok w ∧ w.ty.isArrow = false ∧
      whole = .error ⟨.notAFunction w.ty, f.span⟩ ∧
      nested = .error ⟨.notAFunction w.ty, inner⟩ := by
  intro whole nested
  have hwhole : whole = (do
      let f' ← answer Γ f none
      let r ← operandAnswers Γ f'.span (xs ++ ys) f'.ty
      (Witness.app s r.1 f' r.2).meets want) := answer_app f (xs ++ ys)
  have hnested : nested = (do
      let g ← answer Γ (.app inner f xs) none
      let r ← operandAnswers Γ g.span ys g.ty
      (Witness.app s r.1 g r.2).meets want) := answer_app _ ys
  rw [answer_app] at hnested
  rcases hf : answer Γ f none with fault | f'
  · rw [hf] at hwhole hnested
    exact .inr (.inl ⟨fault, hwhole, hnested⟩)
  have hspan := span_of_answer hf
  rw [hf, ok_then, operandAnswers_append, hspan] at hwhole
  rw [hf, ok_then, hspan] at hnested
  rcases hxs : operandAnswers Γ f.span xs f'.ty with fault | ⟨σ, vs⟩
  · rw [hxs] at hwhole hnested
    exact .inr (.inl ⟨fault, hwhole, hnested⟩)
  rw [hxs, ok_then] at hwhole hnested
  rw [Witness.meets_none, ok_then] at hnested
  simp only [Witness.span, Witness.ty] at hwhole hnested
  obtain hys | ⟨before, y, after, ρ, ws, rfl, hρ, hbefore, hplace, hplace'⟩ :=
    operandAnswers_place (Γ := Γ) f.span inner ys σ
  · rw [← hys] at hnested
    rcases hr : operandAnswers Γ f.span ys σ with fault | ⟨τ, ws⟩
    · rw [hr] at hwhole hnested
      exact .inr (.inl ⟨fault, hwhole, hnested⟩)
    rw [hr] at hwhole hnested
    obtain ⟨hw, hn⟩ | ⟨fault, hw, hn⟩ := Witness.meets_both
      (v := .app s τ f' (vs ++ ws)) (w := .app s τ (.app inner σ f' vs) ws) rfl rfl want
    · exact .inl ⟨τ, σ, f', vs, ws, hwhole.trans hw, hnested.trans hn⟩
    · exact .inr (.inl ⟨fault, hwhole.trans hw, hnested.trans hn⟩)
  · rw [hplace] at hwhole
    rw [hplace'] at hnested
    have happ : infer Γ (.app s f (xs ++ before)) = .ok (.app s ρ f' (vs ++ ws)) := by
      refine answer_app_ok.mpr ⟨f', ρ, vs ++ ws, hf, ?_, rfl, by simp⟩
      rw [hspan, operandAnswers_append, hxs, ok_then, hbefore]
      rfl
    exact .inr (.inr ⟨before, y, after, _, rfl, happ, hρ, hwhole, hnested⟩)

-- ---------------------------------------------------------------------------
-- Parameters
-- ---------------------------------------------------------------------------

section
variable {Γ : Scope} {s inner : Span} {ps qs : List Binding} {b : Term} {want : Option Ty}

theorem bodyWant_append (ps qs : List Binding) (want : Option Ty) :
    bodyWant (ps ++ qs) want = bodyWant qs (bodyWant ps want) := by
  apply Option.ext
  intro τ
  rw [bodyWant_eq_some_iff, bodyWant_eq_some_iff, bodyWant_eq_some_iff, List.map_append,
    Ty.curried_append]

theorem answer_lam_append (hps : ps ≠ []) :
    answer Γ (.lam s (ps ++ qs) b) want = (do
      let b ← answer (Γ.extendAll (ps ++ qs)) b (bodyWant qs (bodyWant ps want))
      (abstract s (ps ++ qs) b).meets want) := by
  rw [answer_lam (List.append_ne_nil_of_left_ne_nil hps qs), bodyWant_append]

theorem answer_lam_lam (hps : ps ≠ []) (hqs : qs ≠ []) :
    answer Γ (.lam s ps (.lam inner qs b)) want = (do
      let b ← answer (Γ.extendAll (ps ++ qs)) b (bodyWant qs (bodyWant ps want))
      let l ← (abstract inner qs b).meets (bodyWant ps want)
      (abstract s ps l).meets want) := by
  rw [answer_lam hps, answer_lam hqs, Scope.extendAll_append]
  simp only [bind_assoc]

theorem abstract_abstract (s inner : Span) (ps qs : List Binding) (w : Witness) :
    abstract s ps (abstract inner qs w) =
      .lam s (.curried ((ps ++ qs).map Binding.ty) w.ty) (ps.map Binding.name)
        (abstract inner qs w) := by
  rw [List.map_append, Ty.curried_append]
  rfl

/-- The wanted type has the outer parameters' types as its first arguments, and `τ` is
what comes after them; but it does not go on with those of the inner parameters. -/
def PartsWays (ps qs : List Binding) (want : Option Ty) (τ : Ty) : Prop :=
  want = some (.curried (ps.map Binding.ty) τ) ∧ ∀ ρ, τ ≠ .curried (qs.map Binding.ty) ρ

theorem PartsWays.bodyWant_eq {τ : Ty} (h : PartsWays ps qs want τ) :
    bodyWant ps want = some τ ∧ bodyWant qs (some τ) = none := by
  obtain ⟨rfl, hτ⟩ := h
  refine ⟨bodyWant_eq_some_iff.mpr rfl, Option.eq_none_iff_forall_ne_some.mpr ?_⟩
  intro ρ hρ
  exact hτ ρ (Option.some.inj (bodyWant_eq_some_iff.mp hρ))

theorem partsWays_of_meets {w : Witness} {fault : Fault}
    (hw : answer Γ b (bodyWant qs (bodyWant ps want)) = .ok w)
    (hfault : (abstract inner qs w).meets (bodyWant ps want) = .error fault) :
    ∃ τ, PartsWays ps qs want τ := by
  obtain ⟨τ, hτ, hne, -⟩ := Witness.meets_eq_error_iff.mp hfault
  refine ⟨τ, bodyWant_eq_some_iff.mp hτ, ?_⟩
  rintro ρ rfl
  rw [hτ, bodyWant_eq_some_iff.mpr rfl] at hw
  exact hne (by rw [abstract, Witness.ty, ty_of_answer hw])

theorem answers_of_partsWays (hps : ps ≠ []) (hqs : qs ≠ []) {τ : Ty} {w : Witness}
    (h : PartsWays ps qs want τ) (hw : answer (Γ.extendAll (ps ++ qs)) b none = .ok w) :
    answer Γ (.lam s (ps ++ qs) b) want =
        .error ⟨.typeMismatch (.curried ((ps ++ qs).map Binding.ty) w.ty)
          (.curried (ps.map Binding.ty) τ), s⟩ ∧
      answer Γ (.lam s ps (.lam inner qs b)) want =
        .error ⟨.typeMismatch (.curried (qs.map Binding.ty) w.ty) τ, inner⟩ := by
  obtain ⟨hwant, hnone⟩ := h.bodyWant_eq
  have hne : (abstract inner qs w).ty ≠ τ := fun hτ => h.2 w.ty hτ.symm
  rw [answer_lam_append hps, answer_lam_lam hps hqs, hwant, hnone, hw, ok_then, ok_then]
  refine ⟨?_, ?_⟩
  · rw [h.1, Witness.meets_eq_error_iff]
    refine ⟨_, rfl, ?_, rfl⟩
    rw [abstract, Witness.ty, List.map_append, Ty.curried_append]
    exact fun hτ => hne (Ty.curried_right_inj.mp hτ)
  · rw [Witness.meets_eq_error_iff.mpr ⟨τ, rfl, hne, rfl⟩, error_then]
    rfl

theorem answers_of_not_partsWays (hps : ps ≠ []) (hqs : qs ≠ [])
    (h : ∀ τ w, PartsWays ps qs want τ → answer (Γ.extendAll (ps ++ qs)) b none ≠ .ok w) :
    (∃ w, answer Γ (.lam s (ps ++ qs) b) want = .ok (abstract s (ps ++ qs) w) ∧
      answer Γ (.lam s ps (.lam inner qs b)) want = .ok (abstract s ps (abstract inner qs w))) ∨
    ∃ fault, answer Γ (.lam s (ps ++ qs) b) want = .error fault ∧
      answer Γ (.lam s ps (.lam inner qs b)) want = .error fault := by
  rw [answer_lam_append hps, answer_lam_lam hps hqs]
  rcases hb : answer (Γ.extendAll (ps ++ qs)) b (bodyWant qs (bodyWant ps want)) with fault | w
  · exact .inr ⟨fault, rfl, rfl⟩
  rw [ok_then, ok_then]
  rcases hmeets : (abstract inner qs w).meets (bodyWant ps want) with fault | l
  · obtain ⟨τ, hparts⟩ := partsWays_of_meets hb hmeets
    obtain ⟨hwant, hnone⟩ := hparts.bodyWant_eq
    rw [hwant, hnone] at hb
    exact absurd hb (h τ w hparts)
  obtain ⟨rfl, -⟩ := Witness.meets_eq_ok_iff.mp hmeets
  have hty : (abstract s (ps ++ qs) w).ty = (abstract s ps (abstract inner qs w)).ty := by
    rw [abstract_abstract]
    rfl
  obtain ⟨hw, hn⟩ | ⟨fault, hw, hn⟩ := Witness.meets_both hty rfl want
  · exact .inl ⟨w, hw, hn⟩
  · exact .inr ⟨fault, hw, hn⟩

end

/-- Two lambdas, of which the second has the later parameters in a lambda of its own. If
the wanted type parts ways with the parameters and the body has a type, then the first
lambda is refused as a whole, and of the second the inner lambda, each for its own type.
Otherwise both have a witness, of one type and with the same witness for the body, or
they have the same fault. -/
theorem elaborate_lam_append {ps qs : List Binding} (hps : ps ≠ []) (hqs : qs ≠ [])
    (Γ : Scope) (want : Option Ty) (s inner : Span) (b : Term) :
    let whole := (elaborate Γ (.lam s (ps ++ qs) b) want).outcome
    let nested := (elaborate Γ (.lam s ps (.lam inner qs b)) want).outcome
    let body := infer (Γ.extendAll (ps ++ qs)) b
    (∀ τ w, PartsWays ps qs want τ → body = .ok w →
      whole = .error ⟨.typeMismatch (.curried ((ps ++ qs).map Binding.ty) w.ty)
        (.curried (ps.map Binding.ty) τ), s⟩ ∧
      nested = .error ⟨.typeMismatch (.curried (qs.map Binding.ty) w.ty) τ, inner⟩) ∧
    ((∀ τ w, PartsWays ps qs want τ → body ≠ .ok w) →
      (∃ τ σ w, whole = .ok (.lam s τ ((ps ++ qs).map Binding.name) w) ∧
        nested = .ok (.lam s τ (ps.map Binding.name) (.lam inner σ (qs.map Binding.name) w))) ∨
      ∃ fault, whole = .error fault ∧ nested = .error fault) := by
  intro whole nested body
  refine ⟨fun τ w hparts hbody => answers_of_partsWays hps hqs hparts hbody, ?_⟩
  intro hexcept
  obtain ⟨w, hw, hn⟩ | hfault := answers_of_not_partsWays hps hqs hexcept
  · rw [abstract_abstract] at hn
    exact .inl ⟨_, _, w, hw, hn⟩
  · exact .inr hfault

/-- The wanted type has the first annotation and not the second. The name `x` is bound
by both lambdas, and the body sees the inner one. -/
theorem elaborate_lam_append_shadowing :
    let ps : List Binding := [⟨"x", .bool⟩]
    let qs : List Binding := [⟨"x", .base "Int"⟩]
    let b : Term := .var ⟨7, 8⟩ "x"
    let want : Option Ty := some (.arrow .bool (.arrow .bool .bool))
    PartsWays ps qs want (.arrow .bool .bool) ∧
      infer (Scope.extendAll [] (ps ++ qs)) b = .ok (.var ⟨7, 8⟩ (.base "Int") "x") ∧
      (elaborate [] (.lam ⟨0, 8⟩ (ps ++ qs) b) want).outcome =
        .error ⟨.typeMismatch (.arrow .bool (.arrow (.base "Int") (.base "Int")))
          (.arrow .bool (.arrow .bool .bool)), ⟨0, 8⟩⟩ ∧
      (elaborate [] (.lam ⟨0, 8⟩ ps (.lam ⟨4, 8⟩ qs b)) want).outcome =
        .error ⟨.typeMismatch (.arrow (.base "Int") (.base "Int")) (.arrow .bool .bool), ⟨4, 8⟩⟩ ∧
      ∃ τ σ w, (elaborate [] (.lam ⟨0, 8⟩ (ps ++ qs) b) none).outcome =
          .ok (.lam ⟨0, 8⟩ τ ["x", "x"] w) ∧
        (elaborate [] (.lam ⟨0, 8⟩ ps (.lam ⟨4, 8⟩ qs b)) none).outcome =
          .ok (.lam ⟨0, 8⟩ τ ["x"] (.lam ⟨4, 8⟩ σ ["x"] w)) := by
  intro ps qs b want
  have hparts : PartsWays ps qs want (.arrow .bool .bool) := by
    refine ⟨rfl, fun ρ hρ => ?_⟩
    injection hρ with hρ
    exact absurd hρ (by decide)
  have hbody : infer (Scope.extendAll [] (ps ++ qs)) b = .ok (.var ⟨7, 8⟩ (.base "Int") "x") := by
    rw [infer_eq]
    rfl
  have hps : ps ≠ [] := List.cons_ne_nil _ _
  have hqs : qs ≠ [] := List.cons_ne_nil _ _
  obtain ⟨hrefused, -⟩ := elaborate_lam_append hps hqs [] want ⟨0, 8⟩ ⟨4, 8⟩ b
  obtain ⟨-, hagree⟩ := elaborate_lam_append hps hqs [] none ⟨0, 8⟩ ⟨4, 8⟩ b
  obtain ⟨hwhole, hnested⟩ := hrefused _ _ hparts hbody
  refine ⟨hparts, hbody, hwhole, hnested, ?_⟩
  obtain hok | ⟨fault, hwhole, -⟩ := hagree fun τ w h => by cases h.1
  · exact hok
  · rw [elaborate_eq_derive] at hwhole
    cases hwhole

end Check

end TypedClosures
