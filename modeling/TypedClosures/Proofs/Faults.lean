import TypedClosures.Proofs.Blame

/-!
# Faults are true

A fault is about one node of the term. `Occurs` finds that node together with its
scope and with the type that its place demands, which is said by the typing rules and
not by what the checker passes down. `Fault.TrueOf` is what a fault says of its node.
Whatever a check reports is true of some node of the term (`elaborate_fault_true`).
-/

namespace TypedClosures

/-- `Occurs Δ s demand Γ t want`: the node `s` stands in `t`, where its scope is `Δ` if
that of `t` is `Γ`, and its place demands the type `demand` if that of `t` demands
`want`. A place may demand nothing. -/
inductive Occurs (Δ : Scope) (s : Term) (demand : Option Ty) : Scope → Term → Option Ty → Prop
  | here : Occurs Δ s demand Δ s demand
  | test {Γ : Scope} {span : Span} {c a b : Term} {want : Option Ty} :
      Occurs Δ s demand Γ c (some .bool) → Occurs Δ s demand Γ (.cond span c a b) want
  | yes {Γ : Scope} {span : Span} {c a b : Term} {want : Option Ty} :
      Occurs Δ s demand Γ a want → Occurs Δ s demand Γ (.cond span c a b) want
  | no {Γ : Scope} {span : Span} {c a b : Term} {want : Option Ty} {τ : Ty} :
      HasType Γ a τ → Occurs Δ s demand Γ b (some τ) →
      Occurs Δ s demand Γ (.cond span c a b) want
  | operator {Γ : Scope} {span : Span} {f : Term} {xs : List Term} {want : Option Ty} :
      Occurs Δ s demand Γ f none → Occurs Δ s demand Γ (.app span f xs) want
  | operand {Γ : Scope} {span : Span} {f x : Term} {before after : List Term}
      {want : Option Ty} {σs : List Ty} {argument result : Ty} :
      HasType Γ f (.curried σs (.arrow argument result)) → before.length = σs.length →
      Occurs Δ s demand Γ x (some argument) →
      Occurs Δ s demand Γ (.app span f (before ++ x :: after)) want
  | body {Γ : Scope} {span : Span} {ps : List Binding} {b : Term} {want : Option Ty} :
      Occurs Δ s demand (Γ.extendAll ps) b
        (want.bind (Ty.resultAfter? (ps.map Binding.ty))) →
      Occurs Δ s demand Γ (.lam span ps b) want

/-- What a fault says of the node it is about, which stands in the scope `Δ` at a place
that demands `demand`. An operator is at fault when it has used up its arrows on some
of the operands and there is one more. -/
inductive Fault.TrueOf (Δ : Scope) : Term → Option Ty → Fault → Prop
  | unknownVariable {span : Span} {x : Name} {demand : Option Ty} :
      (∀ b ∈ Δ, b.name ≠ x) → TrueOf Δ (.var span x) demand ⟨.unknownVariable x, span⟩
  | typeMismatch {s : Term} {w : Witness} {τ : Ty} :
      Check.infer Δ s = .ok w → w.ty ≠ τ →
      TrueOf Δ s (some τ) ⟨.typeMismatch w.ty τ, s.span⟩
  | notAFunction {span : Span} {f x : Term} {before after : List Term} {w : Witness}
      {demand : Option Ty} :
      Check.infer Δ (.app span f before) = .ok w → w.ty.isArrow = false →
      TrueOf Δ (.app span f (before ++ x :: after)) demand ⟨.notAFunction w.ty, f.span⟩
  | nullaryLambda {span : Span} {b : Term} {demand : Option Ty} :
      TrueOf Δ (.lam span [] b) demand ⟨.nullaryLambda, span⟩

namespace Check

theorem bodyWant_eq_bind (ps : List Binding) (want : Option Ty) :
    bodyWant ps want = want.bind (Ty.resultAfter? (ps.map Binding.ty)) := by
  apply Option.ext
  intro τ
  simp [bodyWant_eq_some_iff, Option.bind_eq_some_iff, Ty.resultAfter?_eq_some_iff]

def Truthful (t : Term) : Prop :=
  ∀ Γ want fault, answer Γ t want = .error fault →
    ∃ Δ s demand, Occurs Δ s demand Γ t want ∧ fault.TrueOf Δ s demand

-- ---------------------------------------------------------------------------
-- The node itself is at fault
-- ---------------------------------------------------------------------------

section
variable {Γ : Scope} {t : Term} {w : Witness} {want : Option Ty} {fault : Fault}

theorem trueOf_of_meets (ht : Elaborates Γ t w) (h : w.meets want = .error fault) :
    fault.TrueOf Γ t want := by
  have hinfer : infer Γ t = .ok w := answer_of_elaborates ht none (by simp)
  obtain ⟨τ, rfl, hne, rfl⟩ := Witness.meets_eq_error_iff.mp h
  rw [span_of_answer hinfer]
  exact .typeMismatch hinfer hne

theorem trueOf_of_variableAt {s : Span} {x : Name} (h : variableAt Γ s x = .error fault) :
    fault.TrueOf Γ (.var s x) want := by
  cases hx : Γ.find? x with
  | none =>
    simp only [variableAt_eq, hx] at h
    cases h
    exact .unknownVariable (Scope.find?_eq_none_iff.mp hx)
  | some τ => simp [variableAt_ok.mpr ⟨τ, hx, rfl⟩] at h

end

-- ---------------------------------------------------------------------------
-- One kind of node after the other
-- ---------------------------------------------------------------------------

theorem truthful_var (s : Span) (x : Name) : Truthful (.var s x) := by
  intro Γ want fault h
  simp only [answer_var, bind_error] at h
  obtain hx | ⟨w, hw, hmeets⟩ := h
  · exact ⟨Γ, _, want, .here, trueOf_of_variableAt hx⟩
  · obtain ⟨τ, hx, rfl⟩ := variableAt_ok.mp hw
    exact ⟨Γ, _, want, .here, trueOf_of_meets (.var (Scope.find?_eq_some_iff.mp hx)) hmeets⟩

theorem truthful_cond (s : Span) {c a b : Term} (hc : Truthful c) (ha : Truthful a)
    (hb : Truthful b) : Truthful (.cond s c a b) := by
  intro Γ want fault h
  simp only [answer_cond, bind_error] at h
  obtain h | ⟨c', -, h | ⟨a', ha', h | ⟨b', -, ⟨⟩⟩⟩⟩ := h
  · obtain ⟨Δ, t, demand, ht, hfault⟩ := hc Γ _ fault h
    exact ⟨Δ, t, demand, .test ht, hfault⟩
  · obtain ⟨Δ, t, demand, ht, hfault⟩ := ha Γ _ fault h
    exact ⟨Δ, t, demand, .yes ht, hfault⟩
  · obtain ⟨Δ, t, demand, ht, hfault⟩ := hb Γ _ fault h
    exact ⟨Δ, t, demand, .no (elaborates_of_answer ha').hasType ht, hfault⟩

/-- An operand is looked at after those before it were accepted, so what it is checked
against is the argument at its own position. -/
theorem truthful_operands (s : Span) {Γ : Scope} {f : Term} {xs : List Term}
    {want : Option Ty} {fault : Fault} {f' : Witness} (hf : answer Γ f none = .ok f')
    (hxs : ∀ x ∈ xs, Truthful x) (h : operandAnswers Γ f'.span xs f'.ty = .error fault) :
    ∃ Δ t demand, Occurs Δ t demand Γ (.app s f xs) want ∧ fault.TrueOf Δ t demand := by
  obtain ⟨before, x, after, τ, ws, rfl, hbefore, hfault⟩ := operandAnswers_error h
  obtain ⟨hbase, rfl⟩ | ⟨argument, result, rfl, hx⟩ := hfault
  · have happ : infer Γ (.app s f before) = .ok (.app s τ f' ws) :=
      answer_app_ok.mpr ⟨f', τ, ws, hf, hbefore, rfl, by simp⟩
    rw [span_of_answer hf]
    exact ⟨Γ, _, want, .here, .notAFunction happ hbase⟩
  · obtain ⟨hτ, hws⟩ := operandAnswers_ok.mp hbefore
    have hft := (elaborates_of_answer hf).hasType
    rw [hτ] at hft
    obtain ⟨Δ, t, demand, ht, hfault⟩ := hxs x (by simp) Γ _ fault hx
    exact ⟨Δ, t, demand, .operand hft (by simpa using hws.length_eq) ht, hfault⟩

theorem truthful_app (s : Span) {f : Term} {xs : List Term} (hf : Truthful f)
    (hxs : ∀ x ∈ xs, Truthful x) : Truthful (.app s f xs) := by
  intro Γ want fault h
  simp only [answer_app, bind_error] at h
  obtain h | ⟨f', hf', h | ⟨⟨τ, ws⟩, hws, hmeets⟩⟩ := h
  · obtain ⟨Δ, t, demand, ht, hfault⟩ := hf Γ _ fault h
    exact ⟨Δ, t, demand, .operator ht, hfault⟩
  · exact truthful_operands s hf' hxs h
  · have happ : answer Γ (.app s f xs) none = .ok (.app s τ f' ws) :=
      answer_app_ok.mpr ⟨f', τ, ws, hf', hws, rfl, by simp⟩
    exact ⟨Γ, _, want, .here, trueOf_of_meets (elaborates_of_answer happ) hmeets⟩

theorem truthful_lam (s : Span) (ps : List Binding) {b : Term} (hb : Truthful b) :
    Truthful (.lam s ps b) := by
  intro Γ want fault h
  cases ps with
  | nil =>
    rw [answer_lam_nil] at h
    cases h
    exact ⟨Γ, _, want, .here, .nullaryLambda⟩
  | cons p ps =>
    simp only [answer_lam_cons, bind_error] at h
    obtain h | ⟨b', hb', hmeets⟩ := h
    · obtain ⟨Δ, t, demand, ht, hfault⟩ := hb _ _ fault h
      rw [bodyWant_eq_bind] at ht
      exact ⟨Δ, t, demand, .body ht, hfault⟩
    · have hlam : Elaborates Γ (.lam s (p :: ps) b) (abstract s (p :: ps) b') :=
        .lam (by simp) (elaborates_of_answer hb')
      exact ⟨Γ, _, want, .here, trueOf_of_meets hlam hmeets⟩

theorem truthful (t : Term) : Truthful t := by
  induction t using Term.induct with
  | var s x => exact truthful_var s x
  | cond s c a b hc ha hb => exact truthful_cond s hc ha hb
  | app s f xs hf hxs => exact truthful_app s hf hxs
  | lam s ps b hb => exact truthful_lam s ps hb

/-- If a check fails, what it reports is true of a node of the term. -/
theorem elaborate_fault_true {Γ : Scope} {t : Term} {want : Option Ty} {fault : Fault}
    (h : (elaborate Γ t want).outcome = .error fault) :
    ∃ Δ s demand, Occurs Δ s demand Γ t want ∧ fault.TrueOf Δ s demand :=
  truthful t Γ want fault h

theorem elaborate_fault_true_branch :
    let Γ : Scope := [⟨"b", .bool⟩]
    let t : Term := .lam ⟨0, 9⟩ [⟨"y", .base "Int"⟩]
      (.cond ⟨1, 8⟩ (.var ⟨2, 3⟩ "b") (.var ⟨4, 5⟩ "y") (.var ⟨6, 7⟩ "b"))
    let want : Option Ty := some (.arrow (.base "Int") .bool)
    let fault : Fault := ⟨.typeMismatch (.base "Int") .bool, ⟨4, 5⟩⟩
    (elaborate Γ t want).outcome = .error fault ∧
      ∃ Δ s demand, Occurs Δ s demand Γ t want ∧ fault.TrueOf Δ s demand := by
  intro Γ t want fault
  have hfault : (elaborate Γ t want).outcome = .error fault := by
    rw [elaborate_eq_derive]
    rfl
  exact ⟨hfault, elaborate_fault_true hfault⟩

end Check

end TypedClosures
