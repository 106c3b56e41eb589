import TypedClosures.Check.MachineLaws
import TypedClosures.Proofs.Parameters

/-!
# Only free names matter

Of its scope a check sees the types of the names that occur free in the term, and nothing
else. In two scopes that agree on these a term has the same run: the same events, and the
same witness or the same fault (`elaborate_agreeOn`). Entries for other names may be
added, removed, moved or shadowed.
-/

namespace TypedClosures

namespace Term

mutual

def occurrences : Term → List Name
  | .var _ x => [x]
  | .cond _ c a b => c.occurrences ++ a.occurrences ++ b.occurrences
  | .app _ f xs => f.occurrences ++ occurrencesList xs
  | .lam _ ps b => b.occurrences.filter (· ∉ ps.map Binding.name)

def occurrencesList : List Term → List Name
  | [] => []
  | t :: ts => t.occurrences ++ occurrencesList ts

end

end Term

namespace Scope

/-- Each of the names is unbound in both scopes, or it has the same type in both. -/
def AgreeOn (names : List Name) (Γ Δ : Scope) : Prop := ∀ x ∈ names, Γ.find? x = Δ.find? x

instance (names : List Name) (Γ Δ : Scope) : Decidable (AgreeOn names Γ Δ) :=
  inferInstanceAs (Decidable (∀ x ∈ names, Γ.find? x = Δ.find? x))

section
variable {Γ Δ : Scope}

theorem agreeOn_append {xs ys : List Name} :
    AgreeOn (xs ++ ys) Γ Δ ↔ AgreeOn xs Γ Δ ∧ AgreeOn ys Γ Δ :=
  List.forall_mem_append

theorem AgreeOn.extendAll {names : List Name} {ps : List Binding}
    (h : AgreeOn (names.filter (· ∉ ps.map Binding.name)) Γ Δ) :
    AgreeOn names (Γ.extendAll ps) (Δ.extendAll ps) := by
  intro x hx
  by_cases hps : x ∈ ps.map Binding.name
  · rw [find?_extendAll_of_mem Γ hps, find?_extendAll_of_mem Δ hps]
  · rw [find?_extendAll_of_not_mem Γ hps, find?_extendAll_of_not_mem Δ hps]
    exact h x (List.mem_filter.mpr ⟨hx, decide_eq_true hps⟩)

end

end Scope

namespace Check

def ReadsFree (t : Term) : Prop :=
  ∀ Γ Δ want, Scope.AgreeOn t.occurrences Γ Δ → derive Γ t want = derive Δ t want

theorem readsFree_var (s : Span) (x : Name) : ReadsFree (.var s x) := by
  intro Γ Δ want h
  have hx : Γ.find? x = Δ.find? x := h x (List.mem_singleton_self x)
  have hvar : variableAt Γ s x = variableAt Δ s x := by
    rw [variableAt_eq, variableAt_eq, hx]
  rw [derive, derive, rule_var, rule_var, hvar]

theorem readsFree_cond (s : Span) {c a b : Term} (hc : ReadsFree c) (ha : ReadsFree a)
    (hb : ReadsFree b) : ReadsFree (.cond s c a b) := by
  intro Γ Δ want h
  obtain ⟨hca, hb'⟩ := Scope.agreeOn_append.mp h
  obtain ⟨hc', ha'⟩ := Scope.agreeOn_append.mp hca
  rw [derive, derive, rule_cond, rule_cond, hc Γ Δ _ hc', ha Γ Δ _ ha']
  simp only [hb Γ Δ _ hb']

theorem readsFree_operands {xs : List Term} (hxs : ∀ x ∈ xs, ReadsFree x) {Γ Δ : Scope}
    (h : Scope.AgreeOn (Term.occurrencesList xs) Γ Δ) (place : Span) (τ : Ty) :
    operands Γ place xs τ = operands Δ place xs τ := by
  induction xs generalizing τ with
  | nil => rw [operands_nil, operands_nil]
  | cons x xs ih =>
    obtain ⟨hx, hrest⟩ := Scope.agreeOn_append.mp h
    cases τ with
    | base name => rfl
    | arrow argument result =>
      rw [operands_cons_arrow, operands_cons_arrow, hxs x List.mem_cons_self Γ Δ _ hx,
        ih (fun y hy => hxs y (List.mem_cons_of_mem x hy)) hrest]

theorem readsFree_app (s : Span) {f : Term} {xs : List Term} (hf : ReadsFree f)
    (hxs : ∀ x ∈ xs, ReadsFree x) : ReadsFree (.app s f xs) := by
  intro Γ Δ want h
  obtain ⟨hf', hxs'⟩ := Scope.agreeOn_append.mp h
  rw [derive, derive, rule_app, rule_app, hf Γ Δ _ hf']
  simp only [readsFree_operands hxs hxs']

theorem readsFree_lam (s : Span) (ps : List Binding) {b : Term} (hb : ReadsFree b) :
    ReadsFree (.lam s ps b) := by
  intro Γ Δ want h
  cases ps with
  | nil => rfl
  | cons p ps =>
    have hinner := Scope.AgreeOn.extendAll h
    rw [derive, derive, rule_lam_cons, rule_lam_cons, hb _ _ _ hinner]

theorem readsFree (t : Term) : ReadsFree t := by
  induction t using Term.induct with
  | var s x => exact readsFree_var s x
  | cond s c a b hc ha hb => exact readsFree_cond s hc ha hb
  | app s f xs hf hxs => exact readsFree_app s hf hxs
  | lam s ps b hb => exact readsFree_lam s ps hb

/-- Scopes that agree on the free names of a term give it the same run. -/
theorem elaborate_agreeOn {Γ Δ : Scope} {t : Term} (h : Scope.AgreeOn t.occurrences Γ Δ)
    (want : Option Ty) : elaborate Γ t want = elaborate Δ t want := by
  rw [elaborate_eq_derive, elaborate_eq_derive, readsFree t Γ Δ want h]

/-- The scopes differ in the type of `x`, which a lambda binds, and one of them has an
entry more, shadowed by another. The term has a fault, at `y`. -/
theorem elaborate_agreeOn_shadowing :
    let Γ : Scope := [⟨"x", .bool⟩, ⟨"f", .arrow (.base "Int") .bool⟩]
    let Δ : Scope := [⟨"f", .arrow (.base "Int") .bool⟩, ⟨"x", .base "Int"⟩, ⟨"f", .bool⟩]
    let t : Term := .lam ⟨0, 9⟩ [⟨"x", .base "Int"⟩] (.cond ⟨1, 8⟩
      (.app ⟨2, 5⟩ (.var ⟨2, 3⟩ "f") [.var ⟨4, 5⟩ "x"]) (.var ⟨6, 7⟩ "y") (.var ⟨7, 8⟩ "x"))
    Γ.find? "x" ≠ Δ.find? "x" ∧ Scope.AgreeOn t.occurrences Γ Δ ∧
      elaborate Γ t none = elaborate Δ t none ∧
      (elaborate Γ t none).outcome = .error ⟨.unknownVariable "y", ⟨6, 7⟩⟩ := by
  intro Γ Δ t
  have h : Scope.AgreeOn t.occurrences Γ Δ := by decide +kernel
  refine ⟨by decide, h, elaborate_agreeOn h none, ?_⟩
  rw [elaborate_eq_derive]
  rfl

end Check

end TypedClosures
