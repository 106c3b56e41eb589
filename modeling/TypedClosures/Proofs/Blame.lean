import TypedClosures.Proofs.Typing

/-!
# Where a wanted type collides

A wanted type does not change what is accepted, nor the witness. It can only
move the fault: the type is passed down through first branches and through
lambdas whose annotations agree with it, and `blame` follows it to the node
where it is compared with a type that was found. `check_of_infer` says what
checking does in terms of what inferring does.
-/

namespace TypedClosures

def Ty.resultAfter? : List Ty → Ty → Option Ty
  | [], τ => some τ
  | σ :: σs, .arrow argument result => if argument = σ then resultAfter? σs result else none
  | _ :: _, .base _ => none

theorem Ty.resultAfter?_eq_some_iff {σs : List Ty} {τ ρ : Ty} :
    Ty.resultAfter? σs τ = some ρ ↔ τ = .curried σs ρ := by
  induction σs generalizing τ with
  | nil => simp [Ty.resultAfter?]
  | cons σ σs ih =>
    cases τ with
    | base name => simp [Ty.resultAfter?]
    | arrow argument result =>
      rw [Ty.resultAfter?]
      by_cases h : argument = σ <;> simp [h, ih]

namespace Check

structure Demand where
  scope : Scope
  term : Term
  want : Ty

/-- Follows a wanted type down to the node that is compared with it. -/
def blame : Scope → Term → Ty → Demand
  | Γ, .cond _ _ a _, T => blame Γ a T
  | Γ, .lam s (p :: ps) b, T =>
    match Ty.resultAfter? ((p :: ps).map Binding.ty) T with
    | some R => blame (Γ.extendAll (p :: ps)) b R
    | none => ⟨Γ, .lam s (p :: ps) b, T⟩
  | Γ, t, T => ⟨Γ, t, T⟩

/-- The fault of a term that has a type, but not the one wanted of it. -/
def Demand.Collides (d : Demand) (fault : Fault) : Prop :=
  ∃ w, infer d.scope d.term = .ok w ∧ w.ty ≠ d.want ∧
    fault = ⟨.typeMismatch w.ty d.want, d.term.span⟩

-- ---------------------------------------------------------------------------
-- Nodes that are compared themselves
-- ---------------------------------------------------------------------------

section
variable {Γ : Scope} {t : Term} {T : Ty}

theorem answer_of_rule_eq (h : rule Γ t (some T) = rule Γ t none) :
    answer Γ t (some T) = answer Γ t none >>= (·.meets (some T)) := by
  rw [answer_eq, answer_eq, h, bind_assoc]
  rfl

theorem collides_of_rule_eq (h : rule Γ t (some T) = rule Γ t none) {w : Witness}
    (hw : answer Γ t none = .ok w) (hne : w.ty ≠ T) :
    ∃ fault, answer Γ t (some T) = .error fault ∧ Demand.Collides ⟨Γ, t, T⟩ fault := by
  refine ⟨⟨.typeMismatch w.ty T, t.span⟩, ?_, w, hw, hne, rfl⟩
  rw [answer_of_rule_eq h, hw, ok_then, Witness.meets, if_neg hne, span_of_answer hw]

theorem error_of_rule_eq (h : rule Γ t (some T) = rule Γ t none) {e : Fault}
    (he : answer Γ t none = .error e) : answer Γ t (some T) = .error e := by
  rw [answer_of_rule_eq h, he, error_then]

end

theorem rule_lam_eq {Γ : Scope} {s : Span} {p : Binding} {ps : List Binding} {b : Term} {T : Ty}
    (h : Ty.resultAfter? ((p :: ps).map Binding.ty) T = none) :
    rule Γ (.lam s (p :: ps) b) (some T) = rule Γ (.lam s (p :: ps) b) none := by
  have hbody : bodyWant (p :: ps) (some T) = none := by
    rw [Option.eq_none_iff_forall_ne_some]
    intro R hR
    obtain rfl := Option.some.inj (bodyWant_eq_some_iff.mp hR)
    rw [Ty.resultAfter?_eq_some_iff.mpr rfl] at h
    cases h
  rw [rule_lam_cons, rule_lam_cons, hbody, bodyWant_none]

-- ---------------------------------------------------------------------------
-- A type is found, but another one is wanted
-- ---------------------------------------------------------------------------

theorem collides_of_ty_ne {Γ : Scope} {t : Term} {T : Ty} {w : Witness}
    (hw : answer Γ t none = .ok w) (hne : w.ty ≠ T) :
    ∃ fault, answer Γ t (some T) = .error fault ∧ (blame Γ t T).Collides fault := by
  induction t using Term.induct generalizing Γ T w with
  | var s x => exact collides_of_rule_eq rfl hw hne
  | cond s c a b _ iha _ =>
    obtain ⟨c', a', b', hc, ha, -, rfl⟩ := answer_cond_ok.mp hw
    obtain ⟨fault, hfault, hcol⟩ := iha ha hne
    refine ⟨fault, ?_, hcol⟩
    rw [answer_cond, hc, ok_then, hfault, error_then]
  | app s f xs _ _ => exact collides_of_rule_eq rfl hw hne
  | lam s ps b ih =>
    obtain ⟨hps, b', hb, rfl, -⟩ := answer_lam_ok.mp hw
    obtain ⟨p, ps, rfl⟩ := List.exists_cons_of_ne_nil hps
    rw [bodyWant_none] at hb
    rw [blame]
    split
    · next R hR =>
      obtain rfl := Ty.resultAfter?_eq_some_iff.mp hR
      have hbR : b'.ty ≠ R := fun h => hne (Ty.curried_right_inj.mpr h)
      obtain ⟨fault, hfault, hcol⟩ := ih hb hbR
      refine ⟨fault, ?_, hcol⟩
      rw [answer_lam_cons, bodyWant_eq_some_iff.mpr rfl, hfault, error_then]
    · next hR => exact collides_of_rule_eq (rule_lam_eq hR) hw hne

-- ---------------------------------------------------------------------------
-- No type is found
-- ---------------------------------------------------------------------------

theorem error_or_collides {Γ : Scope} {t : Term} {T : Ty} {e : Fault}
    (he : answer Γ t none = .error e) :
    ∃ fault, answer Γ t (some T) = .error fault ∧
      (fault = e ∨ (blame Γ t T).Collides fault) := by
  induction t using Term.induct generalizing Γ T with
  | var s x => exact ⟨e, error_of_rule_eq rfl he, .inl rfl⟩
  | cond s c a b _ iha _ =>
    rw [answer_cond] at he ⊢
    rcases hc : answer Γ c (some .bool) with e' | c'
    · rw [hc, error_then] at he
      obtain rfl := Except.error.inj he
      exact ⟨e', rfl, .inl rfl⟩
    rw [hc, ok_then] at he
    rw [ok_then]
    rcases ha : answer Γ a none with e' | a'
    · rw [ha, error_then] at he
      obtain rfl := Except.error.inj he
      obtain ⟨fault, hfault, hcol⟩ := iha ha
      exact ⟨fault, by rw [hfault, error_then], hcol⟩
    rw [ha, ok_then] at he
    -- The fault is in the second branch, which is looked at only if the first
    -- one has the wanted type.
    by_cases hT : a'.ty = T
    · have haT : answer Γ a (some T) = .ok a' :=
        answer_of_elaborates (elaborates_of_answer ha) (some T) (by simp [hT])
      exact ⟨e, by rw [haT, ok_then, he], .inl rfl⟩
    · obtain ⟨fault, hfault, hcol⟩ := collides_of_ty_ne ha hT
      exact ⟨fault, by rw [hfault, error_then], .inr hcol⟩
  | app s f xs _ _ => exact ⟨e, error_of_rule_eq rfl he, .inl rfl⟩
  | lam s ps b ih =>
    cases ps with
    | nil => exact ⟨e, error_of_rule_eq rfl he, .inl rfl⟩
    | cons p ps =>
      rw [blame]
      split
      · next R hR =>
        obtain rfl := Ty.resultAfter?_eq_some_iff.mp hR
        have hb : answer (Γ.extendAll (p :: ps)) b none = .error e := by
          rw [answer_lam_cons, bodyWant_none] at he
          rcases hb : answer (Γ.extendAll (p :: ps)) b none with e' | b'
          · rw [hb, error_then] at he
            exact he
          · rw [hb, ok_then, Witness.meets_none] at he
            cases he
        obtain ⟨fault, hfault, hcol⟩ := ih hb
        refine ⟨fault, ?_, hcol⟩
        rw [answer_lam_cons, bodyWant_eq_some_iff.mpr rfl, hfault, error_then]
      · next hR => exact ⟨e, error_of_rule_eq (rule_lam_eq hR) he, .inl rfl⟩

/-- Checking against a type, in terms of inferring. The witness is the same;
a fault that inferring does not meet is at the node to blame. -/
theorem check_of_infer (Γ : Scope) (t : Term) (T : Ty) :
    (∀ w, infer Γ t = .ok w → w.ty = T → check Γ t T = .ok w) ∧
    (∀ w, infer Γ t = .ok w → w.ty ≠ T →
      ∃ fault, check Γ t T = .error fault ∧ (blame Γ t T).Collides fault) ∧
    (∀ e, infer Γ t = .error e →
      ∃ fault, check Γ t T = .error fault ∧ (fault = e ∨ (blame Γ t T).Collides fault)) := by
  refine ⟨?_, ?_, ?_⟩
  · intro w hw hT
    exact answer_of_elaborates (elaborates_of_answer hw) (some T) (by simp [hT])
  · intro w hw hT
    exact collides_of_ty_ne hw hT
  · intro e he
    exact error_or_collides he

end Check

end TypedClosures
