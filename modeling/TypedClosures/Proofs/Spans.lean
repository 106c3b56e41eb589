import TypedClosures.Proofs.Renaming

/-!
# Spans are passed on and never looked at

Terms that differ in spans alone are checked alike: both fail for the same cause, or
both have a witness, and the two witnesses and their code differ in spans alone. Spans
are those of the term, position by position; in particular the spans of the two faults
are those that the two terms have at one and the same position (`elaborate_alike`).
-/

namespace TypedClosures

theorem sameVariable_self {B : Binders} (hB : ∀ b ∈ B, b.1 = b.2) (x : Name) :
    SameVariable B x x := by
  induction B with
  | nil => exact .free
  | cons b B ih =>
    obtain ⟨ps, qs⟩ := b
    obtain rfl : ps = qs := hB (ps, qs) List.mem_cons_self
    by_cases hx : x ∈ ps
    · exact .bound (lastAt_lastIndexIn hx) (lastAt_lastIndexIn hx)
    · exact .outer hx hx (ih fun b hb => hB b (List.mem_cons_of_mem _ hb))

-- ---------------------------------------------------------------------------
-- Terms up to spans
-- ---------------------------------------------------------------------------

namespace Term

/-- Wherever both terms have a node, its two spans are related. -/
def SpansIn (same : Span → Span → Prop) (t u : Term) : Prop :=
  ∀ path s s', t.spanAt? path = some s → u.spanAt? path = some s' → same s s'

section
variable {same : Span → Span → Prop} {t u : Term}

theorem SpansIn.root (h : SpansIn same t u) : same t.span u.span := h [] _ _ rfl rfl

theorem SpansIn.part (h : SpansIn same t u) {x y : Term} {i : Nat} (hx : t.parts[i]? = some x)
    (hy : u.parts[i]? = some y) : SpansIn same x y := by
  intro path s s' hs hs'
  refine h (i :: path) s s' ?_ ?_
  · exact (spanAt?_cons hx path).trans hs
  · exact (spanAt?_cons hy path).trans hs'

theorem alphaIn_of_alike {B : Binders} (hB : ∀ b ∈ B, b.1 = b.2) (h : t.Alike u)
    (hs : SpansIn same t u) : AlphaIn same B t u := by
  unfold Alike at h
  induction t using Term.induct generalizing u B with
  | var s x =>
    cases u with
    | var s' y =>
      simp only [bare, var.injEq, true_and] at h
      subst h
      exact .var hs.root (sameVariable_self hB x)
    | _ => simp [bare] at h
  | cond s c a b ihc iha ihb =>
    cases u with
    | cond s' c' a' b' =>
      simp only [bare, cond.injEq, true_and] at h
      obtain ⟨hc, ha, hb⟩ := h
      exact .cond hs.root (ihc hB hc (hs.part (i := 0) rfl rfl))
        (iha hB ha (hs.part (i := 1) rfl rfl)) (ihb hB hb (hs.part (i := 2) rfl rfl))
    | _ => simp [bare] at h
  | app s f xs ihf ihxs =>
    cases u with
    | app s' f' ys =>
      simp only [bare, app.injEq, true_and, bareList_eq_map] at h
      obtain ⟨hf, hxs⟩ := h
      have hlen : xs.length = ys.length := by simpa using congrArg List.length hxs
      refine .app hs.root (ihf hB hf (hs.part (i := 0) rfl rfl)) hlen ?_
      intro x y hxy
      obtain ⟨i, hi⟩ := List.mem_iff_getElem?.mp hxy
      obtain ⟨hx, hy⟩ := List.getElem?_zip_eq_some.mp hi
      have hbare : (xs.map bare)[i]? = (ys.map bare)[i]? := by rw [hxs]
      refine ihxs x (List.mem_of_getElem? hx) hB (by simpa [hx, hy] using hbare) ?_
      exact hs.part (i := i + 1) hx hy
    | _ => simp [bare] at h
  | lam s ps b ih =>
    cases u with
    | lam s' qs b' =>
      simp only [bare, lam.injEq, true_and] at h
      obtain ⟨rfl, hb⟩ := h
      refine .lam hs.root rfl (ih ?_ hb (hs.part (i := 0) rfl rfl))
      rintro _ (_ | ⟨_, hmem⟩)
      · rfl
      · exact hB _ hmem
    | _ => simp [bare] at h

end

end Term

-- ---------------------------------------------------------------------------
-- Witnesses up to spans
-- ---------------------------------------------------------------------------

theorem Witness.ty_bare (w : Witness) : w.bare.ty = w.ty := by
  cases w <;> rfl

theorem Elaborates.bare {Γ : Scope} {t : Term} {w : Witness} (h : Elaborates Γ t w) :
    Elaborates Γ t.bare w.bare := by
  induction h with
  | var hx => exact .var hx
  | @cond Γ s c a b c' a' b' _ _ _ hc hb ihc iha ihb =>
    rw [Term.bare, Witness.bare, ← a'.ty_bare]
    refine .cond ihc iha ihb ?_ ?_
    · rw [c'.ty_bare, hc]
    · rw [b'.ty_bare, a'.ty_bare, hb]
  | @app Γ s f xs f' ws τ _ hlen _ hτ ihf ihxs =>
    rw [Term.bare, Witness.bare, Term.bareList_eq_map, Witness.bareList_eq_map]
    have hxs : List.Forall₂ (Elaborates Γ) (xs.map Term.bare) (ws.map Witness.bare) := by
      rw [List.forall₂_map_left_iff, List.forall₂_map_right_iff, List.forall₂_iff_zip]
      exact ⟨hlen, fun {x w} hx => ihxs x w hx⟩
    obtain ⟨hlen, hxs⟩ := List.forall₂_iff_zip.mp hxs
    refine .app ihf hlen (fun x w hx => hxs hx) ?_
    have hty : Witness.ty ∘ Witness.bare = Witness.ty := funext Witness.ty_bare
    rw [f'.ty_bare, List.map_map, hty, hτ]
  | @lam Γ s ps b b' hps _ ih =>
    have hbare : (Check.abstract s ps b').bare = Check.abstract .none ps b'.bare := by
      rw [Check.abstract, Check.abstract, Witness.bare, b'.ty_bare]
    rw [Term.bare, hbare]
    exact .lam hps ih

theorem Elaborates.alike {Γ : Scope} {t u : Term} {v w : Witness} (hv : Elaborates Γ t v)
    (hw : Elaborates Γ u w) (h : t.Alike u) : v.Alike w := by
  have hbare := hv.bare
  rw [show t.bare = u.bare from h] at hbare
  exact hbare.unique hw.bare

-- ---------------------------------------------------------------------------
-- The two runs
-- ---------------------------------------------------------------------------

/-- Terms that differ in spans alone either both have witnesses, of which compiling makes
code, that differ in spans alone and have the spans of their term at every position; or
they both fail for the same cause, each at the span that it has at the same position. -/
theorem elaborate_alike {t u : Term} (h : t.Alike u) (Γ : Scope) (want : Option Ty)
    (frame : SoundFrame) :
    (∃ v w, (Check.elaborate Γ t want).outcome = .ok v ∧
      (Check.elaborate Γ u want).outcome = .ok w ∧ v.Alike w ∧
      (Compile.compile v frame).value.Alike (Compile.compile w frame).value ∧
      (Compile.compile v frame).frame = (Compile.compile w frame).frame ∧
      ∀ path, v.spanAt? path = t.spanAt? path ∧ w.spanAt? path = u.spanAt? path ∧
        (Compile.compile v frame).value.spanAt? path = t.spanAt? path ∧
        (Compile.compile w frame).value.spanAt? path = u.spanAt? path) ∨
    ∃ cause s s' path, (Check.elaborate Γ t want).outcome = .error ⟨cause, s⟩ ∧
      (Check.elaborate Γ u want).outcome = .error ⟨cause, s'⟩ ∧
      t.spanAt? path = some s ∧ u.spanAt? path = some s' := by
  -- Two spans are related if they stand at one position; so the spans of the faults do.
  let same : Span → Span → Prop := fun s s' =>
    ∃ path, t.spanAt? path = some s ∧ u.spanAt? path = some s'
  have halpha : Term.AlphaIn same [] t u :=
    Term.alphaIn_of_alike (by simp) h fun path s s' ht hu => ⟨path, ht, hu⟩
  have hagree := Check.agree_answer halpha Γ.matches_self want
  unfold Check.answer at hagree
  generalize ht : (Check.elaborate Γ t want).outcome = x at hagree
  generalize hu : (Check.elaborate Γ u want).outcome = y at hagree
  cases hagree with
  | error hs =>
    obtain ⟨path, hs, hs'⟩ := hs
    exact .inr ⟨_, _, _, path, rfl, rfl, hs, hs'⟩
  | @ok v w hvw =>
    have hv : Elaborates Γ t v := Check.elaborates_of_answer ht
    have hw : Elaborates Γ u w := Check.elaborates_of_answer hu
    obtain ⟨hframe, hcode⟩ := Witness.AlphaEq.compile_alike hvw.1 frame
    refine .inl ⟨v, w, rfl, rfl, hv.alike hw h, hcode, hframe, ?_⟩
    intro path
    exact ⟨hv.spanAt?_eq path, hw.spanAt?_eq path, Compile.spanAt?_compile hv frame path,
      Compile.spanAt?_compile hw frame path⟩

def callFrom (n : Nat) : Term :=
  .lam ⟨n, n + 9⟩ [⟨"y", .bool⟩]
    (.app ⟨n + 4, n + 9⟩ (.var ⟨n + 5, n + 6⟩ "y") [.var ⟨n + 7, n + 8⟩ "y"])

theorem elaborate_alike_callFrom :
    (callFrom 0).Alike (callFrom 20) ∧
      ∃ cause s s' path, (Check.elaborate [] (callFrom 0) none).outcome = .error ⟨cause, s⟩ ∧
        (Check.elaborate [] (callFrom 20) none).outcome = .error ⟨cause, s'⟩ ∧
        (callFrom 0).spanAt? path = some s ∧ (callFrom 20).spanAt? path = some s' := by
  have h : (callFrom 0).Alike (callFrom 20) := rfl
  refine ⟨h, (elaborate_alike h [] none .empty).resolve_left ?_⟩
  rintro ⟨v, w, hv, -⟩
  rw [Check.elaborate_eq_derive] at hv
  cases hv

end TypedClosures
