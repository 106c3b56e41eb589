import TypedClosures.Proofs.Alpha
import TypedClosures.Proofs.Faults
import TypedClosures.Proofs.Positions

/-!
# Bound names do not matter

Two terms are `AlphaEq` when they differ in nothing but the names of parameters and of
the variables that these bind. Checked in the same scope, such terms have the same
fault or both have a witness, and then compiling makes the same code of the two
(`elaborate_alphaEq`).

The two checks are followed side by side. Their scopes bind different names, and what
is kept is that names which mean the same variable have the same type
(`Scope.Matches`). How the spans of the two terms are related is left open: whatever
holds of the spans of corresponding nodes holds of the spans of the two faults
(`Check.agree_answer`). A check cannot do anything with a span but pass it on.
-/

namespace TypedClosures

namespace Term

/-- The same term up to the names of parameters, with spans related by `same`. The
binders are those around the two terms. -/
inductive AlphaIn (same : Span → Span → Prop) : Binders → Term → Term → Prop
  | var {B : Binders} {s s' : Span} {x y : Name} :
      same s s' → SameVariable B x y → AlphaIn same B (.var s x) (.var s' y)
  | cond {B : Binders} {s s' : Span} {c a b c' a' b' : Term} :
      same s s' → AlphaIn same B c c' → AlphaIn same B a a' → AlphaIn same B b b' →
      AlphaIn same B (.cond s c a b) (.cond s' c' a' b')
  | app {B : Binders} {s s' : Span} {f f' : Term} {xs ys : List Term} :
      same s s' → AlphaIn same B f f' → xs.length = ys.length →
      (∀ x y, (x, y) ∈ xs.zip ys → AlphaIn same B x y) →
      AlphaIn same B (.app s f xs) (.app s' f' ys)
  | lam {B : Binders} {s s' : Span} {ps qs : List Binding} {b b' : Term} :
      same s s' → ps.map Binding.ty = qs.map Binding.ty →
      AlphaIn same ((ps.map Binding.name, qs.map Binding.name) :: B) b b' →
      AlphaIn same B (.lam s ps b) (.lam s' qs b')

/-- The same up to the names of parameters. -/
def AlphaEq (t u : Term) : Prop := AlphaIn (· = ·) [] t u

theorem AlphaIn.same_span {same : Span → Span → Prop} {B : Binders} {t u : Term}
    (h : AlphaIn same B t u) : same t.span u.span := by
  cases h <;> assumption

end Term

-- ---------------------------------------------------------------------------
-- Scopes side by side
-- ---------------------------------------------------------------------------

/-- Names that mean the same variable have the same type. If they have none, no lambda
binds them, and they are the same name. -/
def Scope.Matches (B : Binders) (Γ Δ : Scope) : Prop :=
  ∀ x y, SameVariable B x y → Γ.find? x = Δ.find? y ∧ (Γ.find? x = none → x = y)

theorem Scope.matches_self (Γ : Scope) : Scope.Matches [] Γ Γ := by
  rintro x y ⟨⟩
  exact ⟨rfl, fun _ => rfl⟩

theorem Scope.Matches.extendAll {B : Binders} {Γ Δ : Scope} (h : Scope.Matches B Γ Δ)
    {ps qs : List Binding} (hty : ps.map Binding.ty = qs.map Binding.ty) :
    Scope.Matches ((ps.map Binding.name, qs.map Binding.name) :: B) (Γ.extendAll ps)
      (Δ.extendAll qs) := by
  intro x y hxy
  by_cases hx : x ∈ ps.map Binding.name
  · -- A parameter has the type at its position, which is the same on both sides.
    have hy := hxy.mem_iff.mp hx
    have hlast := hxy.lastIndexIn_eq hx
    have hlt : Compile.lastIndexIn (qs.map Binding.name) y < (qs.map Binding.ty).length := by
      simpa using Compile.lastIndexIn_lt hy
    rw [Scope.find?_extendAll_of_mem Γ hx, Scope.find?_extendAll_of_mem Δ hy, hlast, hty]
    refine ⟨rfl, ?_⟩
    intro hnone
    exact absurd (List.getElem?_eq_none_iff.mp hnone) (Nat.not_le_of_lt hlt)
  · have hy := mt hxy.mem_iff.mpr hx
    rw [Scope.find?_extendAll_of_not_mem Γ hx, Scope.find?_extendAll_of_not_mem Δ hy]
    exact h x y (hxy.of_not_mem hx)

namespace Check

-- ---------------------------------------------------------------------------
-- Answers side by side
-- ---------------------------------------------------------------------------

/-- Two outcomes are both values, related by `R`, or both faults for the same cause, at
spans related by `same`. -/
inductive Agree (same : Span → Span → Prop) {α : Type} (R : α → α → Prop) :
    Except Fault α → Except Fault α → Prop
  | ok {a b : α} : R a b → Agree same R (.ok a) (.ok b)
  | error {cause : Cause} {s s' : Span} :
      same s s' → Agree same R (.error ⟨cause, s⟩) (.error ⟨cause, s'⟩)

def Pairs (same : Span → Span → Prop) (B : Binders) (v w : Witness) : Prop :=
  Witness.AlphaIn B v w ∧ same v.span w.span

section
variable {same : Span → Span → Prop} {B : Binders} {Γ Δ : Scope}

theorem Pairs.ty_eq {v w : Witness} (h : Pairs same B v w) : v.ty = w.ty := by
  cases h.1 <;> rfl

theorem Agree.bind {α β : Type} {R : α → α → Prop} {S : β → β → Prop} {x y : Except Fault α}
    {f g : α → Except Fault β} (h : Agree same R x y)
    (hf : ∀ a b, R a b → Agree same S (f a) (g b)) : Agree same S (x >>= f) (y >>= g) := by
  cases h with
  | ok hab => exact hf _ _ hab
  | error hs => exact .error hs

theorem agree_meets {v w : Witness} (h : Pairs same B v w) (want : Option Ty) :
    Agree same (Pairs same B) (v.meets want) (w.meets want) := by
  cases want with
  | none => exact .ok h
  | some τ =>
    simp only [Witness.meets, ← h.ty_eq]
    split
    · exact .ok h
    · exact .error h.2

theorem agree_variable {s s' : Span} {x y : Name} (hΓ : Scope.Matches B Γ Δ) (hs : same s s')
    (hxy : SameVariable B x y) (want : Option Ty) :
    Agree same (Pairs same B) (answer Γ (.var s x) want) (answer Δ (.var s' y) want) := by
  obtain ⟨hfind, hname⟩ := hΓ x y hxy
  rw [answer_var, answer_var]
  cases hx : Γ.find? x with
  | none =>
    obtain rfl := hname hx
    rw [hx] at hfind
    simp only [variableAt_eq, hx, ← hfind, error_then]
    exact .error hs
  | some τ =>
    rw [hx] at hfind
    rw [variableAt_ok.mpr ⟨τ, hx, rfl⟩, variableAt_ok.mpr ⟨τ, hfind.symm, rfl⟩]
    exact agree_meets ⟨.var hxy, hs⟩ want

theorem agree_operands {place place' : Span} (hplace : same place place') {xs ys : List Term}
    (h : List.Forall₂ (fun x y => ∀ want,
      Agree same (Pairs same B) (answer Γ x want) (answer Δ y want)) xs ys) (τ : Ty) :
    Agree same (fun r r' => r.1 = r'.1 ∧ List.Forall₂ (Witness.AlphaIn B) r.2 r'.2)
      (operandAnswers Γ place xs τ) (operandAnswers Δ place' ys τ) := by
  induction h generalizing τ with
  | nil =>
    rw [operandAnswers_nil, operandAnswers_nil]
    exact .ok ⟨rfl, .nil⟩
  | cons hxy _ ih =>
    cases τ with
    | base name => exact .error hplace
    | arrow argument result =>
      rw [operandAnswers_cons_arrow, operandAnswers_cons_arrow]
      refine (hxy (some argument)).bind ?_
      intro v w hvw
      refine (ih result).bind ?_
      rintro ⟨τ, vs⟩ ⟨_, ws⟩ ⟨rfl, hws⟩
      exact .ok ⟨rfl, .cons hvw.1 hws⟩

theorem bodyWant_congr {ps qs : List Binding} (h : ps.map Binding.ty = qs.map Binding.ty)
    (want : Option Ty) : bodyWant ps want = bodyWant qs want := by
  rw [bodyWant_eq_bind, bodyWant_eq_bind, h]

theorem Pairs.abstract {s s' : Span} (hs : same s s') {ps qs : List Binding}
    (hty : ps.map Binding.ty = qs.map Binding.ty) {v w : Witness}
    (h : Pairs same ((ps.map Binding.name, qs.map Binding.name) :: B) v w) :
    Pairs same B (abstract s ps v) (abstract s' qs w) := by
  have hlen : (ps.map Binding.name).length = (qs.map Binding.name).length := by
    simpa using congrArg List.length hty
  unfold Check.abstract
  rw [hty, h.ty_eq]
  exact ⟨.lam hlen h.1, hs⟩

theorem agree_answer {t u : Term} (h : Term.AlphaIn same B t u) (hΓ : Scope.Matches B Γ Δ)
    (want : Option Ty) : Agree same (Pairs same B) (answer Γ t want) (answer Δ u want) := by
  induction h generalizing Γ Δ want with
  | var hs hxy => exact agree_variable hΓ hs hxy want
  | cond hs _ _ _ ihc iha ihb =>
    rw [answer_cond, answer_cond]
    refine (ihc hΓ (some .bool)).bind ?_
    intro c c' hc
    refine (iha hΓ want).bind ?_
    intro a a' ha
    rw [ha.ty_eq]
    refine (ihb hΓ (some a'.ty)).bind ?_
    intro b b' hb
    exact .ok ⟨.cond hc.1 ha.1 hb.1, hs⟩
  | app hs _ hlen _ ihf ihxs =>
    rw [answer_app, answer_app]
    refine (ihf hΓ none).bind ?_
    intro f f' hf
    have hxs := List.forall₂_iff_zip.mpr ⟨hlen, fun {x y} hxy => ihxs x y hxy hΓ⟩
    rw [hf.ty_eq]
    refine (agree_operands hf.2 hxs f'.ty).bind ?_
    rintro ⟨τ, vs⟩ ⟨_, ws⟩ ⟨rfl, hws⟩
    obtain ⟨hlen, hws⟩ := List.forall₂_iff_zip.mp hws
    exact agree_meets ⟨.app hf.1 hlen fun v w hvw => hws hvw, hs⟩ want
  | @lam B s s' ps qs b b' hs hty _ ih =>
    cases ps with
    | nil =>
      obtain rfl : qs = [] := by simpa using hty.symm
      rw [answer_lam_nil, answer_lam_nil]
      exact .error hs
    | cons p ps =>
      cases qs with
      | nil => simp at hty
      | cons q qs =>
        rw [answer_lam_cons, answer_lam_cons, bodyWant_congr hty]
        refine (ih (hΓ.extendAll hty) _).bind ?_
        intro v w hvw
        exact agree_meets (Pairs.abstract hs hty hvw) want

end

end Check

-- ---------------------------------------------------------------------------
-- The same code
-- ---------------------------------------------------------------------------

section
variable {v w : Witness}

theorem Witness.AlphaEq.free_eq (h : v.AlphaEq w) : v.free = w.free := by
  rw [← List.forall₂_eq_eq_eq]
  refine h.forall₂_free.imp ?_
  rintro x y ⟨⟩
  rfl

theorem Witness.AlphaEq.compile_alike (h : v.AlphaEq w) (frame : SoundFrame) :
    (Compile.compile v frame).frame = (Compile.compile w frame).frame ∧
      (Compile.compile v frame).value.Alike (Compile.compile w frame).value := by
  have hframe : (Compile.compile v frame).frame = (Compile.compile w frame).frame := by
    rw [Compile.compile_frame v frame, Compile.compile_frame w frame, h.free_eq]
  refine ⟨hframe, ?_⟩
  rw [Compile.compile_value v frame, Compile.compile_value w frame, hframe]
  refine AlphaIn.bare_resolve h ?_
  rintro x y ⟨⟩
  rfl

end

theorem Term.AlphaEq.spanAt?_eq {t u : Term} (h : t.AlphaEq u) (path : Path) :
    t.spanAt? path = u.spanAt? path := by
  refine TypedClosures.spanAt?_eq (R := fun t u => ∃ B, Term.AlphaIn (· = ·) B t u) ?_ ?_
    ⟨[], h⟩ path
  · rintro t u ⟨B, h⟩
    exact h.same_span
  · rintro t u ⟨B, h⟩
    cases h with
    | var _ _ => exact .nil
    | cond _ hc ha hb => exact .cons ⟨B, hc⟩ (.cons ⟨B, ha⟩ (.cons ⟨B, hb⟩ .nil))
    | app _ hf hlen hxs =>
      refine .cons ⟨B, hf⟩ (List.forall₂_iff_zip.mpr ⟨hlen, ?_⟩)
      exact fun {x y} hxy => ⟨B, hxs x y hxy⟩
    | lam _ _ hb => exact .cons ⟨_, hb⟩ .nil

/-- Terms that differ in the names of parameters alone have the same fault, or they have
witnesses of the same type, of which compiling makes the same code and frame. -/
theorem elaborate_alphaEq {t u : Term} (h : t.AlphaEq u) (Γ : Scope) (want : Option Ty)
    (frame : SoundFrame) :
    (∃ fault, (Check.elaborate Γ t want).outcome = .error fault ∧
      (Check.elaborate Γ u want).outcome = .error fault) ∨
    ∃ v w, (Check.elaborate Γ t want).outcome = .ok v ∧
      (Check.elaborate Γ u want).outcome = .ok w ∧ v.ty = w.ty ∧
      (Compile.compile v frame).value = (Compile.compile w frame).value ∧
      (Compile.compile v frame).frame = (Compile.compile w frame).frame := by
  have hagree := Check.agree_answer h Γ.matches_self want
  unfold Check.answer at hagree
  generalize ht : (Check.elaborate Γ t want).outcome = x at hagree
  generalize hu : (Check.elaborate Γ u want).outcome = y at hagree
  cases hagree with
  | error hs =>
    subst hs
    exact .inl ⟨_, rfl, rfl⟩
  | @ok v w hvw =>
    obtain ⟨hframe, hcode⟩ := Witness.AlphaEq.compile_alike hvw.1 frame
    refine .inr ⟨v, w, rfl, rfl, hvw.ty_eq, Code.eq_of_alike hcode ?_, hframe⟩
    intro path
    have hv := Compile.spanAt?_compile (Check.elaborates_of_answer ht) frame path
    have hw := Compile.spanAt?_compile (Check.elaborates_of_answer hu) frame path
    rw [hv, hw, h.spanAt?_eq]

def renamed : Term :=
  .lam ⟨0, 9⟩ [⟨"q", .base "Int"⟩, ⟨"b", .bool⟩] (.lam ⟨1, 8⟩ [⟨"p", .base "Int"⟩]
    (.app ⟨2, 7⟩ (.var ⟨3, 4⟩ "f") [.var ⟨4, 5⟩ "p", .var ⟨5, 6⟩ "b"]))

theorem repeated_alphaEq_renamed : repeated.AlphaEq renamed := by
  let B : Binders := [(["q"], ["p"]), (["p", "p"], ["q", "b"])]
  have hf : SameVariable B "f" "f" :=
    .outer (by decide) (by decide) (.outer (by decide) (by decide) .free)
  have hq : SameVariable B "q" "p" :=
    .bound (lastAt_lastIndexIn (by decide)) (lastAt_lastIndexIn (by decide))
  have hp : SameVariable B "p" "b" :=
    .outer (by decide) (by decide)
      (.bound (lastAt_lastIndexIn (by decide)) (lastAt_lastIndexIn (by decide)))
  have hxs : List.Forall₂ (Term.AlphaIn (· = ·) B) [.var ⟨4, 5⟩ "q", .var ⟨5, 6⟩ "p"]
      [.var ⟨4, 5⟩ "p", .var ⟨5, 6⟩ "b"] := .cons (.var rfl hq) (.cons (.var rfl hp) .nil)
  obtain ⟨hlen, hxs⟩ := List.forall₂_iff_zip.mp hxs
  exact .lam rfl rfl (.lam rfl rfl (.app rfl (.var rfl hf) hlen fun x y hxy => hxs hxy))

theorem elaborate_alphaEq_repeated :
    let Γ : Scope := [⟨"f", .curried [.base "Int", .bool] (.base "Int")⟩, ⟨"b", .base "Int"⟩]
    repeated.AlphaEq renamed ∧
      ∃ v w, (Check.elaborate Γ repeated none).outcome = .ok v ∧
        (Check.elaborate Γ renamed none).outcome = .ok w ∧ v.ty = w.ty ∧
        (Compile.compile v (Frame.ofNames ["b"])).value =
          (Compile.compile w (Frame.ofNames ["b"])).value ∧
        (Compile.compile v (Frame.ofNames ["b"])).frame =
          (Compile.compile w (Frame.ofNames ["b"])).frame := by
  intro Γ
  refine ⟨repeated_alphaEq_renamed, ?_⟩
  refine (elaborate_alphaEq repeated_alphaEq_renamed Γ none
    (.ofNames ["b"])).resolve_left ?_
  rintro ⟨fault, hfault, -⟩
  rw [Check.elaborate_eq_derive] at hfault
  cases hfault

end TypedClosures
