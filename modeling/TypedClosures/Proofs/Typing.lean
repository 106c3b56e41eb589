import TypedClosures.Proofs.Answer

/-!
# The simple type system

`HasType` gives the typing rules without a direction: nothing in it says which
types are passed down and which are found. The checker, which passes a wanted
type down wherever it can, accepts exactly the terms that have a type
(`elaborate_iff_hasType`), and a term has at most one.

`Witness.Consistent` is the same system for witnesses, whose nodes carry their
types; every witness that the checker returns is consistent.
-/

namespace TypedClosures

theorem Ty.curried_right_inj {σs : List Ty} {τ τ' : Ty} :
    Ty.curried σs τ = Ty.curried σs τ' ↔ τ = τ' := by
  induction σs with
  | nil => rfl
  | cons σ σs ih => simp [ih]

theorem exists_mem_zip {α β γ : Type} {f : β → γ} {xs : List α} {ys : List β} {x : α} {z : γ}
    (h : (x, z) ∈ xs.zip (ys.map f)) : ∃ y, (x, y) ∈ xs.zip ys ∧ f y = z := by
  rw [List.zip_map_right, List.mem_map] at h
  obtain ⟨⟨x, y⟩, hmem, heq⟩ := h
  obtain ⟨rfl, rfl⟩ := Prod.mk.inj heq
  exact ⟨y, hmem, rfl⟩

/-- The innermost binding of a name: no entry before it has that name. -/
def Scope.Binds (Γ : Scope) (x : Name) (τ : Ty) : Prop :=
  ∃ inner outer, Γ = inner ++ ⟨x, τ⟩ :: outer ∧ ∀ b ∈ inner, b.name ≠ x

theorem Scope.find?_eq_some_iff {Γ : Scope} {x : Name} {τ : Ty} :
    Γ.find? x = some τ ↔ Γ.Binds x τ := by
  induction Γ with
  | nil => simp [Scope.Binds]
  | cons b Γ ih =>
    rw [Scope.find?]
    by_cases hb : b.name = x
    · subst hb
      rw [if_pos rfl, Option.some.injEq]
      constructor
      · rintro rfl
        exact ⟨[], Γ, rfl, by simp⟩
      · rintro ⟨inner, outer, heq, hne⟩
        cases inner with
        | nil => rw [(List.cons.inj heq).1]
        | cons c inner =>
          obtain ⟨rfl, -⟩ := List.cons.inj heq
          exact absurd rfl (hne b List.mem_cons_self)
    · rw [if_neg hb, ih]
      constructor
      · rintro ⟨inner, outer, rfl, hne⟩
        exact ⟨b :: inner, outer, rfl, by simpa [hb] using hne⟩
      · rintro ⟨inner, outer, heq, hne⟩
        cases inner with
        | nil =>
          obtain ⟨rfl, -⟩ := List.cons.inj heq
          exact absurd rfl hb
        | cons c inner =>
          obtain ⟨rfl, rfl⟩ := List.cons.inj heq
          exact ⟨inner, outer, rfl, fun d hd => hne d (List.mem_cons_of_mem _ hd)⟩

theorem Scope.find?_eq_none_iff {Γ : Scope} {x : Name} :
    Γ.find? x = none ↔ ∀ b ∈ Γ, b.name ≠ x := by
  induction Γ with
  | nil => simp
  | cons b Γ ih =>
    rw [Scope.find?]
    by_cases hb : b.name = x <;> simp [hb, ih]

inductive HasType : Scope → Term → Ty → Prop
  | var {Γ : Scope} {s : Span} {x : Name} {τ : Ty} : Γ.Binds x τ → HasType Γ (.var s x) τ
  | cond {Γ : Scope} {s : Span} {c a b : Term} {τ : Ty} :
      HasType Γ c .bool → HasType Γ a τ → HasType Γ b τ → HasType Γ (.cond s c a b) τ
  | app {Γ : Scope} {s : Span} {f : Term} {xs : List Term} {σs : List Ty} {τ : Ty} :
      HasType Γ f (.curried σs τ) → xs.length = σs.length →
      (∀ x σ, (x, σ) ∈ xs.zip σs → HasType Γ x σ) → HasType Γ (.app s f xs) τ
  | lam {Γ : Scope} {s : Span} {ps : List Binding} {b : Term} {τ : Ty} :
      ps ≠ [] → HasType (Γ.extendAll ps) b τ →
      HasType Γ (.lam s ps b) (.curried (ps.map Binding.ty) τ)

/-- The term with the type of every node written down. -/
inductive Elaborates : Scope → Term → Witness → Prop
  | var {Γ : Scope} {s : Span} {x : Name} {τ : Ty} :
      Γ.Binds x τ → Elaborates Γ (.var s x) (.var s τ x)
  | cond {Γ : Scope} {s : Span} {c a b : Term} {c' a' b' : Witness} :
      Elaborates Γ c c' → Elaborates Γ a a' → Elaborates Γ b b' → c'.ty = .bool →
      b'.ty = a'.ty → Elaborates Γ (.cond s c a b) (.cond s a'.ty c' a' b')
  | app {Γ : Scope} {s : Span} {f : Term} {xs : List Term} {f' : Witness} {ws : List Witness}
      {τ : Ty} :
      Elaborates Γ f f' → xs.length = ws.length →
      (∀ x w, (x, w) ∈ xs.zip ws → Elaborates Γ x w) → f'.ty = .curried (ws.map Witness.ty) τ →
      Elaborates Γ (.app s f xs) (.app s τ f' ws)
  | lam {Γ : Scope} {s : Span} {ps : List Binding} {b : Term} {b' : Witness} :
      ps ≠ [] → Elaborates (Γ.extendAll ps) b b' →
      Elaborates Γ (.lam s ps b) (Check.abstract s ps b')

/-- Every type in the witness is the one that the rules give its node. -/
inductive Witness.Consistent : Scope → Witness → Prop
  | var {Γ : Scope} {s : Span} {τ : Ty} {x : Name} : Γ.Binds x τ → Consistent Γ (.var s τ x)
  | cond {Γ : Scope} {s : Span} {τ : Ty} {c a b : Witness} :
      Consistent Γ c → Consistent Γ a → Consistent Γ b →
      c.ty = .bool → a.ty = τ → b.ty = τ → Consistent Γ (.cond s τ c a b)
  | app {Γ : Scope} {s : Span} {τ : Ty} {f : Witness} {xs : List Witness} :
      Consistent Γ f → (∀ x ∈ xs, Consistent Γ x) →
      f.ty = .curried (xs.map Witness.ty) τ → Consistent Γ (.app s τ f xs)
  | lam {Γ : Scope} {s : Span} {ps : List Binding} {b : Witness} :
      ps ≠ [] → Consistent (Γ.extendAll ps) b → Consistent Γ (Check.abstract s ps b)

-- ---------------------------------------------------------------------------
-- Elaborated terms have a type
-- ---------------------------------------------------------------------------

theorem Elaborates.hasType {Γ : Scope} {t : Term} {w : Witness} (h : Elaborates Γ t w) :
    HasType Γ t w.ty := by
  induction h with
  | var hx => exact .var hx
  | cond _ _ _ hc hb ihc iha ihb => exact .cond (hc ▸ ihc) iha (hb ▸ ihb)
  | app _ hlen _ hτ ihf ihxs =>
    rw [hτ] at ihf
    refine .app ihf (by simpa using hlen) ?_
    intro x σ hx
    obtain ⟨w, hmem, rfl⟩ := exists_mem_zip hx
    exact ihxs x w hmem
  | lam hps _ ih => exact .lam hps ih

theorem exists_witnesses {R : Term → Witness → Prop} {xs : List Term} {σs : List Ty}
    (h : List.Forall₂ (fun x σ => ∃ w, R x w ∧ w.ty = σ) xs σs) :
    ∃ ws, List.Forall₂ R xs ws ∧ ws.map Witness.ty = σs := by
  induction h with
  | nil => exact ⟨[], .nil, rfl⟩
  | cons hx _ ih =>
    obtain ⟨w, hw, rfl⟩ := hx
    obtain ⟨ws, hws, rfl⟩ := ih
    exact ⟨w :: ws, .cons hw hws, rfl⟩

theorem HasType.elaborates {Γ : Scope} {t : Term} {τ : Ty} (h : HasType Γ t τ) :
    ∃ w, Elaborates Γ t w ∧ w.ty = τ := by
  induction h with
  | var hx => exact ⟨_, .var hx, rfl⟩
  | cond _ _ _ ihc iha ihb =>
    obtain ⟨c', hc, hbool⟩ := ihc
    obtain ⟨a', ha, rfl⟩ := iha
    obtain ⟨b', hb, hab⟩ := ihb
    exact ⟨_, .cond hc ha hb hbool hab, rfl⟩
  | app _ hlen _ ihf ihxs =>
    obtain ⟨f', hf, hτ⟩ := ihf
    obtain ⟨ws, hws, rfl⟩ :=
      exists_witnesses (List.forall₂_iff_zip.mpr ⟨hlen, fun {x σ} hx => ihxs x σ hx⟩)
    obtain ⟨hlen, hxs⟩ := List.forall₂_iff_zip.mp hws
    exact ⟨_, .app hf hlen (fun x w hx => hxs hx) hτ, rfl⟩
  | lam hps _ ih =>
    obtain ⟨b', hb, rfl⟩ := ih
    exact ⟨_, .lam hps hb, rfl⟩

theorem Elaborates.consistent {Γ : Scope} {t : Term} {w : Witness} (h : Elaborates Γ t w) :
    w.Consistent Γ := by
  induction h with
  | var hx => exact .var hx
  | cond _ _ _ hc hb ihc iha ihb => exact .cond ihc iha ihb hc rfl hb
  | app _ hlen _ hτ ihf ihxs =>
    refine .app ihf ?_ hτ
    intro w hw
    rw [← List.map_snd_zip (Nat.le_of_eq hlen.symm), List.mem_map] at hw
    obtain ⟨⟨x, w⟩, hmem, rfl⟩ := hw
    exact ihxs x w hmem
  | lam hps _ ih => exact .lam hps ih

namespace Check

-- ---------------------------------------------------------------------------
-- The checker elaborates
-- ---------------------------------------------------------------------------

theorem elaborates_of_answer {Γ : Scope} {t : Term} {want : Option Ty} {w : Witness}
    (h : answer Γ t want = .ok w) : Elaborates Γ t w := by
  induction t using Term.induct generalizing Γ want w with
  | var s x =>
    obtain ⟨τ, hx, rfl, -⟩ := answer_var_ok.mp h
    exact .var (Scope.find?_eq_some_iff.mp hx)
  | cond s c a b ihc iha ihb =>
    obtain ⟨c', a', b', hc, ha, hb, rfl⟩ := answer_cond_ok.mp h
    exact .cond (ihc hc) (iha ha) (ihb hb) (ty_of_answer hc) (ty_of_answer hb)
  | app s f xs ihf ihxs =>
    obtain ⟨f', τ, ws, hf, hxs, rfl, -⟩ := answer_app_ok.mp h
    obtain ⟨hτ, hws⟩ := operandAnswers_ok.mp hxs
    obtain ⟨hlen, hws⟩ := List.forall₂_iff_zip.mp hws
    exact .app (ihf hf) hlen (fun x w hx => ihxs x (List.of_mem_zip hx).1 (hws hx)) hτ
  | lam s ps b ih =>
    obtain ⟨hps, b', hb, rfl, -⟩ := answer_lam_ok.mp h
    exact .lam hps (ih hb)

/-- A type that is passed down never stands in the way: where it reaches a
part at all, it is the type of that part. -/
theorem answer_of_elaborates {Γ : Scope} {t : Term} {w : Witness} (h : Elaborates Γ t w)
    (want : Option Ty) (hw : ∀ τ ∈ want, w.ty = τ) : answer Γ t want = .ok w := by
  induction h generalizing want with
  | var hx => exact answer_var_ok.mpr ⟨_, Scope.find?_eq_some_iff.mpr hx, rfl, hw⟩
  | cond _ _ _ hc hb ihc iha ihb =>
    exact answer_cond_ok.mpr ⟨_, _, _, ihc _ (by simp [hc]), iha _ hw, ihb _ (by simp [hb]), rfl⟩
  | app _ hlen _ hτ ihf ihxs =>
    refine answer_app_ok.mpr ⟨_, _, _, ihf _ (by simp), operandAnswers_ok.mpr ⟨hτ, ?_⟩, rfl, hw⟩
    exact List.forall₂_iff_zip.mpr ⟨hlen, fun {x w} hx => ihxs x w hx _ (by simp)⟩
  | lam hps _ ih =>
    refine answer_lam_ok.mpr ⟨hps, _, ih _ ?_, rfl, hw⟩
    intro τ hτ
    exact Ty.curried_right_inj.mp (hw _ (bodyWant_eq_some_iff.mp hτ))

theorem answer_ok_iff {Γ : Scope} {t : Term} {want : Option Ty} {w : Witness} :
    answer Γ t want = .ok w ↔ Elaborates Γ t w ∧ ∀ τ ∈ want, w.ty = τ :=
  ⟨fun h => ⟨elaborates_of_answer h, meets_of_answer h⟩, fun h => answer_of_elaborates h.1 want h.2⟩

end Check

theorem Elaborates.unique {Γ : Scope} {t : Term} {v w : Witness} (hv : Elaborates Γ t v)
    (hw : Elaborates Γ t w) : v = w := by
  have hv' := Check.answer_of_elaborates hv none (by simp)
  have hw' := Check.answer_of_elaborates hw none (by simp)
  rw [hv'] at hw'
  exact Except.ok.inj hw'

theorem HasType.unique {Γ : Scope} {t : Term} {σ τ : Ty} (hσ : HasType Γ t σ)
    (hτ : HasType Γ t τ) : σ = τ := by
  obtain ⟨v, hv, rfl⟩ := hσ.elaborates
  obtain ⟨w, hw, rfl⟩ := hτ.elaborates
  rw [hv.unique hw]

-- ---------------------------------------------------------------------------
-- The checker decides the type system
-- ---------------------------------------------------------------------------

/-- A check succeeds exactly if the term has a type and no other one is wanted;
the witness then has that type, which is the only one the term has. -/
theorem elaborate_iff_hasType (Γ : Scope) (t : Term) (want : Option Ty) :
    ((∃ w, (Check.elaborate Γ t want).outcome = .ok w) ↔
      ∃ τ, HasType Γ t τ ∧ (want = none ∨ want = some τ)) ∧
    (∀ w, (Check.elaborate Γ t want).outcome = .ok w →
      HasType Γ t w.ty ∧ (want = none ∨ want = some w.ty) ∧ ∀ τ, HasType Γ t τ → τ = w.ty) := by
  have hwant : ∀ τ, (∀ σ ∈ want, τ = σ) ↔ want = none ∨ want = some τ := by
    intro τ
    cases want <;> simp [eq_comm]
  have hok : ∀ w, (Check.elaborate Γ t want).outcome = .ok w ↔
      Elaborates Γ t w ∧ (want = none ∨ want = some w.ty) := by
    intro w
    rw [← hwant]
    exact Check.answer_ok_iff
  refine ⟨⟨?_, ?_⟩, ?_⟩
  · rintro ⟨w, hw⟩
    obtain ⟨he, hτ⟩ := (hok w).mp hw
    exact ⟨w.ty, he.hasType, hτ⟩
  · rintro ⟨τ, ht, hτ⟩
    obtain ⟨w, he, rfl⟩ := ht.elaborates
    exact ⟨w, (hok w).mpr ⟨he, hτ⟩⟩
  · intro w hw
    obtain ⟨he, hτ⟩ := (hok w).mp hw
    exact ⟨he.hasType, hτ, fun τ ht => ht.unique he.hasType⟩

end TypedClosures
