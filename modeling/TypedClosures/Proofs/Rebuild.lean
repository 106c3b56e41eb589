import TypedClosures.Proofs.Typing

/-!
# Witnesses lose nothing of their terms

A witness keeps the names of a lambda's parameters and drops their types, which are
the first arguments of the lambda's own type. `Witness.rebuild` reads them off again
and gives the term back. Every term that is accepted is rebuilt from its witness, and
the witnesses that checking can give are exactly the consistent ones
(`infer_rebuild_iff_consistent`).
-/

namespace TypedClosures

def Ty.arguments? : Nat → Ty → Option (List Ty)
  | 0, _ => some []
  | n + 1, .arrow argument result => (arguments? n result).map (argument :: ·)
  | _ + 1, .base _ => none

theorem Ty.arguments?_curried (σs : List Ty) (τ : Ty) :
    Ty.arguments? σs.length (.curried σs τ) = some σs := by
  induction σs with
  | nil => rfl
  | cons σ σs ih => simp [Ty.arguments?, ih]

theorem zipWith_name_ty (ps : List Binding) :
    List.zipWith Binding.mk (ps.map Binding.name) (ps.map Binding.ty) = ps := by
  induction ps with
  | nil => rfl
  | cons p ps ih => simp [ih]

namespace Witness

mutual

/-- The term that the witness is of. There is none if a lambda's type has not an
argument for each parameter. -/
def rebuild : Witness → Option Term
  | .var s _ x => some (.var s x)
  | .cond s _ c a b => do
    let c ← c.rebuild
    let a ← a.rebuild
    let b ← b.rebuild
    return .cond s c a b
  | .app s _ f xs => do
    let f ← f.rebuild
    let xs ← rebuildList xs
    return .app s f xs
  | .lam s τ ps b => do
    let σs ← τ.arguments? ps.length
    let b ← b.rebuild
    return .lam s (List.zipWith Binding.mk ps σs) b

def rebuildList : List Witness → Option (List Term)
  | [] => some []
  | w :: ws => do
    let t ← w.rebuild
    let ts ← rebuildList ws
    return t :: ts

end

theorem rebuildList_of_forall₂ {ws : List Witness} {ts : List Term}
    (h : List.Forall₂ (fun t w => w.rebuild = some t) ts ws) : rebuildList ws = some ts := by
  induction h with
  | nil => rfl
  | cons hw _ ih => simp [rebuildList, hw, ih]

theorem rebuild_abstract {s : Span} {ps : List Binding} {b : Witness} {t : Term}
    (hb : b.rebuild = some t) : (Check.abstract s ps b).rebuild = some (.lam s ps t) := by
  have hargs : Ty.arguments? (ps.map Binding.name).length
      (.curried (ps.map Binding.ty) b.ty) = some (ps.map Binding.ty) := by
    simpa using Ty.arguments?_curried (ps.map Binding.ty) b.ty
  simp only [Check.abstract, rebuild, hargs, hb, Option.bind_eq_bind, Option.bind_some,
    zipWith_name_ty, Option.pure_def]

end Witness

theorem Elaborates.rebuild {Γ : Scope} {t : Term} {w : Witness} (h : Elaborates Γ t w) :
    w.rebuild = some t := by
  induction h with
  | var _ => rfl
  | cond _ _ _ _ _ ihc iha ihb => simp [Witness.rebuild, ihc, iha, ihb]
  | app _ hlen _ _ ihf ihxs =>
    have hxs := Witness.rebuildList_of_forall₂
      (List.forall₂_iff_zip.mpr ⟨hlen, fun {x w} hx => ihxs x w hx⟩)
    simp [Witness.rebuild, ihf, hxs]
  | lam _ _ ih => exact Witness.rebuild_abstract ih

theorem Witness.Consistent.exists_elaborates {Γ : Scope} {w : Witness} (h : w.Consistent Γ) :
    ∃ t, Elaborates Γ t w := by
  induction h with
  | var hx => exact ⟨_, .var hx⟩
  | cond _ _ _ hc ha hb ihc iha ihb =>
    obtain ⟨c, hc'⟩ := ihc
    obtain ⟨a, ha'⟩ := iha
    obtain ⟨b, hb'⟩ := ihb
    subst ha
    exact ⟨_, .cond hc' ha' hb' hc hb⟩
  | app _ _ hτ ihf ihxs =>
    obtain ⟨f, hf⟩ := ihf
    choose! term hterm using ihxs
    have hxs := List.forall₂_map_left_iff.mpr (List.forall₂_same.mpr hterm)
    obtain ⟨hlen, hxs⟩ := List.forall₂_iff_zip.mp hxs
    exact ⟨_, .app hf hlen (fun x w hx => hxs hx) hτ⟩
  | lam hps _ ih =>
    obtain ⟨b, hb⟩ := ih
    exact ⟨_, .lam hps hb⟩

/-- An accepted term is rebuilt from its witness, whole; and inferring gives a witness
back from the term rebuilt from it exactly if the witness is consistent. -/
theorem infer_rebuild_iff_consistent (Γ : Scope) :
    (∀ t want w, (Check.elaborate Γ t want).outcome = .ok w → w.rebuild = some t) ∧
    (∀ w, (∃ t, w.rebuild = some t ∧ Check.infer Γ t = .ok w) ↔ w.Consistent Γ) := by
  refine ⟨?_, fun w => ⟨?_, ?_⟩⟩
  · intro t want w h
    exact (Check.elaborates_of_answer h).rebuild
  · rintro ⟨t, -, h⟩
    exact (Check.elaborates_of_answer h).consistent
  · intro h
    obtain ⟨t, ht⟩ := h.exists_elaborates
    exact ⟨t, ht.rebuild, Check.answer_of_elaborates ht none (by simp)⟩

end TypedClosures
