import TypedClosures.Proofs.Typing
import TypedClosures.Proofs.Resolution

/-!
# Spans by position

A position in a tree is a path from the root that says at each node which part to go
to. Terms, witnesses and code have a span at every position. A witness has the spans of
its term, and code those of its witness; and code is determined by its spans together
with what is left when they are forgotten (`Code.eq_of_alike`).

`Term.paths` lists the positions of a term in pre-order: a node comes before its parts, and
the parts come in the order in which they are checked.
-/

namespace TypedClosures

abbrev Path := List Nat

/-- The span at a path, in a tree of any kind. There is none at a path that leads out of
the tree. -/
def spanAt? {α : Type} (span : α → Span) (parts : α → List α) : Path → α → Option Span
  | [], a => some (span a)
  | i :: path, a => (parts a)[i]?.bind (spanAt? span parts path)

theorem spanAt?_cons {α : Type} {span : α → Span} {parts : α → List α} {a x : α} {i : Nat}
    (hx : (parts a)[i]? = some x) (path : Path) :
    spanAt? span parts (i :: path) a = spanAt? span parts path x := by
  rw [spanAt?, hx, Option.bind_some]

namespace Term

def parts : Term → List Term
  | .var _ _ => []
  | .cond _ c a b => [c, a, b]
  | .app _ f xs => f :: xs
  | .lam _ _ b => [b]

def spanAt? (t : Term) (path : Path) : Option Span := TypedClosures.spanAt? span parts path t

end Term

namespace Witness

def parts : Witness → List Witness
  | .var _ _ _ => []
  | .cond _ _ c a b => [c, a, b]
  | .app _ _ f xs => f :: xs
  | .lam _ _ _ b => [b]

def spanAt? (w : Witness) (path : Path) : Option Span := TypedClosures.spanAt? span parts path w

end Witness

namespace Code

def parts : Code → List Code
  | .slot _ _ _ => []
  | .cond _ _ c a b => [c, a, b]
  | .app _ _ f xs => f :: xs
  | .closure _ _ _ b => [b]

def spanAt? (e : Code) (path : Path) : Option Span := TypedClosures.spanAt? span parts path e

end Code

-- ---------------------------------------------------------------------------
-- Trees with the same spans
-- ---------------------------------------------------------------------------

theorem forall₂_getElem? {α β : Type} {R : α → β → Prop} {xs : List α} {ys : List β}
    (h : List.Forall₂ R xs ys) (i : Nat) : Option.Rel R xs[i]? ys[i]? := by
  induction h generalizing i with
  | nil => exact .none
  | cons hxy _ ih =>
    cases i with
    | zero => exact .some hxy
    | succ i => exact ih i

/-- If related nodes have the same span and parts that are related one by one, then
related trees have the same spans everywhere. -/
theorem spanAt?_eq {α β : Type} {span : α → Span} {parts : α → List α} {span' : β → Span}
    {parts' : β → List β} {R : α → β → Prop} (hspan : ∀ a b, R a b → span a = span' b)
    (hparts : ∀ a b, R a b → List.Forall₂ R (parts a) (parts' b)) {a : α} {b : β} (h : R a b)
    (path : Path) : spanAt? span parts path a = spanAt? span' parts' path b := by
  induction path generalizing a b with
  | nil => exact congrArg some (hspan a b h)
  | cons i path ih =>
    have hpart := forall₂_getElem? (hparts a b h) i
    unfold spanAt?
    generalize (parts a)[i]? = x at hpart
    generalize (parts' b)[i]? = y at hpart
    cases hpart with
    | none => rfl
    | some h => exact ih h

theorem Elaborates.spanAt?_eq {Γ : Scope} {t : Term} {w : Witness} (h : Elaborates Γ t w)
    (path : Path) : w.spanAt? path = t.spanAt? path := by
  refine TypedClosures.spanAt?_eq (R := fun w t => ∃ Γ, Elaborates Γ t w) ?_ ?_ ⟨Γ, h⟩ path
  · rintro w t ⟨Γ, h⟩
    cases h <;> rfl
  · rintro w t ⟨Γ, h⟩
    cases h with
    | var _ => exact .nil
    | cond hc ha hb _ _ => exact .cons ⟨Γ, hc⟩ (.cons ⟨Γ, ha⟩ (.cons ⟨Γ, hb⟩ .nil))
    | app hf hlen hxs _ =>
      refine .cons ⟨Γ, hf⟩ (List.Forall₂.flip ?_)
      exact List.forall₂_iff_zip.mpr ⟨hlen, fun {x w} hx => ⟨Γ, hxs x w hx⟩⟩
    | lam _ hb => exact .cons ⟨_, hb⟩ .nil

theorem Witness.spanAt?_resolve (w : Witness) (place : Name → Slot) (path : Path) :
    (w.resolve place).spanAt? path = w.spanAt? path := by
  refine spanAt?_eq (R := fun e w => ∃ place, e = Witness.resolve place w) ?_ ?_ ⟨place, rfl⟩ path
  · rintro _ w ⟨place, rfl⟩
    cases w <;> rfl
  · rintro _ w ⟨place, rfl⟩
    cases w with
    | var _ _ _ => exact .nil
    | cond _ _ _ _ _ => exact .cons ⟨place, rfl⟩ (.cons ⟨place, rfl⟩ (.cons ⟨place, rfl⟩ .nil))
    | app _ _ f xs =>
      rw [Witness.resolve, resolveList_eq_map]
      refine .cons ⟨place, rfl⟩ (List.forall₂_map_left_iff.mpr (List.forall₂_same.mpr ?_))
      exact fun x _ => ⟨place, rfl⟩
    | lam _ _ _ _ => exact .cons ⟨_, rfl⟩ .nil

theorem Compile.spanAt?_compile {Γ : Scope} {t : Term} {w : Witness} (h : Elaborates Γ t w)
    (frame : SoundFrame) (path : Path) :
    (compile w frame).value.spanAt? path = t.spanAt? path := by
  rw [compile_value w frame, w.spanAt?_resolve, h.spanAt?_eq]

-- ---------------------------------------------------------------------------
-- Code from its spans
-- ---------------------------------------------------------------------------

namespace Code

theorem spanAt?_part {d e x y : Code} {i : Nat} (hx : d.parts[i]? = some x)
    (hy : e.parts[i]? = some y) (h : ∀ path, d.spanAt? path = e.spanAt? path) (path : Path) :
    x.spanAt? path = y.spanAt? path := by
  calc x.spanAt? path
    _ = d.spanAt? (i :: path) := (spanAt?_cons hx path).symm
    _ = e.spanAt? (i :: path) := h (i :: path)
    _ = y.spanAt? path := spanAt?_cons hy path

theorem eq_of_alike {d e : Code} (h : d.Alike e) (hs : ∀ path, d.spanAt? path = e.spanAt? path) :
    d = e := by
  unfold Alike at h
  induction d using Code.induct generalizing e with
  | slot s τ n =>
    cases e with
    | slot s' τ' n' =>
      simp only [bare, slot.injEq, true_and] at h
      obtain ⟨rfl, rfl⟩ := h
      obtain rfl : s = s' := Option.some.inj (hs [])
      rfl
    | _ => simp [bare] at h
  | cond s τ c a b ihc iha ihb =>
    cases e with
    | cond s' τ' c' a' b' =>
      simp only [bare, cond.injEq, true_and] at h
      obtain ⟨rfl, hc, ha, hb⟩ := h
      obtain rfl : s = s' := Option.some.inj (hs [])
      obtain rfl := ihc hc (spanAt?_part (i := 0) rfl rfl hs)
      obtain rfl := iha ha (spanAt?_part (i := 1) rfl rfl hs)
      obtain rfl := ihb hb (spanAt?_part (i := 2) rfl rfl hs)
      rfl
    | _ => simp [bare] at h
  | app s τ f xs ihf ihxs =>
    cases e with
    | app s' τ' f' ys =>
      simp only [bare, app.injEq, true_and, bareList_eq_map] at h
      obtain ⟨rfl, hf, hxs⟩ := h
      obtain rfl : s = s' := Option.some.inj (hs [])
      obtain rfl := ihf hf (spanAt?_part (i := 0) rfl rfl hs)
      have hlen : xs.length = ys.length := by simpa using congrArg List.length hxs
      obtain rfl : xs = ys := by
        apply List.ext_getElem hlen
        intro i hi hi'
        have hbare : (xs.map bare)[i]? = (ys.map bare)[i]? := by rw [hxs]
        refine ihxs xs[i] (List.getElem_mem hi) (by simpa [hi, hi'] using hbare) ?_
        exact spanAt?_part (i := i + 1) (by simp [parts, hi]) (by simp [parts, hi']) hs
      rfl
    | _ => simp [bare] at h
  | closure s τ l b ih =>
    cases e with
    | closure s' τ' l' b' =>
      simp only [bare, closure.injEq, true_and] at h
      obtain ⟨rfl, rfl, hb⟩ := h
      obtain rfl : s = s' := Option.some.inj (hs [])
      obtain rfl := ih hb (spanAt?_part (i := 0) rfl rfl hs)
      rfl
    | _ => simp [bare] at h

end Code

-- ---------------------------------------------------------------------------
-- Positions in pre-order
-- ---------------------------------------------------------------------------

namespace Term

def scopeWithin (Γ : Scope) : Term → Scope
  | .lam _ ps _ => Γ.extendAll ps
  | _ => Γ

def nodeAt? : Scope → Term → Path → Option (Scope × Term)
  | Γ, t, [] => some (Γ, t)
  | Γ, t, i :: path => t.parts[i]?.bind fun x => nodeAt? (t.scopeWithin Γ) x path

mutual

/-- The positions of a term, those of a node before those of its parts. -/
def paths : Term → List Path
  | .var _ _ => [[]]
  | .cond _ c a b =>
    [] :: (c.paths.map (0 :: ·) ++ a.paths.map (1 :: ·) ++ b.paths.map (2 :: ·))
  | .app _ f xs => [] :: (f.paths.map (0 :: ·) ++ pathsFrom 1 xs)
  | .lam _ _ b => [] :: b.paths.map (0 :: ·)

def pathsFrom (i : Nat) : List Term → List Path
  | [] => []
  | t :: ts => t.paths.map (i :: ·) ++ pathsFrom (i + 1) ts

end

@[elab_as_elim]
theorem induct_parts {motive : Term → Prop}
    (node : ∀ t, (∀ x ∈ t.parts, motive x) → motive t) (t : Term) : motive t := by
  induction t using Term.induct with
  | var s x => exact node _ (by simp [parts])
  | cond s c a b hc ha hb => exact node _ (by simp [parts, hc, ha, hb])
  | app s f xs hf hxs => exact node _ (List.forall_mem_cons.mpr ⟨hf, hxs⟩)
  | lam s ps b hb => exact node _ (by simp [parts, hb])

theorem paths_eq (t : Term) : t.paths = [] :: pathsFrom 0 t.parts := by
  cases t <;> simp [paths, pathsFrom, parts]

theorem mem_pathsFrom {i : Nat} {ts : List Term} {path : Path} :
    path ∈ pathsFrom i ts ↔ ∃ j x rest, ts[j]? = some x ∧ path = (i + j) :: rest ∧
      rest ∈ x.paths := by
  induction ts generalizing i with
  | nil => simp [pathsFrom]
  | cons t ts ih =>
    rw [pathsFrom, List.mem_append, List.mem_map, ih]
    constructor
    · rintro (⟨rest, hrest, rfl⟩ | ⟨j, x, rest, hx, rfl, hrest⟩)
      · exact ⟨0, t, rest, rfl, rfl, hrest⟩
      · exact ⟨j + 1, x, rest, hx, by rw [Nat.add_right_comm, Nat.add_assoc], hrest⟩
    · rintro ⟨_ | j, x, rest, hx, rfl, hrest⟩
      · obtain rfl := Option.some.inj hx
        exact .inl ⟨rest, hrest, rfl⟩
      · exact .inr ⟨j, x, rest, hx, by rw [Nat.add_right_comm, Nat.add_assoc], hrest⟩

theorem mem_paths {Γ : Scope} {t : Term} {path : Path} :
    path ∈ t.paths ↔ (t.nodeAt? Γ path).isSome := by
  induction path generalizing Γ t with
  | nil => simp [paths_eq, nodeAt?]
  | cons i path ih =>
    have hne : i :: path ≠ [] := by simp
    rw [paths_eq, List.mem_cons, or_iff_right hne, mem_pathsFrom, nodeAt?]
    constructor
    · rintro ⟨j, x, rest, hx, heq, hrest⟩
      obtain ⟨rfl, rfl⟩ := List.cons.inj heq
      rw [Nat.zero_add, hx]
      exact ih.mp hrest
    · intro h
      obtain ⟨x, hx⟩ := Option.isSome_iff_exists.mp (Option.isSome_of_isSome_bind h)
      rw [hx] at h
      exact ⟨i, x, path, hx, by rw [Nat.zero_add], ih.mpr h⟩

theorem pairwise_pathsFrom {i : Nat} {ts : List Term}
    (h : ∀ t ∈ ts, t.paths.Pairwise (· < ·)) : (pathsFrom i ts).Pairwise (· < ·) := by
  induction ts generalizing i with
  | nil => exact .nil
  | cons t ts ih =>
    rw [pathsFrom, List.pairwise_append, List.pairwise_map]
    refine ⟨?_, ih fun u hu => h u (List.mem_cons_of_mem t hu), ?_⟩
    · exact (h t List.mem_cons_self).imp fun hlt => List.cons_lt_cons_iff.mpr (.inr ⟨rfl, hlt⟩)
    · intro first hfirst second hsecond
      obtain ⟨rest, -, rfl⟩ := List.mem_map.mp hfirst
      obtain ⟨j, x, rest', -, rfl, -⟩ := mem_pathsFrom.mp hsecond
      exact List.cons_lt_cons_iff.mpr (.inl (by omega))

/-- The list is in lexicographic order, so that it has every position once. -/
theorem pairwise_paths (t : Term) : t.paths.Pairwise (· < ·) := by
  induction t using Term.induct_parts with
  | node t ih =>
    rw [paths_eq, List.pairwise_cons]
    refine ⟨?_, pairwise_pathsFrom ih⟩
    intro path hpath
    obtain ⟨j, x, rest, -, rfl, -⟩ := mem_pathsFrom.mp hpath
    exact List.nil_lt_cons _ _

theorem nodeAt?_cons {Γ : Scope} {t x : Term} {i : Nat} (hx : t.parts[i]? = some x)
    (path : Path) : t.nodeAt? Γ (i :: path) = x.nodeAt? (t.scopeWithin Γ) path := by
  rw [nodeAt?, hx, Option.bind_some]

end Term

end TypedClosures
