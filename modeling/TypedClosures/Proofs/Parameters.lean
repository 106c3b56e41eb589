import TypedClosures.Compile.Rules
import TypedClosures.Scope
import Mathlib.Logic.Function.Basic

/-!
# Parameters bind from left to right

Binding parameters one after the other leaves each name with the value at its
last position among the parameters, which is the position that compiling loads a
parameter from. A scope extended by bindings finds types in the same way.
-/

namespace TypedClosures

/-- Gives the names their values in turn, so that a later one overrides an earlier. -/
def bindAll {V : Type*} (ρ : Name → V) : List Name → List V → Name → V
  | x :: xs, v :: vs => bindAll (Function.update ρ x v) xs vs
  | _, _ => ρ

namespace Compile

def lastIndexIn (params : List Name) (x : Name) : Nat := (lastIndexOf? x params).getD 0

theorem lastIndexOf?_eq_some {params : List Name} {x : Name} (hx : x ∈ params) :
    lastIndexOf? x params = some (lastIndexIn params x) := by
  cases h : lastIndexOf? x params with
  | none => exact absurd hx (lastIndexOf?_eq_none_iff.mp h)
  | some i => simp [lastIndexIn, h]

theorem lastIndexIn_cons_of_mem {ps : List Name} {x : Name} (p : Name) (hx : x ∈ ps) :
    lastIndexIn (p :: ps) x = lastIndexIn ps x + 1 := by
  rw [lastIndexIn, lastIndexOf?, lastIndexOf?_eq_some hx]
  rfl

theorem lastIndexIn_cons_self {ps : List Name} {p : Name} (hp : p ∉ ps) :
    lastIndexIn (p :: ps) p = 0 := by
  rw [lastIndexIn, lastIndexOf?, lastIndexOf?_eq_none_iff.mpr hp]
  simp

end Compile

/-- The name stands at position `i` and nowhere after it. -/
def LastAt (params : List Name) (x : Name) (i : Nat) : Prop :=
  params[i]? = some x ∧ ∀ j, i < j → params[j]? ≠ some x

theorem LastAt.mem {params : List Name} {x : Name} {i : Nat} (h : LastAt params x i) :
    x ∈ params :=
  List.mem_of_getElem? h.1

theorem LastAt.unique {params : List Name} {x : Name} {i j : Nat} (hi : LastAt params x i)
    (hj : LastAt params x j) : i = j := by
  obtain hlt | heq | hgt := Nat.lt_trichotomy i j
  · exact absurd hj.1 (hi.2 j hlt)
  · exact heq
  · exact absurd hi.1 (hj.2 i hgt)

theorem LastAt.eq_iff {params : List Name} {x y : Name} {i j : Nat} (hx : LastAt params x i)
    (hy : LastAt params y j) : x = y ↔ i = j := by
  constructor
  · rintro rfl
    exact hx.unique hy
  · rintro rfl
    exact Option.some.inj (hx.1.symm.trans hy.1)

theorem lastAt_lastIndexIn {params : List Name} {x : Name} (hx : x ∈ params) :
    LastAt params x (Compile.lastIndexIn params x) := by
  induction params with
  | nil => cases hx
  | cons p ps ih =>
    by_cases hps : x ∈ ps
    · obtain ⟨hat, hafter⟩ := ih hps
      rw [Compile.lastIndexIn_cons_of_mem p hps]
      refine ⟨hat, ?_⟩
      rintro (_ | j) hj
      · cases hj
      · exact hafter j (Nat.lt_of_succ_lt_succ hj)
    · obtain rfl | hx := List.mem_cons.mp hx
      · rw [Compile.lastIndexIn_cons_self hps]
        refine ⟨rfl, ?_⟩
        rintro (_ | j) hj hat
        · cases hj
        · exact hps (List.mem_of_getElem? hat)
      · exact absurd hx hps

theorem Compile.lastIndexIn_lt {params : List Name} {x : Name} (hx : x ∈ params) :
    lastIndexIn params x < params.length :=
  (List.getElem?_eq_some_iff.mp (lastAt_lastIndexIn hx).1).1

section
variable {V : Type*} {x : Name}

theorem bindAll_of_not_mem (ρ : Name → V) {ps : List Name} (vs : List V) (hx : x ∉ ps) :
    bindAll ρ ps vs x = ρ x := by
  induction ps generalizing ρ vs with
  | nil => cases vs <;> rfl
  | cons p ps ih =>
    obtain ⟨hp, hps⟩ := List.ne_and_not_mem_of_not_mem_cons hx
    cases vs with
    | nil => rfl
    | cons v vs => rw [bindAll, ih _ _ hps, Function.update_of_ne hp]

theorem getElem?_lastIndexIn (ρ : Name → V) {ps : List Name} {vs : List V}
    (hlen : vs.length = ps.length) (hx : x ∈ ps) :
    vs[Compile.lastIndexIn ps x]? = some (bindAll ρ ps vs x) := by
  induction ps generalizing ρ vs with
  | nil => cases hx
  | cons p ps ih =>
    cases vs with
    | nil => cases hlen
    | cons v vs =>
      rw [bindAll]
      by_cases hps : x ∈ ps
      · rw [Compile.lastIndexIn_cons_of_mem p hps, List.getElem?_cons_succ]
        exact ih _ (Nat.succ.inj hlen) hps
      · obtain rfl | hx := List.mem_cons.mp hx
        · rw [Compile.lastIndexIn_cons_self hps, bindAll_of_not_mem _ _ hps,
            Function.update_self]
          rfl
        · exact absurd hx hps

end

theorem Scope.find?_extendAll (Γ : Scope) (ps : List Binding) :
    (Γ.extendAll ps).find? =
      bindAll Γ.find? (ps.map Binding.name) ((ps.map Binding.ty).map some) := by
  induction ps generalizing Γ with
  | nil => rfl
  | cons p ps ih =>
    have hextend : (Γ.extend p).find? = Function.update Γ.find? p.name (some p.ty) := by
      funext x
      simp only [Function.update_apply, Scope.find?_extend, @eq_comm _ x]
    rw [List.map_cons, List.map_cons, List.map_cons, bindAll, ← hextend]
    exact ih (Γ.extend p)

theorem Scope.find?_extendAll_of_mem (Γ : Scope) {ps : List Binding} {x : Name}
    (hx : x ∈ ps.map Binding.name) :
    (Γ.extendAll ps).find? x =
      (ps.map Binding.ty)[Compile.lastIndexIn (ps.map Binding.name) x]? := by
  have hlast := @getElem?_lastIndexIn _ x Γ.find? _ ((ps.map Binding.ty).map some) (by simp) hx
  rw [List.getElem?_map, Option.map_eq_some_iff] at hlast
  obtain ⟨τ, hτ, heq⟩ := hlast
  rw [Scope.find?_extendAll, hτ, heq]

theorem Scope.find?_extendAll_of_not_mem (Γ : Scope) {ps : List Binding} {x : Name}
    (hx : x ∉ ps.map Binding.name) : (Γ.extendAll ps).find? x = Γ.find? x := by
  rw [Scope.find?_extendAll, bindAll_of_not_mem _ _ hx]

end TypedClosures
