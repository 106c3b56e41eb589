import TypedClosures.Proofs.Typing
import TypedClosures.Proofs.Resolution

/-!
# Compiled code is well typed

`Code.WellTyped` is the type system for code: slots have types, and a closure's
body has the types that its loads bring into its slots. `Code.Mirrors` compares
code with the term it came from, node by node. Code compiled from a checked term
is well typed where each slot has the type of the name it was given to, and it
mirrors the term (`compile_wellTyped`).
-/

namespace TypedClosures

namespace Layout

def offset (l : Layout) : Nat := if l.captures = [] then 0 else 1

def argType? (l : Layout) (params : List Ty) (argument : Nat) : Option Ty :=
  if l.offset ≤ argument then params[argument - l.offset]? else none

/-- The types of the body's slots, where `Δ` gives those of the enclosing frame. -/
def slotTypes (l : Layout) (Δ : Slot → Option Ty) (params : List Ty) (n : Slot) : Option Ty :=
  match l.envLoads.find? (·.slot = n) with
  | some load => (l.captures.find? (·.closure = load.closure)).bind fun c => Δ c.parent
  | none => (l.argLoads.find? (·.slot = n)).bind fun load => l.argType? params load.argument

end Layout

namespace Code

inductive WellTyped : (Slot → Option Ty) → Code → Prop
  | slot {Δ : Slot → Option Ty} {s : Span} {τ : Ty} {n : Slot} :
      Δ n = some τ → WellTyped Δ (.slot s τ n)
  | cond {Δ : Slot → Option Ty} {s : Span} {τ : Ty} {c a b : Code} :
      WellTyped Δ c → WellTyped Δ a → WellTyped Δ b →
      c.ty = .bool → a.ty = τ → b.ty = τ → WellTyped Δ (.cond s τ c a b)
  | app {Δ : Slot → Option Ty} {s : Span} {τ : Ty} {f : Code} {xs : List Code} :
      WellTyped Δ f → (∀ x ∈ xs, WellTyped Δ x) →
      f.ty = .curried (xs.map Code.ty) τ → WellTyped Δ (.app s τ f xs)
  | closure {Δ : Slot → Option Ty} {s : Span} {l : Layout} {b : Code} {params : List Ty} :
      params.length = l.arity → WellTyped (l.slotTypes Δ params) b →
      WellTyped Δ (.closure s (.curried params b.ty) l b)

/-- The same tree as the term, with the spans of its nodes; each type is the one
that the node's term has in its scope. -/
inductive Mirrors : Scope → Term → Code → Prop
  | slot {Γ : Scope} {s : Span} {x : Name} {τ : Ty} {n : Slot} :
      HasType Γ (.var s x) τ → Mirrors Γ (.var s x) (.slot s τ n)
  | cond {Γ : Scope} {s : Span} {τ : Ty} {c a b : Term} {c' a' b' : Code} :
      HasType Γ (.cond s c a b) τ → Mirrors Γ c c' → Mirrors Γ a a' → Mirrors Γ b b' →
      Mirrors Γ (.cond s c a b) (.cond s τ c' a' b')
  | app {Γ : Scope} {s : Span} {τ : Ty} {f : Term} {xs : List Term} {f' : Code} {es : List Code} :
      HasType Γ (.app s f xs) τ → Mirrors Γ f f' → xs.length = es.length →
      (∀ x e, (x, e) ∈ xs.zip es → Mirrors Γ x e) → Mirrors Γ (.app s f xs) (.app s τ f' es)
  | closure {Γ : Scope} {s : Span} {τ : Ty} {ps : List Binding} {b : Term} {l : Layout}
      {b' : Code} :
      HasType Γ (.lam s ps b) τ → l.arity = ps.length → Mirrors (Γ.extendAll ps) b b' →
      Mirrors Γ (.lam s ps b) (.closure s τ l b')

end Code

-- ---------------------------------------------------------------------------
-- The types of a body's slots
-- ---------------------------------------------------------------------------

theorem find?_of_unique {α : Type*} {p : α → Bool} {xs : List α} {a : α} (ha : a ∈ xs)
    (hp : p a = true) (h : ∀ b ∈ xs, p b = true → b = a) : xs.find? p = some a := by
  obtain ⟨b, hb⟩ := Option.isSome_iff_exists.mp (List.find?_isSome.mpr ⟨a, ha, hp⟩)
  rw [hb, h b (List.mem_of_find?_eq_some hb) (List.find?_some hb)]

namespace Compile

section
variable {params names : List Name} {place : Name → Slot} {Δ : Slot → Option Ty} {x : Name}

theorem find?_slot {α : Type*} {ys : List Name} {key : α → Slot} {entry : Name → α}
    (hkey : ∀ y, key (entry y) = names.idxOf y) (hys : ∀ y ∈ ys, y ∈ names) (hx : x ∈ ys) :
    (ys.map entry).find? (key · = names.idxOf x) = some (entry x) := by
  refine find?_of_unique (List.mem_map_of_mem hx) (by simp [hkey]) ?_
  intro e he heq
  obtain ⟨y, hy, rfl⟩ := List.mem_map.mp he
  rw [decide_eq_true_eq, hkey] at heq
  rw [(List.idxOf_inj (hys y hy)).mp heq]

theorem offset_layoutOf : (layoutOf params names place).offset = offset params names := by
  rw [Layout.offset, offset, layoutOf]
  simp only [List.map_eq_nil_iff]

theorem slotTypes_of_captured (σs : List Ty) (hx : x ∈ captured params names) :
    (layoutOf params names place).slotTypes Δ σs (names.idxOf x) = Δ (place x) := by
  have henv : (layoutOf params names place).envLoads.find? (·.slot = names.idxOf x) =
      some ⟨names.idxOf x, (captured params names).idxOf x⟩ :=
    find?_slot (fun _ => rfl) (fun y hy => (mem_captured.mp hy).1) hx
  have hcapture : (layoutOf params names place).captures.find?
      (·.closure = (captured params names).idxOf x) =
      some ⟨(captured params names).idxOf x, place x⟩ :=
    find?_slot (fun _ => rfl) (fun _ hy => hy) hx
  rw [Layout.slotTypes, henv]
  simp only [hcapture, Option.bind_some]

theorem slotTypes_of_param (σs : List Ty) (hn : x ∈ names) (hx : x ∈ params) :
    (layoutOf params names place).slotTypes Δ σs (names.idxOf x) =
      σs[lastIndexIn params x]? := by
  have henv : (layoutOf params names place).envLoads.find? (·.slot = names.idxOf x) = none := by
    rw [List.find?_eq_none]
    intro load hload
    obtain ⟨y, hy, rfl⟩ := List.mem_map.mp hload
    obtain ⟨hyn, hyp⟩ := mem_captured.mp hy
    rw [decide_eq_true_eq]
    intro heq
    exact hyp ((List.idxOf_inj hyn).mp heq ▸ hx)
  have harg : (layoutOf params names place).argLoads.find? (·.slot = names.idxOf x) =
      some ⟨names.idxOf x, lastIndexIn params x + offset params names⟩ :=
    find?_slot (fun _ => rfl) (fun y hy => (List.mem_filter.mp hy).1) (by simpa using ⟨hn, hx⟩)
  rw [Layout.slotTypes, henv]
  simp only [harg, Option.bind_some, Layout.argType?, offset_layoutOf]
  rw [if_pos (Nat.le_add_left _ _), Nat.add_sub_cancel]

end

/-- The checker takes a name's type from its innermost binding and the compiler its
argument from the last position; the two agree. -/
theorem slotTypes_layoutOf {Γ : Scope} {ps : List Binding} {names : List Name}
    {place : Name → Slot} {Δ : Slot → Option Ty}
    (hΔ : ∀ y ∈ captured (ps.map Binding.name) names, Δ (place y) = Γ.find? y) {x : Name}
    (hx : x ∈ names) :
    (layoutOf (ps.map Binding.name) names place).slotTypes Δ (ps.map Binding.ty)
      (names.idxOf x) = (Γ.extendAll ps).find? x := by
  by_cases hp : x ∈ ps.map Binding.name
  · rw [slotTypes_of_param _ hx hp, Scope.find?_extendAll_of_mem Γ hp]
  · have hmem := mem_captured.mpr ⟨hx, hp⟩
    rw [slotTypes_of_captured _ hmem, hΔ x hmem, Scope.find?_extendAll_of_not_mem Γ hp]

end Compile

-- ---------------------------------------------------------------------------
-- Typing and shape of resolved witnesses
-- ---------------------------------------------------------------------------

theorem wellTyped_resolve {Γ : Scope} {w : Witness} (h : w.Consistent Γ) {place : Name → Slot}
    {Δ : Slot → Option Ty} (hΔ : ∀ x ∈ w.free, Δ (place x) = Γ.find? x) :
    (w.resolve place).WellTyped Δ := by
  induction h generalizing place Δ with
  | var hx =>
    refine .slot ?_
    rw [hΔ _ (List.mem_singleton_self _)]
    exact Scope.find?_eq_some_iff.mpr hx
  | cond _ _ _ hc ha hb ihc iha ihb =>
    simp only [Witness.free, mem_appendNew] at hΔ
    rw [Witness.resolve]
    refine .cond (ihc fun x hx => hΔ x (.inl (.inl hx))) (iha fun x hx => hΔ x (.inl (.inr hx)))
      (ihb fun x hx => hΔ x (.inr hx)) ?_ ?_ ?_
    · rw [Witness.ty_resolve, hc]
    · rw [Witness.ty_resolve, ha]
    · rw [Witness.ty_resolve, hb]
  | app _ _ hf ihf ihxs =>
    simp only [Witness.free, mem_appendNew, Witness.mem_freeList] at hΔ
    rw [Witness.resolve, Witness.resolveList_eq_map]
    refine .app (ihf fun x hx => hΔ x (.inl hx)) ?_ ?_
    · intro e he
      obtain ⟨w, hw, rfl⟩ := List.mem_map.mp he
      exact ihxs w hw fun x hx => hΔ x (.inr ⟨w, hw, hx⟩)
    · have hty : Code.ty ∘ Witness.resolve place = Witness.ty := funext (Witness.ty_resolve place)
      rw [Witness.ty_resolve, List.map_map, hty, hf]
  | @lam Γ s ps b hps _ ih =>
    have hbody := ih fun x hx => Compile.slotTypes_layoutOf hΔ hx
    rw [Check.abstract, Witness.resolve, ← Witness.ty_resolve b.free.idxOf b]
    exact .closure (by simp [Compile.layoutOf]) hbody

theorem mirrors_resolve {Γ : Scope} {t : Term} {w : Witness} (h : Elaborates Γ t w)
    (place : Name → Slot) : (w.resolve place).Mirrors Γ t := by
  induction h generalizing place with
  | var hx => exact .slot (.var hx)
  | cond hc ha hb hbool hab ihc iha ihb =>
    exact .cond (Elaborates.cond hc ha hb hbool hab).hasType (ihc place) (iha place) (ihb place)
  | app hf hlen hxs hτ ihf ihxs =>
    rw [Witness.resolve, Witness.resolveList_eq_map]
    refine .app (Elaborates.app hf hlen hxs hτ).hasType (ihf place) (by simpa using hlen) ?_
    intro x e hx
    obtain ⟨w, hmem, rfl⟩ := exists_mem_zip hx
    exact ihxs x w hmem place
  | lam hps hb ih =>
    exact .closure (Elaborates.lam hps hb).hasType (by simp [Compile.layoutOf]) (ih _)

/-- Code compiled from a checked term is well typed in the final frame, whose slots
have the types of their names, and mirrors the term. -/
theorem compile_wellTyped {Γ : Scope} {t : Term} {want : Option Ty} {w : Witness}
    (h : (Check.elaborate Γ t want).outcome = .ok w) (frame : SoundFrame) :
    (Compile.compile w frame).value.WellTyped
        (fun i => (Compile.compile w frame).frame.names[i]?.bind Γ.find?) ∧
      (Compile.compile w frame).value.Mirrors Γ t := by
  have he : Elaborates Γ t w := Check.elaborates_of_answer h
  rw [Compile.compile_value w frame]
  refine ⟨wellTyped_resolve he.consistent ?_, mirrors_resolve he _⟩
  intro x hx
  rw [Compile.getElem?_slotOf_compile w frame hx, Option.bind_some]

def repeated : Term :=
  .lam ⟨0, 9⟩ [⟨"p", .base "Int"⟩, ⟨"p", .bool⟩] (.lam ⟨1, 8⟩ [⟨"q", .base "Int"⟩]
    (.app ⟨2, 7⟩ (.var ⟨3, 4⟩ "f") [.var ⟨4, 5⟩ "q", .var ⟨5, 6⟩ "p"]))

theorem compile_wellTyped_repeated :
    let Γ : Scope := [⟨"f", .curried [.base "Int", .bool] (.base "Int")⟩]
    ∃ w, (Check.elaborate Γ repeated none).outcome = .ok w ∧
      (Compile.compile w (Frame.ofNames ["b"])).value.WellTyped
        (fun i => (Compile.compile w (Frame.ofNames ["b"])).frame.names[i]?.bind Γ.find?) ∧
      (Compile.compile w (Frame.ofNames ["b"])).value.Mirrors Γ repeated := by
  intro Γ
  obtain ⟨w, hw⟩ : ∃ w, (Check.elaborate Γ repeated none).outcome = .ok w := by
    rw [Check.elaborate_eq_derive]
    exact ⟨_, rfl⟩
  exact ⟨w, hw, compile_wellTyped hw (.ofNames ["b"])⟩

end TypedClosures
