import TypedClosures.Proofs.Typing
import TypedClosures.Proofs.Resolution

/-!
# Frames hold the free names

Compiling never computes free names: they are what is left over in the frames of
bodies, and is passed outwards closure by closure. `Witness.freeNames` says which they
are and in which order, by listing the free occurrences from left to right. Every frame
holds the free names of its level and every closure captures its own, in that order
(`compile_freeNames`).
-/

namespace TypedClosures

-- ---------------------------------------------------------------------------
-- First occurrences
-- ---------------------------------------------------------------------------

theorem eraseDups_filter (p : Name → Bool) (xs : List Name) :
    (xs.filter p).eraseDups = xs.eraseDups.filter p := by
  match xs with
  | [] => rfl
  | x :: xs =>
    -- The recursion is on the rest without `x`, as in `List.eraseDups_cons`.
    have ih := eraseDups_filter p (xs.filter (!· == x))
    rw [List.filter_filter] at ih
    rw [List.eraseDups_cons]
    cases hx : p x with
    | true =>
      rw [List.filter_cons_of_pos hx, List.filter_cons_of_pos hx, List.eraseDups_cons,
        List.filter_filter, ← ih]
      simp only [Bool.and_comm]
    | false =>
      rw [List.filter_cons_of_neg (by simp [hx]), List.filter_cons_of_neg (by simp [hx]), ← ih]
      congr 1
      apply List.filter_congr
      intro y _
      by_cases hy : y = x
      · simp [hy, hx]
      · simp [hy]
termination_by xs.length
decreasing_by exact Nat.lt_succ_of_le (List.length_filter_le _ _)

theorem eraseDups_append_eq (xs ys : List Name) :
    (xs ++ ys).eraseDups = appendNew xs.eraseDups ys.eraseDups := by
  rw [List.eraseDups_append, List.removeAll, eraseDups_filter, appendNew]
  congr 1
  apply List.filter_congr
  intro y _
  simp [List.mem_eraseDups]

namespace Witness

mutual

def occurrences : Witness → List Name
  | .var _ _ x => [x]
  | .cond _ _ c a b => c.occurrences ++ a.occurrences ++ b.occurrences
  | .app _ _ f xs => f.occurrences ++ occurrencesList xs
  | .lam _ _ ps b => b.occurrences.filter (· ∉ ps)

def occurrencesList : List Witness → List Name
  | [] => []
  | w :: ws => w.occurrences ++ occurrencesList ws

end

/-- The names that occur free, each once, in the order of their first occurrence. -/
def freeNames (w : Witness) : List Name := w.occurrences.eraseDups

theorem freeList_eq {ws : List Witness} (h : ∀ w ∈ ws, w.free = w.freeNames) :
    freeList ws = (occurrencesList ws).eraseDups := by
  induction ws with
  | nil => rfl
  | cons w ws ih =>
    rw [freeList, occurrencesList, eraseDups_append_eq, h w List.mem_cons_self,
      ih fun v hv => h v (List.mem_cons_of_mem w hv), freeNames]

theorem free_eq_freeNames (w : Witness) : w.free = w.freeNames := by
  induction w using Witness.induct with
  | var s τ x => rfl
  | cond s τ c a b ihc iha ihb =>
    rw [free, freeNames, occurrences, eraseDups_append_eq, eraseDups_append_eq, ihc, iha, ihb]
    rfl
  | app s τ f xs ihf ihxs =>
    rw [free, freeNames, occurrences, eraseDups_append_eq, ihf, freeList_eq ihxs]
    rfl
  | lam s τ ps b ih =>
    rw [free, freeNames, occurrences, eraseDups_filter, ih]
    rfl

end Witness

-- ---------------------------------------------------------------------------
-- What closures capture
-- ---------------------------------------------------------------------------

/-- `CapturesFree frame w e`: in the code `e` of `w`, at a level that has its names in
`frame`, variables are read from the slots of their names. Each closure captures its
free names in order, each from its slot at the level that the closure stands in, and
its body is compiled in a frame that comes to hold the body's free names in order. -/
inductive Code.CapturesFree : Frame → Witness → Code → Prop
  | slot {frame : Frame} {s : Span} {τ : Ty} {x : Name} {n : Slot} :
      frame.find? x = some n → CapturesFree frame (.var s τ x) (.slot s τ n)
  | cond {frame : Frame} {s : Span} {τ : Ty} {c a b : Witness} {c' a' b' : Code} :
      CapturesFree frame c c' → CapturesFree frame a a' → CapturesFree frame b b' →
      CapturesFree frame (.cond s τ c a b) (.cond s τ c' a' b')
  | app {frame : Frame} {s : Span} {τ : Ty} {f : Witness} {ws : List Witness} {f' : Code}
      {es : List Code} :
      CapturesFree frame f f' → ws.length = es.length →
      (∀ w e, (w, e) ∈ ws.zip es → CapturesFree frame w e) →
      CapturesFree frame (.app s τ f ws) (.app s τ f' es)
  | closure {frame : Frame} {s : Span} {τ : Ty} {ps : List Name} {b : Witness} {l : Layout}
      {body : Compile.Emitted Code} :
      List.Forall₂ (fun x (c : Capture) => frame.find? x = some c.parent)
        (Witness.freeNames (.lam s τ ps b)) l.captures →
      Compile.compile b .empty = body → body.frame.names.toList = b.freeNames →
      body.frame.size = l.frameSize → CapturesFree body.frame b body.value →
      CapturesFree frame (.lam s τ ps b) (.closure s τ l body.value)

theorem Compile.slotOf_compile_empty (w : Witness) :
    (compile w .empty).frame.slotOf = w.free.idxOf := by
  funext x
  rw [Frame.slotOf, toList_compile_empty]

theorem capturesFree_resolve {w : Witness} (frame : SoundFrame)
    (hw : ∀ x ∈ w.free, x ∈ frame.names.toList) :
    Code.CapturesFree frame w (w.resolve frame.slotOf) := by
  induction w using Witness.induct generalizing frame with
  | var s τ x => exact .slot (frame.sound.find?_slotOf (hw x (List.mem_singleton_self x)))
  | cond s τ c a b ihc iha ihb =>
    simp only [Witness.mem_free_cond] at hw
    refine .cond (ihc frame ?_) (iha frame ?_) (ihb frame ?_)
    · exact fun x hx => hw x (.inl (.inl hx))
    · exact fun x hx => hw x (.inl (.inr hx))
    · exact fun x hx => hw x (.inr hx)
  | app s τ f ws ihf ihws =>
    simp only [Witness.mem_free_app] at hw
    rw [Witness.resolve, Witness.resolveList_eq_map]
    have hws : List.Forall₂ (Code.CapturesFree frame) ws (ws.map (Witness.resolve frame.slotOf)) :=
      List.forall₂_map_right_iff.mpr (List.forall₂_same.mpr fun w hmem =>
        ihws w hmem frame fun x hx => hw x (.inr ⟨w, hmem, hx⟩))
    obtain ⟨hlen, hws⟩ := List.forall₂_iff_zip.mp hws
    exact .app (ihf frame fun x hx => hw x (.inl hx)) hlen fun w e hwe => hws hwe
  | lam s τ ps b ih =>
    -- The body is a level of its own, whose final frame is the one it is compiled in.
    have hbody : (Compile.compile b .empty).value =
        b.resolve (Compile.compile b .empty).frame.slotOf :=
      Compile.compile_value b .empty
    have hcode : Code.CapturesFree (Compile.compile b .empty).frame b
        (Compile.compile b .empty).value := by
      rw [hbody]
      exact ih (Compile.frameAfter b .empty) fun x hx => Compile.mem_names_compile b .empty hx
    have hnames : (Compile.compile b .empty).frame.names.toList = b.freeNames := by
      rw [Compile.toList_compile_empty, b.free_eq_freeNames]
    rw [Witness.resolve, ← Compile.slotOf_compile_empty, ← hbody]
    refine .closure ?_ rfl hnames ?_ hcode
    · rw [← Witness.free_eq_freeNames]
      refine List.forall₂_map_right_iff.mpr (List.forall₂_same.mpr ?_)
      exact fun x hx => frame.sound.find?_slotOf (hw x hx)
    · rw [Frame.size, ← Array.length_toList, Compile.toList_compile_empty]
      rfl

-- ---------------------------------------------------------------------------
-- Free names are bound outside
-- ---------------------------------------------------------------------------

theorem Witness.Consistent.binds_of_mem_free {Γ : Scope} {w : Witness} (h : w.Consistent Γ)
    {x : Name} (hx : x ∈ w.free) : ∃ τ, Γ.Binds x τ := by
  induction h with
  | var hy =>
    obtain rfl := List.mem_singleton.mp hx
    exact ⟨_, hy⟩
  | cond _ _ _ _ _ _ ihc iha ihb =>
    rcases Witness.mem_free_cond.mp hx with (hx | hx) | hx
    · exact ihc hx
    · exact iha hx
    · exact ihb hx
  | app _ _ _ ihf ihxs =>
    rcases Witness.mem_free_app.mp hx with hx | ⟨w, hw, hx⟩
    · exact ihf hx
    · exact ihxs w hw hx
  | lam _ _ ih =>
    obtain ⟨hb, hps⟩ := Compile.mem_captured.mp hx
    obtain ⟨τ, hτ⟩ := ih hb
    rw [← Scope.find?_eq_some_iff, Scope.find?_extendAll_of_not_mem _ hps] at hτ
    exact ⟨τ, Scope.find?_eq_some_iff.mp hτ⟩

-- ---------------------------------------------------------------------------
-- Every level
-- ---------------------------------------------------------------------------

/-- Compiling leaves the names of the frame where they are and adds the free names that
are new, in order; and so at every level inside. If the witness is of a term, these are
names of the term's scope, so that no parameter comes to stand in a frame further out
unless it occurs free there. -/
theorem compile_freeNames (w : Witness) (frame : SoundFrame) :
    let compiled := Compile.compile w frame
    compiled.frame.names.toList =
        frame.names.toList ++ w.freeNames.filter (· ∉ frame.names.toList) ∧
      (∀ x slot, frame.find? x = some slot → compiled.frame.find? x = some slot) ∧
      Code.CapturesFree compiled.frame w compiled.value ∧
      ∀ Γ t want, (Check.elaborate Γ t want).outcome = .ok w →
        (∀ x ∈ w.freeNames, ∃ τ, Γ.Binds x τ) ∧
        ∀ x ∈ compiled.frame.names.toList,
          x ∈ frame.names.toList ∨ (x ∈ w.freeNames ∧ ∃ τ, Γ.Binds x τ) := by
  intro compiled
  have hnames : compiled.frame.names.toList =
      frame.names.toList ++ w.freeNames.filter (· ∉ frame.names.toList) := by
    rw [← w.free_eq_freeNames]
    simp only [compiled, Compile.compile_frame w frame]
    exact frame.sound.toList_addAll w.nodup_free
  refine ⟨hnames, ?_, ?_, ?_⟩
  · intro x slot hslot
    rw [frame.sound, ← Array.getElem?_toList] at hslot
    have hsound : compiled.frame.Sound := (Compile.frameAfter w frame).sound
    rw [hsound, ← Array.getElem?_toList, hnames]
    obtain ⟨hlt, -⟩ := List.getElem?_eq_some_iff.mp hslot
    rw [List.getElem?_append_left hlt]
    exact hslot
  · simp only [compiled]
    rw [Compile.compile_value w frame]
    exact capturesFree_resolve (Compile.frameAfter w frame)
      fun x hx => Compile.mem_names_compile w frame hx
  · intro Γ t want ht
    have hbound : ∀ x ∈ w.freeNames, ∃ τ, Γ.Binds x τ := by
      intro x hx
      rw [← w.free_eq_freeNames] at hx
      exact (Check.elaborates_of_answer ht).consistent.binds_of_mem_free hx
    refine ⟨hbound, ?_⟩
    intro x hx
    rw [hnames, List.mem_append] at hx
    rcases hx with hold | hnew
    · exact .inl hold
    · have hfree := (List.mem_filter.mp hnew).1
      exact .inr ⟨hfree, hbound x hfree⟩

def shadowed : Term :=
  .app ⟨0, 9⟩ (.var ⟨0, 1⟩ "f") [.lam ⟨2, 6⟩ [⟨"x", .base "Int"⟩]
    (.app ⟨3, 6⟩ (.var ⟨3, 4⟩ "g") [.var ⟨5, 6⟩ "x"]), .var ⟨8, 9⟩ "x"]

theorem compile_freeNames_shadowed :
    let Γ : Scope := [⟨"f", .curried [.arrow (.base "Int") .bool, .bool] .bool⟩,
      ⟨"g", .arrow (.base "Int") .bool⟩, ⟨"x", .bool⟩]
    ∃ w, (Check.elaborate Γ shadowed none).outcome = .ok w ∧ w.freeNames = ["f", "g", "x"] ∧
      (Compile.compile w (Frame.ofNames ["x"])).frame.names.toList = ["x", "f", "g"] ∧
      Code.CapturesFree (Compile.compile w (Frame.ofNames ["x"])).frame w
        (Compile.compile w (Frame.ofNames ["x"])).value ∧
      ∀ x ∈ w.freeNames, ∃ τ, Γ.Binds x τ := by
  intro Γ
  obtain ⟨w, hw, hfree⟩ : ∃ w, (Check.elaborate Γ shadowed none).outcome = .ok w ∧
      w.freeNames = ["f", "g", "x"] := by
    rw [Check.elaborate_eq_derive]
    exact ⟨_, rfl, by decide +kernel⟩
  obtain ⟨hnames, -, hcode, hbound⟩ := compile_freeNames w (.ofNames ["x"])
  rw [hfree] at hnames
  exact ⟨w, hw, hfree, hnames, hcode, (hbound Γ shadowed none hw).1⟩

end TypedClosures
