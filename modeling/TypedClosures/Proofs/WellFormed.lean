import TypedClosures.Proofs.Meaning
import TypedClosures.Proofs.SlotTyping
import Mathlib.Data.List.Perm.Basic

/-!
# Compiled code reads only what was filled

`Layout.WellFormed` says how the parts of a closure fit together: the record is
filled in order, each cell from a slot of its own, and a call fills every slot of
the body exactly once. Code is well formed for a frame of `n` slots when it stays
below `n` and its closures fit together, and when no slot of a body is idle.

All code that compiling makes is well formed. The use of it is that well-formed code
means the same whatever the slots held that nothing was put into
(`Code.WellFormed.denote_eq`).
-/

namespace TypedClosures

/-- How a closure made in a frame of `n` slots fits together. Captures and loads both
go through the cells of the record in order, each once. -/
structure Layout.WellFormed (l : Layout) (n : Nat) : Prop where
  captures_closure : l.captures.map Capture.closure = List.range l.closureSize
  envLoads_closure : l.envLoads.map EnvLoad.closure = List.range l.closureSize
  parents_nodup : (l.captures.map Capture.parent).Nodup
  parent_lt : ∀ c ∈ l.captures, c.parent < n
  argument_mem : ∀ load ∈ l.argLoads,
    l.offset ≤ load.argument ∧ load.argument < l.offset + l.arity
  arguments_nodup : (l.argLoads.map ArgLoad.argument).Nodup
  envSlots_sorted : (l.envLoads.map EnvLoad.slot).Pairwise (· < ·)
  argSlots_sorted : (l.argLoads.map ArgLoad.slot).Pairwise (· < ·)
  slots_perm : (l.envLoads.map EnvLoad.slot ++ l.argLoads.map ArgLoad.slot).Perm
    (List.range l.frameSize)

namespace Code

mutual

/-- The slots read at the code's own level: by itself, or when a closure is made. -/
def reads : Code → List Slot
  | .slot _ _ n => [n]
  | .cond _ _ c a b => c.reads ++ a.reads ++ b.reads
  | .app _ _ f xs => f.reads ++ readsList xs
  | .closure _ _ l _ => l.captures.map Capture.parent

def readsList : List Code → List Slot
  | [] => []
  | e :: es => e.reads ++ readsList es

end

theorem mem_readsList {es : List Code} {k : Slot} :
    k ∈ readsList es ↔ ∃ e ∈ es, k ∈ e.reads := by
  induction es with
  | nil => simp [readsList]
  | cons e es ih => simp [readsList, ih]

inductive WellFormed : Nat → Code → Prop
  | slot {n : Nat} {s : Span} {τ : Ty} {k : Slot} : k < n → WellFormed n (.slot s τ k)
  | cond {n : Nat} {s : Span} {τ : Ty} {c a b : Code} :
      WellFormed n c → WellFormed n a → WellFormed n b → WellFormed n (.cond s τ c a b)
  | app {n : Nat} {s : Span} {τ : Ty} {f : Code} {xs : List Code} :
      WellFormed n f → (∀ x ∈ xs, WellFormed n x) → WellFormed n (.app s τ f xs)
  | closure {n : Nat} {s : Span} {τ : Ty} {l : Layout} {b : Code} :
      l.WellFormed n → WellFormed l.frameSize b → (∀ k < l.frameSize, k ∈ b.reads) →
      WellFormed n (.closure s τ l b)

end Code

-- ---------------------------------------------------------------------------
-- Positions of names
-- ---------------------------------------------------------------------------

section
variable {names : List Name}

theorem map_idxOf (h : names.Nodup) : names.map names.idxOf = List.range names.length := by
  apply List.ext_getElem
  · simp
  · intro i hi _
    simp only [List.length_map] at hi
    simp [h.idxOf_getElem i hi]

theorem pairwise_idxOf (h : names.Nodup) :
    names.Pairwise fun x y => names.idxOf x < names.idxOf y := by
  have hrange : (names.map names.idxOf).Pairwise (· < ·) := by
    rw [map_idxOf h]
    exact List.pairwise_lt_range
  exact List.pairwise_map.mp hrange

theorem sorted_filter_idxOf (h : names.Nodup) (p : Name → Bool) :
    ((names.filter p).map names.idxOf).Pairwise (· < ·) :=
  List.pairwise_map.mpr ((pairwise_idxOf h).filter p)

end

structure Seated (place : Name → Slot) (n : Nat) (names : List Name) : Prop where
  lt : ∀ x ∈ names, place x < n
  inj : ∀ x ∈ names, ∀ y ∈ names, place x = place y → x = y

theorem Seated.of_subset {place : Name → Slot} {n : Nat} {names fewer : List Name}
    (h : Seated place n names) (hsub : ∀ x ∈ fewer, x ∈ names) : Seated place n fewer :=
  ⟨fun x hx => h.lt x (hsub x hx), fun x hx y hy => h.inj x (hsub x hx) y (hsub y hy)⟩

theorem seated_idxOf (names : List Name) : Seated names.idxOf names.length names :=
  ⟨fun _ hx => List.idxOf_lt_length_iff.mpr hx, fun _ hx _ _ heq => (List.idxOf_inj hx).mp heq⟩

namespace Compile

variable {params names : List Name} {place : Name → Slot} {n : Nat}

theorem lastIndexIn_inj {x y : Name} (hx : x ∈ params) (hy : y ∈ params)
    (h : lastIndexIn params x = lastIndexIn params y) : x = y := by
  obtain ⟨hat, -⟩ := lastAt_lastIndexIn hx
  rw [h, (lastAt_lastIndexIn hy).1] at hat
  exact (Option.some.inj hat).symm

-- ---------------------------------------------------------------------------
-- Closures fit together
-- ---------------------------------------------------------------------------

theorem wellFormed_layoutOf (hnames : names.Nodup)
    (hseats : Seated place n (captured params names)) :
    (layoutOf params names place).WellFormed n where
  captures_closure := by
    simp only [layoutOf, List.map_map]
    exact map_idxOf (hnames.filter _)
  envLoads_closure := by
    simp only [layoutOf, List.map_map]
    exact map_idxOf (hnames.filter _)
  parents_nodup := by
    simp only [layoutOf, List.map_map]
    exact (hnames.filter _).map_on hseats.inj
  parent_lt := by
    intro c hc
    obtain ⟨x, hx, rfl⟩ := List.mem_map.mp hc
    exact hseats.lt x hx
  argument_mem := by
    intro load hload
    obtain ⟨x, hx, rfl⟩ := List.mem_map.mp hload
    have hlast : lastIndexIn params x < params.length :=
      lastIndexIn_lt (by simpa using (List.mem_filter.mp hx).2)
    rw [offset_layoutOf]
    simp only [layoutOf]
    omega
  arguments_nodup := by
    simp only [layoutOf, List.map_map]
    refine (hnames.filter _).map_on ?_
    intro x hx y hy heq
    simp only [List.mem_filter, decide_eq_true_eq] at hx hy
    exact lastIndexIn_inj hx.2 hy.2 (Nat.add_right_cancel heq)
  envSlots_sorted := by
    simp only [layoutOf, List.map_map]
    exact sorted_filter_idxOf hnames _
  argSlots_sorted := by
    simp only [layoutOf, List.map_map]
    exact sorted_filter_idxOf hnames _
  slots_perm := by
    have hsplit : (captured params names ++ names.filter (· ∈ params)).Perm names := by
      simpa [captured] using List.filter_append_perm (· ∉ params) names
    simpa [layoutOf, Function.comp_def, map_idxOf hnames] using hsplit.map names.idxOf

end Compile

-- ---------------------------------------------------------------------------
-- Resolved witnesses are well formed
-- ---------------------------------------------------------------------------

theorem mem_reads_resolve {w : Witness} {place : Name → Slot} {x : Name} (hx : x ∈ w.free) :
    place x ∈ (w.resolve place).reads := by
  induction w using Witness.induct with
  | var s τ y =>
    obtain rfl := List.mem_singleton.mp hx
    exact List.mem_singleton_self _
  | cond s τ c a b ihc iha ihb =>
    simp only [Witness.resolve, Code.reads, List.mem_append]
    exact (Witness.mem_free_cond.mp hx).imp (Or.imp ihc iha) ihb
  | app s τ f xs ihf ihxs =>
    simp only [Witness.resolve, Witness.resolveList_eq_map, Code.reads, List.mem_append,
      Code.mem_readsList]
    refine (Witness.mem_free_app.mp hx).imp ihf ?_
    rintro ⟨w, hw, hxw⟩
    exact ⟨w.resolve place, List.mem_map_of_mem hw, ihxs w hw hxw⟩
  | lam s τ ps b _ =>
    simp only [Witness.resolve, Code.reads, Compile.layoutOf, List.map_map]
    exact List.mem_map_of_mem hx

theorem wellFormed_resolve {w : Witness} {place : Name → Slot} {n : Nat}
    (h : Seated place n w.free) : (w.resolve place).WellFormed n := by
  induction w using Witness.induct generalizing place n with
  | var s τ x => exact .slot (h.lt x (List.mem_singleton_self x))
  | cond s τ c a b ihc iha ihb =>
    refine .cond (ihc (h.of_subset ?_)) (iha (h.of_subset ?_)) (ihb (h.of_subset ?_))
    · exact fun x hx => Witness.mem_free_cond.mpr (.inl (.inl hx))
    · exact fun x hx => Witness.mem_free_cond.mpr (.inl (.inr hx))
    · exact fun x hx => Witness.mem_free_cond.mpr (.inr hx)
  | app s τ f xs ihf ihxs =>
    rw [Witness.resolve, Witness.resolveList_eq_map]
    refine .app (ihf (h.of_subset fun x hx => Witness.mem_free_app.mpr (.inl hx))) ?_
    intro e he
    obtain ⟨w, hw, rfl⟩ := List.mem_map.mp he
    exact ihxs w hw (h.of_subset fun x hx => Witness.mem_free_app.mpr (.inr ⟨w, hw, hx⟩))
  | lam s τ ps b ih =>
    refine .closure (Compile.wellFormed_layoutOf b.nodup_free h) (ih (seated_idxOf b.free)) ?_
    intro k hk
    -- The name at position `k` is free in the body, so the body reads its slot.
    have hread : b.free.idxOf b.free[k] ∈ (b.resolve b.free.idxOf).reads :=
      mem_reads_resolve (List.getElem_mem hk)
    rwa [b.nodup_free.idxOf_getElem k hk] at hread

-- ---------------------------------------------------------------------------
-- Slots that nothing was put into do not matter
-- ---------------------------------------------------------------------------

/-- Two stores are filled in step. Where a key is filled they come to agree, and
where they agreed they go on to. -/
theorem foldl_fill_eq {V α : Type*} {key : α → Slot} {step step' : (Slot → V) → α → Slot → V}
    {as : List α} {k : Slot}
    (hstep : ∀ a ∈ as, ∀ cells cells', key a = k ∨ cells k = cells' k →
      step cells a k = step' cells' a k)
    {cells cells' : Slot → V} (h : k ∈ as.map key ∨ cells k = cells' k) :
    as.foldl step cells k = as.foldl step' cells' k := by
  induction as generalizing cells cells' with
  | nil => simpa using h
  | cons a as ih =>
    have hnext : key a = k ∨ cells k = cells' k → step cells a k = step' cells' a k :=
      hstep a List.mem_cons_self cells cells'
    refine ih (fun b hb => hstep b (List.mem_cons_of_mem a hb)) ?_
    simp only [List.map_cons, List.mem_cons] at h
    obtain (hk | hk) | hk := h
    · exact .inr (hnext (.inl hk.symm))
    · exact .inl hk
    · exact .inr (hnext (.inr hk))

theorem foldl_update_eq {V α : Type*} {key : α → Slot} {value value' : α → V} {as : List α}
    {k : Slot} (hvalue : ∀ a ∈ as, value a = value' a) {cells cells' : Slot → V}
    (h : k ∈ as.map key ∨ cells k = cells' k) :
    as.foldl (fun cells a => Function.update cells (key a) (value a)) cells k =
      as.foldl (fun cells a => Function.update cells (key a) (value' a)) cells' k := by
  refine foldl_fill_eq ?_ h
  intro a ha cells cells' hk
  by_cases heq : k = key a
  · simp [heq, hvalue a ha]
  · simpa [heq, Ne.symm heq] using hk

namespace Layout.WellFormed

variable {V : Type*} {l : Layout} {n : Nat} {blank blank' : Blank V} {σ σ' : Slot → V}
  {record record' cells cells' : Slot → V} {values : List V} {k : Slot}

theorem record_eq (h : l.WellFormed n) (hσ : ∀ i < n, σ i = σ' i) (hk : k < l.closureSize) :
    l.record blank σ k = l.record blank' σ' k := by
  refine foldl_update_eq (fun c hc => hσ _ (h.parent_lt c hc)) (.inl ?_)
  rw [h.captures_closure]
  exact List.mem_range.mpr hk

theorem loadEnv_eq (h : l.WellFormed n) (hrecord : ∀ i < l.closureSize, record i = record' i)
    (hk : k ∈ l.envLoads.map EnvLoad.slot ∨ cells k = cells' k) :
    l.loadEnv record cells k = l.loadEnv record' cells' k := by
  refine foldl_update_eq ?_ hk
  intro load hload
  have hclosure : load.closure ∈ List.range l.closureSize := by
    rw [← h.envLoads_closure]
    exact List.mem_map_of_mem hload
  exact hrecord _ (List.mem_range.mp hclosure)

theorem getElem?_arguments (h : l.WellFormed n) (hlen : values.length = l.arity)
    {load : ArgLoad} (hload : load ∈ l.argLoads) (record : Slot → V) :
    (l.arguments record values)[load.argument]? =
      (values[load.argument - l.offset]?).map Argument.value ∧
        load.argument - l.offset < values.length := by
  obtain ⟨hle, hlt⟩ := h.argument_mem load hload
  refine ⟨?_, by omega⟩
  unfold Layout.offset at hle ⊢
  unfold Layout.arguments
  split
  · simp
  · next hcaptures =>
    rw [if_neg hcaptures] at hle
    obtain ⟨i, hi⟩ := Nat.exists_eq_add_of_le' hle
    simp [hi]

theorem loadArgs_eq (h : l.WellFormed n) (hlen : values.length = l.arity)
    (hk : k ∈ l.argLoads.map ArgLoad.slot ∨ cells k = cells' k) :
    l.loadArgs (l.arguments record values) cells k =
      l.loadArgs (l.arguments record' values) cells' k := by
  refine foldl_fill_eq ?_ hk
  intro load hload cells cells' hk
  obtain ⟨hvalue, hlt⟩ := h.getElem?_arguments hlen hload record
  obtain ⟨hvalue', -⟩ := h.getElem?_arguments hlen hload record'
  simp only [hvalue, hvalue', List.getElem?_eq_getElem hlt, Option.map_some]
  by_cases heq : k = load.slot
  · simp [heq]
  · simpa [heq, Ne.symm heq] using hk

theorem store_eq (h : l.WellFormed n) (hσ : ∀ i < n, σ i = σ' i)
    (hlen : values.length = l.arity) (hk : k < l.frameSize) :
    l.store blank σ values k = l.store blank' σ' values k := by
  have hfilled : k ∈ l.envLoads.map EnvLoad.slot ++ l.argLoads.map ArgLoad.slot :=
    h.slots_perm.mem_iff.mpr (List.mem_range.mpr hk)
  -- Arguments are loaded last, so a slot from the record only has to survive them.
  refine h.loadArgs_eq hlen ?_
  obtain henv | harg := List.mem_append.mp hfilled
  · exact .inr (h.loadEnv_eq (fun i hi => h.record_eq hσ hi) (.inl henv))
  · exact .inl harg

end Layout.WellFormed

theorem Code.WellFormed.denote_eq {V : Type*} (I : Interpretation V) {n : Nat} {e : Code}
    (h : e.WellFormed n) {blank blank' : Blank V} {σ σ' : Slot → V} (hσ : ∀ i < n, σ i = σ' i) :
    e.denote I blank σ = e.denote I blank' σ' := by
  induction h generalizing σ σ' with
  | slot hk => exact hσ _ hk
  | cond _ _ _ ihc iha ihb => simp only [Code.denote, ihc hσ, iha hσ, ihb hσ]
  | app _ _ ihf ihxs =>
    simp only [Code.denote, Code.denoteList_eq_map, ihf hσ]
    congr 1
    exact List.map_congr_left fun x hx => ihxs x hx hσ
  | @closure n s τ l b hl _ _ ih =>
    simp only [Code.denote]
    refine congrArg (I.lam l.arity) (funext fun args => ?_)
    exact ih fun k hk => hl.store_eq hσ args.length_toList hk

-- ---------------------------------------------------------------------------
-- All compiled code is well formed
-- ---------------------------------------------------------------------------

/-- Compiling gives code that is well formed for the frame it leaves. So no run of it
reads a slot outside the frame, nor one that was not filled: the meaning depends on
the slots of the frame alone. -/
theorem compile_wellFormed (w : Witness) (frame : SoundFrame) :
    (Compile.compile w frame).value.WellFormed (Compile.compile w frame).frame.size ∧
      ∀ {V : Type*} (I : Interpretation V) (blank blank' : Blank V) (σ σ' : Slot → V),
        (∀ i < (Compile.compile w frame).frame.size, σ i = σ' i) →
        (Compile.compile w frame).value.denote I blank σ =
          (Compile.compile w frame).value.denote I blank' σ' := by
  have hwf : (Compile.compile w frame).value.WellFormed (Compile.compile w frame).frame.size := by
    rw [Compile.compile_value w frame]
    refine wellFormed_resolve ((seated_idxOf _).of_subset ?_)
    exact fun x hx => Compile.mem_names_compile w frame hx
  exact ⟨hwf, fun I blank blank' σ σ' hσ => hwf.denote_eq I hσ⟩

theorem compile_wellFormed_twoLevels :
    let compiled := Compile.compile twoLevels (Frame.ofNames ["b"])
    compiled.frame.size = 2 ∧ compiled.value.WellFormed 2 ∧
      compiled.value.denote digits (fun _ _ _ => 0) id =
        compiled.value.denote digits (fun _ _ i => i + 5) (fun i => if i < 2 then i else 8) := by
  intro compiled
  have hframe : compiled.frame = (Frame.ofNames ["b"]).addAll twoLevels.free :=
    Compile.compile_frame twoLevels (.ofNames ["b"])
  have hsize : compiled.frame.size = 2 := by
    rw [hframe]
    rfl
  obtain ⟨hwf, hmeaning⟩ := compile_wellFormed twoLevels (.ofNames ["b"])
  refine ⟨hsize, hsize ▸ hwf, hmeaning digits _ _ _ _ ?_⟩
  intro i hi
  have hlt : i < 2 := hsize ▸ hi
  simp [hlt]

end TypedClosures
