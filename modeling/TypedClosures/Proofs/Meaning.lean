import TypedClosures.Proofs.Resolution

/-!
# Closure conversion keeps the meaning

An `Interpretation` says what conditionals, applications and functions mean, in
any type of values. A witness then has a meaning in an environment of names, and
code has one in a store of slots: making a closure fills its record, and calling
it fills the slots of its body from the record and the arguments. If the slots
hold what the names mean, code means what the witness means (`denote_compile`).
-/

namespace TypedClosures

structure Interpretation (V : Type*) where
  ite : V → V → V → V
  app : V → List V → V
  lam : (n : Nat) → (Vector V n → V) → V

variable {V : Type*}

namespace Witness

mutual

def denote (I : Interpretation V) : (Name → V) → Witness → V
  | ρ, .var _ _ x => ρ x
  | ρ, .cond _ _ c a b => I.ite (c.denote I ρ) (a.denote I ρ) (b.denote I ρ)
  | ρ, .app _ _ f xs => I.app (f.denote I ρ) (denoteList I ρ xs)
  | ρ, .lam _ _ ps b => I.lam ps.length fun args => b.denote I (bindAll ρ ps args.toList)

def denoteList (I : Interpretation V) : (Name → V) → List Witness → List V
  | _, [] => []
  | ρ, w :: ws => w.denote I ρ :: denoteList I ρ ws

end

theorem denoteList_eq_map (I : Interpretation V) (ρ : Name → V) (ws : List Witness) :
    denoteList I ρ ws = ws.map (denote I ρ) := by
  induction ws with
  | nil => rfl
  | cons w ws ih => rw [denoteList, ih, List.map_cons]

end Witness

-- ---------------------------------------------------------------------------
-- Calls
-- ---------------------------------------------------------------------------

inductive Argument (V : Type*)
  | record (cells : Slot → V)
  | value (v : V)

/-- What slots hold before they are filled. It may differ from closure to closure
and from call to call. -/
abbrev Blank (V : Type*) := Layout → List V → Slot → V

namespace Layout

def record (l : Layout) (blank : Blank V) (σ : Slot → V) : Slot → V :=
  l.captures.foldl (fun cells c => Function.update cells c.closure (σ c.parent)) (blank l [])

/-- The record goes before the values, unless nothing is captured. -/
def arguments (l : Layout) (record : Slot → V) (values : List V) : List (Argument V) :=
  if l.captures = [] then values.map .value else .record record :: values.map .value

def loadEnv (l : Layout) (record cells : Slot → V) : Slot → V :=
  l.envLoads.foldl (fun cells load => Function.update cells load.slot (record load.closure)) cells

/-- A load from anything but a value leaves the slot as it was. -/
def loadArgs (l : Layout) (arguments : List (Argument V)) (cells : Slot → V) : Slot → V :=
  l.argLoads.foldl (fun cells (load : ArgLoad) =>
    match arguments[load.argument]? with
    | some (.value v) => Function.update cells load.slot v
    | _ => cells) cells

/-- The store of a body when its closure, made in the store `σ`, is called. -/
def store (l : Layout) (blank : Blank V) (σ : Slot → V) (values : List V) : Slot → V :=
  let record := l.record blank σ
  l.loadArgs (l.arguments record values) (l.loadEnv record (blank l values))

end Layout

namespace Code

mutual

def denote (I : Interpretation V) (blank : Blank V) : (Slot → V) → Code → V
  | σ, .slot _ _ n => σ n
  | σ, .cond _ _ c a b =>
    I.ite (c.denote I blank σ) (a.denote I blank σ) (b.denote I blank σ)
  | σ, .app _ _ f xs => I.app (f.denote I blank σ) (denoteList I blank σ xs)
  | σ, .closure _ _ l b =>
    I.lam l.arity fun args => b.denote I blank (l.store blank σ args.toList)

def denoteList (I : Interpretation V) (blank : Blank V) : (Slot → V) → List Code → List V
  | _, [] => []
  | σ, e :: es => e.denote I blank σ :: denoteList I blank σ es

end

theorem denoteList_eq_map (I : Interpretation V) (blank : Blank V) (σ : Slot → V)
    (es : List Code) : denoteList I blank σ es = es.map (denote I blank σ) := by
  induction es with
  | nil => rfl
  | cons e es ih => rw [denoteList, ih, List.map_cons]

end Code

-- ---------------------------------------------------------------------------
-- Filling slots by name
-- ---------------------------------------------------------------------------

section
variable {names : List Name} {value : Name → V} {cells : Slot → V}

def fill (key : Name → Slot) (value : Name → V) (names : List Name) (cells : Slot → V) :
    Slot → V :=
  names.foldl (fun cells x => Function.update cells (key x) (value x)) cells

theorem fill_of_ne {key : Name → Slot} {n : Slot} (h : ∀ y ∈ names, key y ≠ n) :
    fill key value names cells n = cells n := by
  induction names generalizing cells with
  | nil => rfl
  | cons y ys ih =>
    rw [fill, List.foldl_cons]
    refine (ih fun z hz => h z (List.mem_cons_of_mem y hz)).trans ?_
    exact Function.update_of_ne (h y List.mem_cons_self).symm _ _

theorem fill_of_mem {key : Name → Slot} {x : Name} (hx : x ∈ names)
    (h : ∀ y ∈ names, key y = key x → y = x) : fill key value names cells (key x) = value x := by
  induction names generalizing cells with
  | nil => cases hx
  | cons y ys ih =>
    rw [fill, List.foldl_cons]
    by_cases hmem : x ∈ ys
    · exact ih hmem fun z hz => h z (List.mem_cons_of_mem y hz)
    · obtain rfl | hx := List.mem_cons.mp hx
      · refine (fill_of_ne ?_).trans (Function.update_self _ _ _)
        intro z hz hkey
        exact hmem (h z (List.mem_cons_of_mem x hz) hkey ▸ hz)
      · exact absurd hx hmem

end

-- ---------------------------------------------------------------------------
-- The body's store holds what the names mean
-- ---------------------------------------------------------------------------

namespace Compile

section
variable {params names : List Name} {place : Name → Slot} {blank : Blank V} {σ : Slot → V}
  {ρ : Name → V} {values : List V} {x : Name}

theorem record_layoutOf (hx : x ∈ captured params names) :
    (layoutOf params names place).record blank σ ((captured params names).idxOf x) =
      σ (place x) := by
  rw [Layout.record, layoutOf, List.foldl_map]
  exact fill_of_mem hx fun y hy heq => (List.idxOf_inj hy).mp heq

theorem getElem?_arguments (ρ : Name → V) (record : Slot → V)
    (hlen : values.length = params.length) (hx : x ∈ params) :
    ((layoutOf params names place).arguments record values)[lastIndexIn params x +
      offset params names]? = some (.value (bindAll ρ params values x)) := by
  have hvalue : (values.map Argument.value)[lastIndexIn params x]? =
      some (.value (bindAll ρ params values x)) := by
    rw [List.getElem?_map, getElem?_lastIndexIn ρ hlen hx]
    rfl
  rw [Layout.arguments, layoutOf, offset]
  by_cases houter : captured params names = []
  · rw [if_pos houter, if_pos (List.map_eq_nil_iff.mpr houter)]
    exact hvalue
  · rw [if_neg houter, if_neg fun hnil => houter (List.map_eq_nil_iff.mp hnil)]
    exact hvalue

theorem loadEnv_layoutOf (record cells : Slot → V) :
    (layoutOf params names place).loadEnv record cells =
      fill names.idxOf (fun y => record ((captured params names).idxOf y))
        (captured params names) cells := by
  rw [Layout.loadEnv, layoutOf, List.foldl_map, fill]

theorem loadArgs_layoutOf (ρ : Name → V) (record cells : Slot → V)
    (hlen : values.length = params.length) :
    (layoutOf params names place).loadArgs
        ((layoutOf params names place).arguments record values) cells =
      fill names.idxOf (bindAll ρ params values) (names.filter (· ∈ params)) cells := by
  rw [Layout.loadArgs, fill]
  simp only [layoutOf, List.foldl_map]
  apply List.foldl_ext
  intro cells y hy
  have hy : y ∈ params := by simpa using (List.mem_filter.mp hy).2
  have harg := @getElem?_arguments V params names place values y ρ record hlen hy
  rw [layoutOf] at harg
  rw [harg]

theorem store_layoutOf (hlen : values.length = params.length)
    (h : ∀ y ∈ captured params names, σ (place y) = ρ y) (hx : x ∈ names) :
    (layoutOf params names place).store blank σ values (names.idxOf x) =
      bindAll ρ params values x := by
  have hinj : ∀ ys : List Name, (∀ y ∈ ys, y ∈ names) →
      ∀ y ∈ ys, names.idxOf y = names.idxOf x → y = x :=
    fun ys hys y hy heq => (List.idxOf_inj (hys y hy)).mp heq
  rw [Layout.store, loadArgs_layoutOf ρ _ _ hlen, loadEnv_layoutOf]
  by_cases hp : x ∈ params
  · exact fill_of_mem (by simpa using ⟨hx, hp⟩) (hinj _ fun y hy => (List.mem_filter.mp hy).1)
  · have hmem : x ∈ captured params names := mem_captured.mpr ⟨hx, hp⟩
    rw [fill_of_ne, fill_of_mem hmem (hinj _ fun y hy => (mem_captured.mp hy).1),
      record_layoutOf hmem, h x hmem, bindAll_of_not_mem ρ values hp]
    intro y hy heq
    have hyx := hinj _ (fun y hy => (List.mem_filter.mp hy).1) y hy heq
    exact hp (by simpa [hyx] using (List.mem_filter.mp hy).2)

end

end Compile

-- ---------------------------------------------------------------------------
-- Compiling keeps the meaning
-- ---------------------------------------------------------------------------

theorem denote_resolve (I : Interpretation V) (blank : Blank V) {w : Witness}
    {place : Name → Slot} {σ : Slot → V} {ρ : Name → V} (h : ∀ x ∈ w.free, σ (place x) = ρ x) :
    (w.resolve place).denote I blank σ = w.denote I ρ := by
  induction w using Witness.induct generalizing place σ ρ with
  | var s τ x => exact h x (List.mem_singleton_self x)
  | cond s τ c a b ihc iha ihb =>
    simp only [Witness.free, mem_appendNew] at h
    rw [Witness.resolve, Code.denote, Witness.denote, ihc fun x hx => h x (.inl (.inl hx)),
      iha fun x hx => h x (.inl (.inr hx)), ihb fun x hx => h x (.inr hx)]
  | app s τ f xs ihf ihxs =>
    simp only [Witness.free, mem_appendNew, Witness.mem_freeList] at h
    rw [Witness.resolve, Code.denote, Witness.denote, ihf fun x hx => h x (.inl hx),
      Witness.resolveList_eq_map, Code.denoteList_eq_map, Witness.denoteList_eq_map, List.map_map]
    congr 1
    exact List.map_congr_left fun w hw => ihxs w hw fun x hx => h x (.inr ⟨w, hw, hx⟩)
  | lam s τ ps b ih =>
    rw [Witness.resolve, Code.denote, Witness.denote]
    refine congrArg (I.lam ps.length) (funext fun args => ?_)
    exact ih fun x hx => Compile.store_layoutOf args.length_toList h hx

/-- Let the slots of the frame that compiling leaves hold what its names mean.
Then the code means what the witness means, whatever other slots hold. -/
theorem denote_compile (I : Interpretation V) (blank : Blank V) (w : Witness) (frame : SoundFrame)
    {σ : Slot → V} {ρ : Name → V}
    (h : ∀ i x, (Compile.compile w frame).frame.names[i]? = some x → σ i = ρ x) :
    (Compile.compile w frame).value.denote I blank σ = w.denote I ρ := by
  rw [Compile.compile_value w frame]
  exact denote_resolve I blank fun x hx => h _ x (Compile.getElem?_slotOf_compile w frame hx)

def twoLevels : Witness :=
  let τ : Ty := .base "T"
  .lam ⟨0, 9⟩ τ ["p", "q", "p"] (.lam ⟨1, 8⟩ τ ["q"]
    (.app ⟨2, 7⟩ τ (.var ⟨3, 4⟩ τ "f") [.var ⟨4, 5⟩ τ "p", .var ⟨5, 6⟩ τ "q"]))

def digits : Interpretation Nat where
  ite c a b := if c = 0 then b else a
  app f xs := xs.foldl (10 * · + ·) f
  lam n f := 10 * f (Vector.ofFn fun i => i + 1) + n

theorem denote_compile_twoLevels :
    (Compile.compile twoLevels (Frame.ofNames ["b"])).value.denote digits (fun _ _ _ => 5)
      (fun i => if i = 1 then 7 else 9) = 73113 := by
  refine (denote_compile digits _ twoLevels (.ofNames ["b"])
    (ρ := fun x => if x = "f" then 7 else 9) ?_).trans rfl
  rw [Compile.compile_frame]
  intro i x hx
  match i with
  | 0 => cases hx; rfl
  | 1 => cases hx; rfl
  | i + 2 => cases hx

end TypedClosures
