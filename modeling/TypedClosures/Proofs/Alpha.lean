import TypedClosures.Proofs.SlotTyping

/-!
# Compiling forgets bound names, and nothing else

Two witnesses are `AlphaEq` when they have the same tree and types, and each variable
means the same in both. A variable that a lambda binds is known by that lambda and by
its last position among the parameters, any other by its name (`SameVariable`).

Variables that mean the same are paired one to one, so the free names of two such
witnesses stand in the same order, and slots, which are positions in that order, come
out equal. Conversely the layouts of two closures, if equal, tell for each slot which
parameter or which outer slot it stands for. So compiling makes the same of two
witnesses exactly if they are `AlphaEq` (`compile_alike_iff_alphaEq`).
-/

namespace TypedClosures

/-- The parameters of the lambdas around two nodes, from the innermost outwards. -/
abbrev Binders := List (List Name × List Name)

/-- The names mean the same variable, each in its own place under the binders. -/
inductive SameVariable : Binders → Name → Name → Prop
  | free {x : Name} : SameVariable [] x x
  | bound {B : Binders} {ps qs : List Name} {x y : Name} {i : Nat} :
      LastAt ps x i → LastAt qs y i → SameVariable ((ps, qs) :: B) x y
  | outer {B : Binders} {ps qs : List Name} {x y : Name} :
      x ∉ ps → y ∉ qs → SameVariable B x y → SameVariable ((ps, qs) :: B) x y

namespace Witness

inductive AlphaIn : Binders → Witness → Witness → Prop
  | var {B : Binders} {s s' : Span} {τ : Ty} {x y : Name} :
      SameVariable B x y → AlphaIn B (.var s τ x) (.var s' τ y)
  | cond {B : Binders} {s s' : Span} {τ : Ty} {c a b c' a' b' : Witness} :
      AlphaIn B c c' → AlphaIn B a a' → AlphaIn B b b' →
      AlphaIn B (.cond s τ c a b) (.cond s' τ c' a' b')
  | app {B : Binders} {s s' : Span} {τ : Ty} {f f' : Witness} {xs ys : List Witness} :
      AlphaIn B f f' → xs.length = ys.length → (∀ x y, (x, y) ∈ xs.zip ys → AlphaIn B x y) →
      AlphaIn B (.app s τ f xs) (.app s' τ f' ys)
  | lam {B : Binders} {s s' : Span} {τ : Ty} {ps qs : List Name} {b b' : Witness} :
      ps.length = qs.length → AlphaIn ((ps, qs) :: B) b b' →
      AlphaIn B (.lam s τ ps b) (.lam s' τ qs b')

/-- The same up to spans and the names of parameters. -/
def AlphaEq (v w : Witness) : Prop := AlphaIn [] v w

end Witness

-- ---------------------------------------------------------------------------
-- Variables are paired one to one
-- ---------------------------------------------------------------------------

namespace SameVariable

variable {B : Binders} {ps qs : List Name} {x y : Name}

theorem eq_iff {x' y' : Name} (h : SameVariable B x y) (h' : SameVariable B x' y') :
    x = x' ↔ y = y' := by
  induction h with
  | free =>
    cases h'
    rfl
  | bound hx hy =>
    cases h' with
    | bound hx' hy' => exact (hx.eq_iff hx').trans (hy.eq_iff hy').symm
    | outer hx' hy' _ =>
      -- A parameter here and a name from further out differ on both sides.
      constructor
      · rintro rfl
        exact absurd hx.mem hx'
      · rintro rfl
        exact absurd hy.mem hy'
  | outer hx hy _ ih =>
    cases h' with
    | bound hx' hy' =>
      constructor
      · rintro rfl
        exact absurd hx'.mem hx
      · rintro rfl
        exact absurd hy'.mem hy
    | outer _ _ h' => exact ih h'

theorem biUnique (B : Binders) : Relator.BiUnique (SameVariable B) :=
  ⟨fun _ _ _ h h' => (h.eq_iff h').mpr rfl, fun _ _ _ h h' => (h.eq_iff h').mp rfl⟩

theorem mem_iff (h : SameVariable ((ps, qs) :: B) x y) : x ∈ ps ↔ y ∈ qs := by
  cases h with
  | bound hx hy => exact iff_of_true hx.mem hy.mem
  | outer hx hy _ => exact iff_of_false hx hy

theorem of_not_mem (h : SameVariable ((ps, qs) :: B) x y) (hx : x ∉ ps) : SameVariable B x y := by
  cases h with
  | bound hx' _ => exact absurd hx'.mem hx
  | outer _ _ h => exact h

theorem lastIndexIn_eq (h : SameVariable ((ps, qs) :: B) x y) (hx : x ∈ ps) :
    Compile.lastIndexIn ps x = Compile.lastIndexIn qs y := by
  cases h with
  | bound hx hy =>
    exact ((lastAt_lastIndexIn hx.mem).unique hx).trans (hy.unique (lastAt_lastIndexIn hy.mem))
  | outer hx' _ _ => exact absurd hx hx'

end SameVariable

-- ---------------------------------------------------------------------------
-- Lists of paired names
-- ---------------------------------------------------------------------------

theorem map_eq_map_iff_forall₂ {α β γ : Type*} {f : α → γ} {g : β → γ} {xs : List α}
    {ys : List β} : xs.map f = ys.map g ↔ List.Forall₂ (fun x y => f x = g y) xs ys := by
  rw [← List.forall₂_eq_eq_eq, List.forall₂_map_left_iff, List.forall₂_map_right_iff]

section
variable {B : Binders} {xs ys xs' ys' : List Name}

theorem forall₂_appendNew (h : List.Forall₂ (SameVariable B) xs ys)
    (h' : List.Forall₂ (SameVariable B) xs' ys') :
    List.Forall₂ (SameVariable B) (appendNew xs xs') (appendNew ys ys') := by
  refine List.rel_append h (List.rel_filter ?_ h')
  intro x y hxy
  simp [List.rel_mem (SameVariable.biUnique B) hxy h]

theorem idxOf_eq_idxOf (h : List.Forall₂ (SameVariable B) xs ys) {x y : Name}
    (hxy : SameVariable B x y) : xs.idxOf x = ys.idxOf y := by
  induction h with
  | nil => rfl
  | @cons a b _ _ hab _ ih =>
    by_cases hb : b = y
    · rw [List.idxOf_cons_eq _ ((hab.eq_iff hxy).mpr hb), List.idxOf_cons_eq _ hb]
    · rw [List.idxOf_cons_ne _ (mt (hab.eq_iff hxy).mp hb), List.idxOf_cons_ne _ hb, ih]

end

namespace Compile

variable {B : Binders} {ps qs names names' : List Name} {p q : Name → Slot}

theorem forall₂_captured (h : List.Forall₂ (SameVariable ((ps, qs) :: B)) names names') :
    List.Forall₂ (fun x y => SameVariable ((ps, qs) :: B) x y ∧ SameVariable B x y)
      (captured ps names) (captured qs names') := by
  have hinner : List.Forall₂ (SameVariable ((ps, qs) :: B)) (captured ps names)
      (captured qs names') :=
    List.rel_filter (fun x y hxy => by simp [hxy.mem_iff]) h
  have hfree : ∀ x ∈ captured ps names, x ∉ ps := fun x hx => (mem_captured.mp hx).2
  refine ((List.forall₂_and_left _ _).mpr ⟨hfree, hinner⟩).imp ?_
  rintro x y ⟨hx, hxy⟩
  exact ⟨hxy, hxy.of_not_mem hx⟩

theorem layoutOf_eq (hlen : ps.length = qs.length)
    (hnames : List.Forall₂ (SameVariable ((ps, qs) :: B)) names names')
    (hplace : ∀ x y, SameVariable B x y → p x = q y) :
    layoutOf ps names p = layoutOf qs names' q := by
  have houter := forall₂_captured hnames
  have hslot : ∀ x y, SameVariable ((ps, qs) :: B) x y → names.idxOf x = names'.idxOf y :=
    fun x y hxy => idxOf_eq_idxOf hnames hxy
  have hcell : ∀ x y, SameVariable B x y →
      (captured ps names).idxOf x = (captured qs names').idxOf y :=
    fun x y hxy => idxOf_eq_idxOf (houter.imp fun _ _ h => h.2) hxy
  have hoffset : offset ps names = offset qs names' := by
    simp only [offset, ← List.length_eq_zero_iff, houter.length_eq]
  have hparams : List.Forall₂ (fun x y => x ∈ ps ∧ SameVariable ((ps, qs) :: B) x y)
      (names.filter (· ∈ ps)) (names'.filter (· ∈ qs)) := by
    refine (List.forall₂_and_left _ _).mpr ⟨?_, List.rel_filter ?_ hnames⟩
    · exact fun x hx => by simpa using (List.mem_filter.mp hx).2
    · exact fun x y hxy => by simp [hxy.mem_iff]
  simp only [layoutOf, Layout.mk.injEq]
  refine ⟨hlen, houter.length_eq, ?_, hnames.length_eq, ?_, ?_⟩
  · refine map_eq_map_iff_forall₂.mpr (houter.imp ?_)
    rintro x y ⟨-, hxy⟩
    rw [hcell x y hxy, hplace x y hxy]
  · refine map_eq_map_iff_forall₂.mpr (houter.imp ?_)
    rintro x y ⟨hin, hxy⟩
    rw [hslot x y hin, hcell x y hxy]
  · refine map_eq_map_iff_forall₂.mpr (hparams.imp ?_)
    rintro x y ⟨hx, hxy⟩
    rw [hslot x y hxy, hxy.lastIndexIn_eq hx, hoffset]

end Compile

-- ---------------------------------------------------------------------------
-- Renaming bound names does not change the code
-- ---------------------------------------------------------------------------

namespace Witness

variable {B : Binders} {v w : Witness}

theorem forall₂_freeList {vs ws : List Witness}
    (h : List.Forall₂ (fun v w => List.Forall₂ (SameVariable B) v.free w.free) vs ws) :
    List.Forall₂ (SameVariable B) (freeList vs) (freeList ws) := by
  induction h with
  | nil => exact .nil
  | cons hvw _ ih => exact forall₂_appendNew hvw ih

theorem AlphaIn.forall₂_free (h : AlphaIn B v w) :
    List.Forall₂ (SameVariable B) v.free w.free := by
  induction h with
  | var h => exact .cons h .nil
  | cond _ _ _ ihc iha ihb => exact forall₂_appendNew (forall₂_appendNew ihc iha) ihb
  | app _ hlen _ ihf ihxs =>
    refine forall₂_appendNew ihf (forall₂_freeList ?_)
    exact List.forall₂_iff_zip.mpr ⟨hlen, fun {x y} hxy => ihxs x y hxy⟩
  | lam _ _ ih => exact (Compile.forall₂_captured ih).imp fun _ _ h => h.2

theorem AlphaIn.bare_resolve (h : AlphaIn B v w) {p q : Name → Slot}
    (hplace : ∀ x y, SameVariable B x y → p x = q y) :
    (v.resolve p).bare = (w.resolve q).bare := by
  induction h generalizing p q with
  | var h => simp only [resolve, Code.bare, hplace _ _ h]
  | cond _ _ _ ihc iha ihb =>
    simp only [resolve, Code.bare, ihc hplace, iha hplace, ihb hplace]
  | app _ hlen _ ihf ihxs =>
    simp only [resolve, Code.bare, ihf hplace, Code.bareList_eq_map, resolveList_eq_map,
      List.map_map]
    congr 1
    refine map_eq_map_iff_forall₂.mpr (List.forall₂_iff_zip.mpr ⟨hlen, ?_⟩)
    exact fun {x y} hxy => ihxs x y hxy hplace
  | lam hlen hb ih =>
    -- The slots of the bodies are positions among their free names, which are paired.
    have hfree := hb.forall₂_free
    have hbody := ih fun x y hxy => idxOf_eq_idxOf hfree hxy
    simp only [resolve, Code.bare, Compile.layoutOf_eq hlen hfree hplace, hbody]

end Witness

-- ---------------------------------------------------------------------------
-- The code tells what each variable means
-- ---------------------------------------------------------------------------

namespace Compile

variable {B : Binders} {ps qs names names' : List Name} {p q : Name → Slot} {x y : Name}

theorem lastIndexIn_of_layoutOf (hl : layoutOf ps names p = layoutOf qs names' q)
    (hx : x ∈ names) (hp : x ∈ ps) (hxy : names.idxOf x = names'.idxOf y) :
    y ∈ qs ∧ lastIndexIn qs y = lastIndexIn ps x := by
  have hoffset : offset ps names = offset qs names' := by
    simpa only [offset_layoutOf] using congrArg Layout.offset hl
  have hload : ⟨names.idxOf x, lastIndexIn ps x + offset ps names⟩ ∈
      (layoutOf ps names p).argLoads :=
    List.mem_map_of_mem (by simpa using ⟨hx, hp⟩)
  rw [hl] at hload
  obtain ⟨z, hz, heq⟩ := List.mem_map.mp hload
  simp only [List.mem_filter, decide_eq_true_eq] at hz
  simp only [ArgLoad.mk.injEq] at heq
  obtain ⟨hslot, harg⟩ := heq
  obtain rfl : z = y := (List.idxOf_inj hz.1).mp (hslot.trans hxy)
  exact ⟨hz.2, by omega⟩

theorem place_of_layoutOf (hl : layoutOf ps names p = layoutOf qs names' q)
    (hx : x ∈ captured ps names) (hxy : names.idxOf x = names'.idxOf y) :
    y ∈ captured qs names' ∧ p x = q y := by
  have hload : ⟨names.idxOf x, (captured ps names).idxOf x⟩ ∈ (layoutOf ps names p).envLoads :=
    List.mem_map_of_mem hx
  have hcapture : ⟨(captured ps names).idxOf x, p x⟩ ∈ (layoutOf ps names p).captures :=
    List.mem_map_of_mem hx
  rw [hl] at hload hcapture
  obtain ⟨z, hz, heq⟩ := List.mem_map.mp hload
  simp only [EnvLoad.mk.injEq] at heq
  obtain ⟨hslot, hcell⟩ := heq
  obtain rfl : z = y := (List.idxOf_inj (mem_captured.mp hz).1).mp (hslot.trans hxy)
  obtain ⟨u, hu, heq⟩ := List.mem_map.mp hcapture
  simp only [Capture.mk.injEq] at heq
  obtain ⟨hcell', hparent⟩ := heq
  obtain rfl : u = z := (List.idxOf_inj hu).mp (hcell'.trans hcell.symm)
  exact ⟨hz, hparent.symm⟩

theorem sameVariable_of_layoutOf (hl : layoutOf ps names p = layoutOf qs names' q)
    (hplace : ∀ x ∈ captured ps names, ∀ y ∈ captured qs names', p x = q y → SameVariable B x y)
    (hx : x ∈ names) (hxy : names.idxOf x = names'.idxOf y) :
    SameVariable ((ps, qs) :: B) x y := by
  by_cases hp : x ∈ ps
  · obtain ⟨hq, hlast⟩ := lastIndexIn_of_layoutOf hl hx hp hxy
    exact .bound (lastAt_lastIndexIn hp) (hlast ▸ lastAt_lastIndexIn hq)
  · have hcaptured := mem_captured.mpr ⟨hx, hp⟩
    obtain ⟨hy, hpq⟩ := place_of_layoutOf hl hcaptured hxy
    exact .outer hp (mem_captured.mp hy).2 (hplace x hcaptured y hy hpq)

end Compile

/-- The induction carries the places along: equal places outside mean the same variable,
and the layouts of two closures extend this to the slots of their bodies. -/
theorem Witness.alphaIn_of_bare_eq {B : Binders} {v w : Witness} {p q : Name → Slot}
    (h : (v.resolve p).bare = (w.resolve q).bare)
    (hplace : ∀ x ∈ v.free, ∀ y ∈ w.free, p x = q y → SameVariable B x y) : AlphaIn B v w := by
  induction v using Witness.induct generalizing B w p q with
  | var s τ x =>
    cases w with
    | var s' τ' y =>
      simp only [resolve, Code.bare, Code.slot.injEq, true_and] at h
      obtain ⟨rfl, hslot⟩ := h
      exact .var (hplace x (List.mem_singleton_self x) y (List.mem_singleton_self y) hslot)
    | _ => simp [resolve, Code.bare] at h
  | cond s τ c a b ihc iha ihb =>
    cases w with
    | cond s' τ' c' a' b' =>
      simp only [resolve, Code.bare, Code.cond.injEq, true_and] at h
      obtain ⟨rfl, hc, ha, hb⟩ := h
      simp only [mem_free_cond] at hplace
      refine .cond (ihc hc ?_) (iha ha ?_) (ihb hb ?_)
      · exact fun x hx y hy => hplace x (.inl (.inl hx)) y (.inl (.inl hy))
      · exact fun x hx y hy => hplace x (.inl (.inr hx)) y (.inl (.inr hy))
      · exact fun x hx y hy => hplace x (.inr hx) y (.inr hy)
    | _ => simp [resolve, Code.bare] at h
  | app s τ f xs ihf ihxs =>
    cases w with
    | app s' τ' f' ys =>
      simp only [resolve, Code.bare, Code.app.injEq, true_and, Code.bareList_eq_map,
        resolveList_eq_map, List.map_map] at h
      obtain ⟨rfl, hf, hxs⟩ := h
      obtain ⟨hlen, hxs⟩ := List.forall₂_iff_zip.mp (map_eq_map_iff_forall₂.mp hxs)
      simp only [mem_free_app] at hplace
      refine .app (ihf hf fun x hx y hy => hplace x (.inl hx) y (.inl hy)) hlen ?_
      intro v w hvw
      obtain ⟨hv, hw⟩ := List.of_mem_zip hvw
      refine ihxs v hv (hxs hvw) ?_
      exact fun x hx y hy => hplace x (.inr ⟨v, hv, hx⟩) y (.inr ⟨w, hw, hy⟩)
    | _ => simp [resolve, Code.bare] at h
  | lam s τ ps b ih =>
    cases w with
    | lam s' τ' qs b' =>
      simp only [resolve, Code.bare, Code.closure.injEq, true_and] at h
      obtain ⟨rfl, hlayout, hbody⟩ := h
      refine .lam (congrArg Layout.arity hlayout) (ih hbody ?_)
      exact fun x hx y _ hxy => Compile.sameVariable_of_layoutOf hlayout hplace hx hxy
    | _ => simp [resolve, Code.bare] at h

-- ---------------------------------------------------------------------------
-- Compiling decides the equivalence
-- ---------------------------------------------------------------------------

/-- Compiled into the same frame, two witnesses give the same code and leave the same
frame exactly if they are the same up to spans and the names of parameters. -/
theorem compile_alike_iff_alphaEq (v w : Witness) (frame : SoundFrame) :
    (Compile.compile v frame).value.Alike (Compile.compile w frame).value ∧
      (Compile.compile v frame).frame.Alike (Compile.compile w frame).frame ↔ v.AlphaEq w := by
  rw [Compile.compile_value v frame, Compile.compile_value w frame]
  constructor
  · rintro ⟨hcode, hframe⟩
    have hnames : (Compile.compile v frame).frame.names = (Compile.compile w frame).frame.names :=
      hframe
    refine Witness.alphaIn_of_bare_eq hcode ?_
    intro x hx y _ hxy
    simp only [Frame.slotOf, ← hnames] at hxy
    obtain rfl := (List.idxOf_inj (Compile.mem_names_compile v frame hx)).mp hxy
    exact .free
  · intro h
    have hsame : ∀ x y, SameVariable [] x y → x = y := by
      rintro x y ⟨⟩
      rfl
    have hfree : v.free = w.free := by
      rw [← List.forall₂_eq_eq_eq]
      exact h.forall₂_free.imp hsame
    have hframe : (Compile.compile v frame).frame = (Compile.compile w frame).frame := by
      rw [Compile.compile_frame v frame, Compile.compile_frame w frame, hfree]
    rw [hframe]
    refine ⟨h.bare_resolve ?_, rfl⟩
    intro x y hxy
    rw [hsame x y hxy]

def nested (ps qs : List Name) (x y : Name) : Witness :=
  let τ : Ty := .base "T"
  .lam ⟨0, 9⟩ τ ps (.lam ⟨1, 8⟩ τ qs
    (.app ⟨2, 7⟩ τ (.var ⟨3, 4⟩ τ "f") [.var ⟨4, 5⟩ τ x, .var ⟨5, 6⟩ τ y]))

/-- Of a repeated parameter it is the last position that counts. -/
theorem compile_alike_iff_alphaEq_nested :
    (nested ["p", "q", "p"] ["q"] "p" "q").AlphaEq (nested ["a", "b", "c"] ["a"] "c" "a") ∧
      ¬ (nested ["p", "q", "p"] ["q"] "p" "q").AlphaEq (nested ["a", "b", "c"] ["d"] "a" "d") := by
  rw [← compile_alike_iff_alphaEq _ _ (.ofNames ["b"]),
    ← compile_alike_iff_alphaEq _ _ (.ofNames ["b"])]
  simp only [Compile.compile_eq_emit]
  decide +kernel

end TypedClosures
