import TypedClosures.Compile.MachineLaws
import Mathlib.Algebra.GroupWithZero.Nat
import Mathlib.Data.List.Intervals

/-!
# The log of compiling accounts for every slot and every closure

Compiling works in many frames: the one at hand, and for every closure a frame for its body
and one for its record. The log does not say in which of them a slot is allocated. Still
nothing is allocated twice or left out: the slots in the log are those that the frame at hand
grew by and, for every closure in the code, all slots of its body and of its record
(`compile_log_accounts`). Between them the closures themselves are told of, in post-order.

What a computation allocates outside its own frame is kept apart (`Accounts`), so that the
frame of a body becomes, when the body is done, a matter of the closure that it belongs to.
-/

namespace TypedClosures

/-- The slots of the two frames that are made for a closure. -/
def Layout.cells (l : Layout) : List Slot := List.range l.frameSize ++ List.range l.closureSize

namespace Code

mutual

/-- The closures in the code in post-order: from left to right, and those in the body of
another one before it. -/
def closures : Code → List Layout
  | .slot .. => []
  | .cond _ _ c a b => c.closures ++ a.closures ++ b.closures
  | .app _ _ f xs => f.closures ++ closuresList xs
  | .closure _ _ l b => b.closures ++ [l]

def closuresList : List Code → List Layout
  | [] => []
  | e :: es => e.closures ++ closuresList es

end

end Code

namespace Compile

def notice (l : Layout) : Event := .converted l.arity l.captures.length l.frameSize

namespace Event

def isConverted : Event → Bool
  | .converted .. => true
  | .allocated .. => false

def slot? : Event → Option Slot
  | .allocated slot _ => some slot
  | .converted .. => none

end Event

/-- A computation that ran in `frame` told of `closures` in order, and of each slot that it
allocated: those that `frame` grew by, and `others` in frames of their own. -/
structure Accounts {α : Type} (frame : Frame) (r : Emitted α) (others : List Slot)
    (closures : List Layout) : Prop where
  grows : frame.size ≤ r.frame.size
  converted : r.events.filter Event.isConverted = closures.map notice
  allocated : (r.events.filterMap Event.slot?).Perm (List.Ico frame.size r.frame.size ++ others)

section
variable {α β : Type} {frame : Frame} {others more : List Slot} {closures : List Layout}

-- ---------------------------------------------------------------------------
-- One computation after the other
-- ---------------------------------------------------------------------------

theorem Accounts.pure (frame : Frame) (a : α) : Accounts frame ((pure a : Emit α) frame) [] [] where
  grows := Nat.le_refl _
  converted := rfl
  allocated := by simp

theorem Accounts.bind {m : Emit α} {next : α → Emit β} {closures' : List Layout}
    (h : Accounts frame (m frame) others closures)
    (hnext : Accounts (m frame).frame (next (m frame).value (m frame).frame) more closures') :
    Accounts frame ((m >>= next) frame) (others ++ more) (closures ++ closures') where
  grows := h.grows.trans hnext.grows
  converted := by
    rw [Emit.bind_run, List.filter_append, h.converted, hnext.converted, List.map_append]
  allocated := by
    rw [Emit.bind_run, List.filterMap_append, ← List.Ico.append_consecutive h.grows hnext.grows]
    refine (h.allocated.append hnext.allocated).trans ?_
    simp only [List.append_assoc]
    exact (List.perm_append_comm_assoc _ _ _).append_left _

theorem Accounts.of_perm {r : Emitted α} {closures' : List Layout}
    (h : Accounts frame r others closures) (hothers : others.Perm more)
    (hclosures : closures = closures') : Accounts frame r more closures' where
  grows := h.grows
  converted := hclosures ▸ h.converted
  allocated := h.allocated.trans (hothers.append_left _)

theorem accounts_allocate (frame : Frame) (x : Name) :
    Accounts frame (allocate x frame) [] [] := by
  unfold allocate
  split
  · exact .pure frame _
  · refine ⟨?_, rfl, ?_⟩ <;> simp [Frame.push, Frame.size, Event.slot?]

theorem accounts_tell (frame : Frame) (l : Layout) :
    Accounts frame (Emit.tell (notice l) frame) [] [l] where
  grows := Nat.le_refl _
  converted := rfl
  allocated := by simp [notice, Event.slot?]

theorem Accounts.inside {own : Frame} {m : Emit α} (h : Accounts own (m own) others closures)
    (frame : Frame) :
    Accounts frame (Emit.inside own m frame) (List.Ico own.size (m own).frame.size ++ others)
      closures where
  grows := Nat.le_refl _
  converted := h.converted
  allocated := by simpa using h.allocated

end

-- ---------------------------------------------------------------------------
-- One closure
-- ---------------------------------------------------------------------------

/-- A capture takes a slot in the record and, if the name is new there, one in the frame at
hand; a parameter takes none. -/
theorem accounts_loads (params : List Name) (offset : Nat) (entries : List (Name × Slot))
    (record frame : Frame) :
    let r := loads params offset entries record frame
    record.size ≤ r.value.1.size ∧
      Accounts frame r (List.Ico record.size r.value.1.size) [] := by
  induction entries generalizing record frame with
  | nil =>
    refine ⟨Nat.le_refl _, ?_⟩
    simp only [loads, Emit.pure_run, List.Ico.self_empty]
    exact .pure frame _
  | cons entry rest ih =>
    obtain ⟨x, slot⟩ := entry
    cases hx : lastIndexOf? x params with
    | some i =>
      simp only [loads, hx]
      obtain ⟨hle, hrest⟩ := ih record frame
      refine ⟨hle, Accounts.of_perm (.bind hrest (.pure _ _)) ?_ rfl⟩
      rw [List.append_nil]
      rfl
    | none =>
      simp only [loads, hx]
      have hrecord := accounts_allocate record x
      obtain ⟨hle, hrest⟩ := ih (allocate x record).frame (allocate x frame).frame
      refine ⟨hrecord.grows.trans hle, ?_⟩
      refine Accounts.of_perm (.bind (hrecord.inside frame) (.bind (accounts_allocate frame x)
        (.bind hrest (.pure _ _)))) ?_ rfl
      rw [List.append_nil, List.append_nil, List.nil_append,
        List.Ico.append_consecutive hrecord.grows hle]
      rfl

theorem accounts_layOut (params : List Name) (inner frame : Frame) :
    let r := layOut params inner frame
    r.value.frameSize = inner.size ∧
      Accounts frame r (List.range r.value.closureSize) [r.value] := by
  refine ⟨rfl, ?_⟩
  obtain ⟨-, hloads⟩ := accounts_loads params (argOffset params inner) inner.entries .empty frame
  have htell := accounts_tell (layOut params inner frame).frame (layOut params inner frame).value
  refine Accounts.of_perm (.bind hloads (.bind htell (.pure _ _))) ?_ rfl
  rw [List.append_nil, List.append_nil]
  exact .of_eq (List.Ico.zero_bot _)

-- ---------------------------------------------------------------------------
-- All code
-- ---------------------------------------------------------------------------

def AccountsForCode (w : Witness) : Prop :=
  ∀ frame, Accounts frame (emit w frame) ((emit w frame).value.closures.flatMap Layout.cells)
    (emit w frame).value.closures

theorem accounts_var (s : Span) (τ : Ty) (x : Name) : AccountsForCode (.var s τ x) := by
  intro frame
  exact .bind (accounts_allocate frame x) (.pure _ _)

theorem accounts_cond (s : Span) (τ : Ty) {c a b : Witness} (hc : AccountsForCode c)
    (ha : AccountsForCode a) (hb : AccountsForCode b) : AccountsForCode (.cond s τ c a b) := by
  intro frame
  simp only [emit]
  refine Accounts.of_perm (.bind (hc _) (.bind (ha _) (.bind (hb _) (.pure _ _)))) ?_ ?_
  · simp [Code.closures]
  · simp [Code.closures]

theorem accounts_list {ws : List Witness} (h : ∀ w ∈ ws, AccountsForCode w) (frame : Frame) :
    let r := emitList ws frame
    Accounts frame r ((Code.closuresList r.value).flatMap Layout.cells)
      (Code.closuresList r.value) := by
  induction ws generalizing frame with
  | nil => exact .pure frame _
  | cons w ws ih =>
    have hw := h w List.mem_cons_self
    have hws := ih fun v hv => h v (List.mem_cons_of_mem w hv)
    simp only [emitList]
    refine Accounts.of_perm (.bind (hw _) (.bind (hws _) (.pure _ _))) ?_ ?_
    · simp [Code.closuresList]
    · simp [Code.closuresList]

theorem accounts_app (s : Span) (τ : Ty) {f : Witness} {ws : List Witness}
    (hf : AccountsForCode f) (hws : ∀ w ∈ ws, AccountsForCode w) :
    AccountsForCode (.app s τ f ws) := by
  intro frame
  simp only [emit]
  refine Accounts.of_perm (.bind (hf _) (.bind (accounts_list hws _) (.pure _ _))) ?_ ?_
  · simp [Code.closures]
  · simp [Code.closures]

theorem accounts_lam (s : Span) (τ : Ty) (ps : List Name) {b : Witness} (hb : AccountsForCode b) :
    AccountsForCode (.lam s τ ps b) := by
  intro frame
  simp only [emit]
  obtain ⟨hsize, hlayout⟩ := accounts_layOut ps (emit b .empty).frame frame
  have hbody : List.Ico Frame.empty.size (emit b .empty).frame.size =
      List.range (layOut ps (emit b .empty).frame frame).value.frameSize := by
    rw [hsize]
    exact List.Ico.zero_bot _
  refine Accounts.of_perm (.bind ((hb .empty).inside frame) (.bind hlayout (.pure _ _))) ?_ ?_
  · -- The frame of the body is now the closure's, and comes after what is in the body.
    simpa [Code.closures, Layout.cells, hbody] using List.perm_append_comm_assoc _ _ _
  · simp [Code.closures]

theorem accountsForCode (w : Witness) : AccountsForCode w := by
  induction w using Witness.induct with
  | var s τ x => exact accounts_var s τ x
  | cond s τ c a b hc ha hb => exact accounts_cond s τ hc ha hb
  | app s τ f ws hf hws => exact accounts_app s τ hf hws
  | lam s τ ps b hb => exact accounts_lam s τ ps hb

end Compile

/-- The log of compiling tells of every closure in the code, in post-order, with its arity,
the number of its captures and the size of its body's frame; and it tells of every slot once:
of those that the frame grew by, and of all slots in the body and in the record of each
closure. -/
theorem compile_log_accounts (w : Witness) (frame : Frame) :
    let compiled := Compile.compile w frame
    let closures := compiled.value.closures
    let slots := compiled.events.filterMap Compile.Event.slot?
    compiled.events.filter Compile.Event.isConverted =
        closures.map (fun l => .converted l.arity l.captures.length l.frameSize) ∧
      frame.size ≤ compiled.frame.size ∧
      slots.length = (compiled.frame.size - frame.size) +
        (closures.map fun l => l.frameSize + l.closureSize).sum ∧
      slots.Perm (List.Ico frame.size compiled.frame.size ++
        closures.flatMap fun l => List.range l.frameSize ++ List.range l.closureSize) := by
  intro compiled closures slots
  have h : Compile.Accounts frame compiled (closures.flatMap Layout.cells) closures := by
    simp only [closures, compiled, Compile.compile_eq_emit]
    exact Compile.accountsForCode w frame
  refine ⟨h.converted, h.grows, ?_, h.allocated⟩
  rw [h.allocated.length_eq]
  simp [List.length_flatMap, Layout.cells]

-- A name from outside two closures is allocated in five frames: of both bodies, of both
-- records, and the one at hand.
example :
    (Compile.compile (.lam .none .bool ["y"] (.lam .none .bool ["z", "z"] (.var .none .bool "x")))
      .empty).events =
      [.allocated 0 "x", .allocated 0 "x", .allocated 0 "x", .converted 2 1 1,
        .allocated 0 "x", .allocated 0 "x", .converted 1 1 1] := by
  decide +kernel

end TypedClosures
