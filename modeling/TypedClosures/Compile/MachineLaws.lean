import TypedClosures.Compile.Machine

/-!
# The compiling machine follows the recursion

Started on a witness in any frame, the machine comes to give the code that
`emit` makes, in the frame that `emit` leaves and with its events, whatever
nodes are under way around it (`Follows`). With none, it says that `compile` is
`emit`.
-/

namespace TypedClosures.Compile

theorem finish_enter (w : Witness) (pending : List Pending) (frame : Frame)
    (log : List Event) :
    machine.finish ⟨.enter w, pending, frame, log⟩ = machine.finish (start w pending frame log) :=
  machine.finish_of_step rfl

theorem finish_give_cons (e : Code) (p : Pending) (pending : List Pending) (frame : Frame)
    (log : List Event) :
    machine.finish ⟨.give e, p :: pending, frame, log⟩ =
      machine.finish (resume p e pending frame log) :=
  machine.finish_of_step rfl

theorem finish_give_nil (e : Code) (frame : Frame) (log : List Event) :
    machine.finish ⟨.give e, [], frame, log⟩ = ⟨e, frame, log.reverse⟩ :=
  machine.finish_of_done rfl

def Follows (w : Witness) : Prop :=
  ∀ pending frame log,
    machine.finish ⟨.enter w, pending, frame, log⟩ =
      machine.finish ⟨.give (emit w frame).value, pending, (emit w frame).frame,
        (emit w frame).events.reverse ++ log⟩

-- ---------------------------------------------------------------------------
-- One kind of node after the other
-- ---------------------------------------------------------------------------

theorem follows_var (s : Span) (τ : Ty) (x : Name) : Follows (.var s τ x) := by
  intro pending frame log
  rw [finish_enter]
  simp [start, emit]

theorem follows_cond (s : Span) (τ : Ty) {c a b : Witness} (hc : Follows c) (ha : Follows a)
    (hb : Follows b) : Follows (.cond s τ c a b) := by
  intro pending frame log
  rw [finish_enter, start, hc, finish_give_cons, resume, ha, finish_give_cons, resume, hb,
    finish_give_cons, resume]
  simp [emit]

theorem finish_nextOperand (s : Span) (τ : Ty) (f : Code) {ws : List Witness}
    (h : ∀ w ∈ ws, Follows w) (done : List Code) (pending : List Pending) (frame : Frame)
    (log : List Event) :
    machine.finish (nextOperand s τ f done ws pending frame log) =
      machine.finish ⟨.give (.app s τ f (done.reverse ++ (emitList ws frame).value)), pending,
        (emitList ws frame).frame, (emitList ws frame).events.reverse ++ log⟩ := by
  induction ws generalizing done frame log with
  | nil => simp [nextOperand, emitList]
  | cons w ws ih =>
    rw [nextOperand, h w List.mem_cons_self, finish_give_cons, resume,
      ih fun v hv => h v (List.mem_cons_of_mem w hv)]
    simp [emitList]

theorem follows_app (s : Span) (τ : Ty) {f : Witness} {ws : List Witness} (hf : Follows f)
    (hws : ∀ w ∈ ws, Follows w) : Follows (.app s τ f ws) := by
  intro pending frame log
  rw [finish_enter, start, hf, finish_give_cons, resume, finish_nextOperand s τ _ hws]
  simp [emit]

theorem follows_lam (s : Span) (τ : Ty) (ps : List Name) {b : Witness} (hb : Follows b) :
    Follows (.lam s τ ps b) := by
  intro pending frame log
  rw [finish_enter, start, hb, finish_give_cons, resume]
  simp [emit]

theorem follows (w : Witness) : Follows w := by
  induction w using Witness.induct with
  | var s τ x => exact follows_var s τ x
  | cond s τ c a b hc ha hb => exact follows_cond s τ hc ha hb
  | app s τ f ws hf hws => exact follows_app s τ hf hws
  | lam s τ ps b hb => exact follows_lam s τ ps hb

theorem compile_eq_emit (w : Witness) : compile w = emit w := by
  funext frame
  rw [compile, follows w, finish_give_nil]
  simp

end TypedClosures.Compile
