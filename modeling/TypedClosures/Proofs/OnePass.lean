import TypedClosures.Build
import TypedClosures.Proofs.Faults
import TypedClosures.Proofs.Positions
import Mathlib.Data.List.Infix

/-!
# A check is one pass over the term

The log of a check is read along the positions of the term in pre-order. Every step that is
entered is the step of the next position; if there is no fault, all positions have their
turn, and otherwise the steps that are left with the fault are those from one node up to the
root, the node that the fault is about (`elaborate_events`).

A run inside the check of a node goes through some of the node's parts (`Passes`), and runs
one after the other go through the parts of both.
-/

namespace TypedClosures

/-- What the fault says is true of the node at this position of the term. -/
def Fault.TrueAt (Γ : Scope) (t : Term) (path : Path) (fault : Fault) : Prop :=
  ∃ Δ s demand, t.nodeAt? Γ path = some (Δ, s) ∧ fault.TrueOf Δ s demand

namespace Check

-- ---------------------------------------------------------------------------
-- What the log tells of a position
-- ---------------------------------------------------------------------------

/-- The event is what the step of the node at this position tells, with its head and its
span; `tell` is the kind of event. -/
def Tells (tell : Goal → Event) (Γ : Scope) (t : Term) (path : Path) (event : Event) : Prop :=
  ∃ Δ s want, t.nodeAt? Γ path = some (Δ, s) ∧ event = tell (s.goal want)

section
variable {tell : Goal → Event} {Γ : Scope} {t x : Term} {i : Nat}

theorem tells_root (tell : Goal → Event) (Γ : Scope) (t : Term) (want : Option Ty) :
    Tells tell Γ t [] (tell (t.goal want)) :=
  ⟨Γ, t, want, rfl, rfl⟩

theorem forall₂_tells_part (hx : t.parts[i]? = some x) {paths : List Path}
    {events : List Event}
    (h : List.Forall₂ (Tells tell (t.scopeWithin Γ) x) paths events) :
    List.Forall₂ (Tells tell Γ t) (paths.map (i :: ·)) events := by
  rw [List.forall₂_map_left_iff]
  refine h.imp ?_
  rintro path event ⟨Δ, s, want, hs, rfl⟩
  exact ⟨Δ, s, want, (Term.nodeAt?_cons hx path).trans hs, rfl⟩

end

/-- The events are of steps that were entered at the positions `seen`, and after that of
steps that were left with the fault at the positions `left`. -/
def Shows (Γ : Scope) (t : Term) (fault : Fault) (seen left : List Path) (events : List Event) :
    Prop :=
  ∃ entered failed, events = entered ++ failed ∧
    List.Forall₂ (Tells .entered Γ t) seen entered ∧
    List.Forall₂ (Tells (.failed · fault) Γ t) left failed

/-- How a fault shows in a run inside the step of `t` that was to enter the positions
`ahead`. It entered the first of them. The fault is about the node at `path`, and the steps
from there upwards were left with it, short of the step of `t`, which is still open. What
was entered last is within the node at fault. -/
def Stops (Γ : Scope) (t : Term) (ahead : List Path) (events : List Event) (fault : Fault) :
    Prop :=
  ∃ seen path, seen <+: ahead ∧ Shows Γ t fault seen path.inits.tail.reverse events ∧
    (path = [] ∨ ∃ before last, seen = before ++ [last] ∧ path <+: last) ∧
    fault.TrueAt Γ t path

/-- The run enters the positions `ahead` in order, up to a fault if it meets one. -/
structure Passes {α : Type} (Γ : Scope) (t : Term) (ahead : List Path) (r : Run α) : Prop where
  ok : ∀ a, r.outcome = .ok a → List.Forall₂ (Tells .entered Γ t) ahead r.events
  error : ∀ fault, r.outcome = .error fault → Stops Γ t ahead r.events fault

section
variable {α β : Type} {Γ : Scope} {t : Term} {ahead first second : List Path}

theorem stops_here {events : List Event} {fault : Fault} {demand : Option Ty}
    {seen : List Path} (hseen : seen <+: ahead)
    (hevents : List.Forall₂ (Tells .entered Γ t) seen events) (h : fault.TrueOf Γ t demand) :
    Stops Γ t ahead events fault :=
  ⟨seen, [], hseen, ⟨events, [], (List.append_nil _).symm, hevents, .nil⟩, .inl rfl,
    Γ, t, demand, rfl, h⟩

theorem Passes.pure (a : α) : Passes Γ t [] (pure a : Run α) where
  ok _ _ := .nil
  error _ h := by cases h

theorem Passes.fail {fault : Fault} (demand : Option Ty) (h : fault.TrueOf Γ t demand) :
    Passes Γ t ahead (Run.fail fault : Run α) where
  ok _ h := by cases h
  error
    | _, rfl => stops_here List.nil_prefix .nil h

theorem Passes.bind {r : Run α} {next : α → Run β} (h : Passes Γ t first r)
    (hnext : ∀ a, r.outcome = .ok a → Passes Γ t second (next a)) :
    Passes Γ t (first ++ second) (r >>= next) := by
  obtain ⟨events, fault | a⟩ := r
  · refine ⟨nofun, ?_⟩
    rintro _ ⟨⟩
    obtain ⟨seen, path, hseen, hrest⟩ := h.error fault rfl
    exact ⟨seen, path, hseen.trans (List.prefix_append _ _), hrest⟩
  · have hfirst := h.ok a rfl
    refine ⟨?_, ?_⟩
    · intro b hb
      exact List.rel_append hfirst ((hnext a rfl).ok b hb)
    · intro fault hfault
      obtain ⟨seen, path, hseen, ⟨entered, failed, hevents, hentered, hfailed⟩, hlast, htrue⟩ :=
        (hnext a rfl).error fault hfault
      refine ⟨first ++ seen, path, (List.prefix_append_right_inj _).mpr hseen,
        ⟨events ++ entered, failed, ?_, List.rel_append hfirst hentered, hfailed⟩, ?_, htrue⟩
      · rw [List.append_assoc, ← hevents]
        rfl
      · refine hlast.imp_right ?_
        rintro ⟨before, last, rfl, hpath⟩
        exact ⟨first ++ before, last, (List.append_assoc _ _ _).symm, hpath⟩

end

-- ---------------------------------------------------------------------------
-- The step of a node
-- ---------------------------------------------------------------------------

def Fails (Γ : Scope) (t : Term) (events : List Event) (fault : Fault) : Prop :=
  ∃ before last path, before ++ [last] <+: t.paths ∧
    Shows Γ t fault (before ++ [last]) path.inits.reverse events ∧ path <+: last ∧
    fault.TrueAt Γ t path

structure Logged (Γ : Scope) (t : Term) (want : Option Ty) : Prop where
  ok : ∀ w, (derive Γ t want).outcome = .ok w →
    List.Forall₂ (Tells .entered Γ t) t.paths (derive Γ t want).events
  error : ∀ fault, (derive Γ t want).outcome = .error fault →
    Fails Γ t (derive Γ t want).events fault

section
variable {Γ : Scope} {t x : Term} {i : Nat} {want : Option Ty}

theorem inits_reverse_eq (path : Path) :
    path.inits.reverse = path.inits.tail.reverse ++ [[]] := by
  cases path <;> simp

theorem passes_part (Γ : Scope) (t : Term) (i : Nat) (hx : t.parts[i]? = some x)
    (h : ∀ Γ want, Logged Γ x want) (want : Option Ty) :
    Passes Γ t (x.paths.map (i :: ·)) (derive (t.scopeWithin Γ) x want) := by
  have hpart := h (t.scopeWithin Γ) want
  refine ⟨fun w hw => forall₂_tells_part hx (hpart.ok w hw), ?_⟩
  intro fault hfault
  obtain ⟨before, last, path, hseen, ⟨entered, failed, hevents, hentered, hfailed⟩, hlast,
    Δ, s, demand, hs, htrue⟩ := hpart.error fault hfault
  refine ⟨(before ++ [last]).map (i :: ·), i :: path, hseen.map _,
    ⟨entered, failed, hevents, forall₂_tells_part hx hentered, ?_⟩, .inr ?_,
    Δ, s, demand, (Term.nodeAt?_cons hx path).trans hs, htrue⟩
  · rw [List.inits_cons, List.tail_cons, ← List.map_reverse]
    exact forall₂_tells_part hx hfailed
  · exact ⟨before.map (i :: ·), i :: last, by simp, List.cons_prefix_cons.mpr ⟨rfl, hlast⟩⟩

theorem Stops.fails {events : List Event} {fault : Fault}
    (h : Stops Γ t (Term.pathsFrom 0 t.parts) events fault) (want : Option Ty) :
    Fails Γ t (.entered (t.goal want) :: (events ++ [.failed (t.goal want) fault])) fault := by
  obtain ⟨seen, path, hseen, ⟨entered, failed, rfl, hentered, hfailed⟩, hlast, htrue⟩ := h
  have hpaths : [] :: seen <+: t.paths := by
    rw [t.paths_eq]
    exact List.cons_prefix_cons.mpr ⟨rfl, hseen⟩
  have hshows : Shows Γ t fault ([] :: seen) path.inits.reverse
      (.entered (t.goal want) :: (entered ++ failed ++ [.failed (t.goal want) fault])) := by
    refine ⟨.entered (t.goal want) :: entered, failed ++ [.failed (t.goal want) fault], by simp,
      .cons (tells_root _ Γ t want) hentered, ?_⟩
    rw [inits_reverse_eq]
    exact List.rel_append hfailed (.cons (tells_root _ Γ t want) .nil)
  obtain rfl | ⟨before, last, rfl, hpath⟩ := hlast
  · obtain ⟨before, last, heq⟩ := (List.eq_nil_or_concat' ([] :: seen)).resolve_left (by simp)
    rw [heq] at hpaths hshows
    exact ⟨before, last, [], hpaths, hshows, List.nil_prefix, htrue⟩
  · exact ⟨[] :: before, last, path, hpaths, hshows, hpath, htrue⟩

theorem elaborates_of_rule {w : Witness} (h : (rule Γ t want).outcome = .ok w) :
    Elaborates Γ t w := by
  cases t with
  | var s x =>
    obtain ⟨τ, hx, rfl⟩ := variableAt_ok.mp h
    exact .var (Scope.find?_eq_some_iff.mp hx)
  | cond s c a b =>
    simp only [rule_cond, Run.outcome_bind, outcome_derive, bind_ok] at h
    obtain ⟨c', hc, a', ha, b', hb, ⟨⟩⟩ := h
    exact .cond (elaborates_of_answer hc) (elaborates_of_answer ha) (elaborates_of_answer hb)
      (ty_of_answer hc) (ty_of_answer hb)
  | app s f xs =>
    -- An application makes no use of the type that is wanted.
    have happ : answer Γ (.app s f xs) none = .ok w := by
      rw [answer_eq]
      exact bind_ok.mpr ⟨w, h, rfl⟩
    exact elaborates_of_answer happ
  | lam s ps b =>
    cases ps with
    | nil => cases h
    | cons p ps =>
      simp only [rule_lam_cons, Run.outcome_bind, outcome_derive, bind_ok] at h
      obtain ⟨b', hb, ⟨⟩⟩ := h
      exact .lam (by simp) (elaborates_of_answer hb)

theorem derive_eq (Γ : Scope) (t : Term) (want : Option Ty) :
    derive Γ t want =
      ⟨.entered (t.goal want) ::
        ((rule Γ t want).events ++ (t.goal want).closing (answer Γ t want)), answer Γ t want⟩ := by
  rw [answer_eq]
  rfl

theorem logged_of_passes (h : Passes Γ t (Term.pathsFrom 0 t.parts) (rule Γ t want)) :
    Logged Γ t want := by
  constructor
  · intro w hw
    rw [outcome_derive] at hw
    obtain ⟨v, hv, -⟩ := bind_ok.mp ((answer_eq Γ t want).symm.trans hw)
    rw [derive_eq, hw, Goal.closing, List.append_nil, t.paths_eq]
    exact .cons (tells_root _ Γ t want) (h.ok v hv)
  · intro fault hfault
    rw [outcome_derive] at hfault
    rw [derive_eq, hfault]
    apply Stops.fails
    obtain hrule | ⟨w, hw, hmeets⟩ := bind_error.mp ((answer_eq Γ t want).symm.trans hfault)
    · exact h.error fault hrule
    · exact stops_here (List.prefix_refl _) (h.ok w hw)
        (trueOf_of_meets (elaborates_of_rule hw) hmeets)

end

-- ---------------------------------------------------------------------------
-- One kind of node after the other
-- ---------------------------------------------------------------------------

theorem logged_var (Γ : Scope) (s : Span) (x : Name) (want : Option Ty) :
    Logged Γ (.var s x) want := by
  apply logged_of_passes
  rw [rule_var]
  cases hx : variableAt Γ s x with
  | error fault => exact .fail want (trueOf_of_variableAt hx)
  | ok w => exact .pure w

theorem logged_cond (s : Span) {c a b : Term} (hc : ∀ Γ want, Logged Γ c want)
    (ha : ∀ Γ want, Logged Γ a want) (hb : ∀ Γ want, Logged Γ b want) (Γ : Scope)
    (want : Option Ty) : Logged Γ (.cond s c a b) want := by
  apply logged_of_passes
  rw [rule_cond]
  refine .bind (passes_part Γ (.cond s c a b) 0 rfl hc _) fun c' _ => ?_
  refine .bind (passes_part Γ (.cond s c a b) 1 rfl ha _) fun a' _ => ?_
  refine .bind (passes_part Γ (.cond s c a b) 2 rfl hb _) fun b' _ => ?_
  exact .pure _

theorem passes_operands (s : Span) {Γ : Scope} {f : Term} {f' : Witness}
    (hf : answer Γ f none = .ok f') {before xs : List Term}
    (hxs : ∀ x ∈ xs, ∀ Γ want, Logged Γ x want) {τ : Ty} {ws : List Witness}
    (hbefore : operandAnswers Γ f'.span before f'.ty = .ok (τ, ws)) :
    Passes Γ (.app s f (before ++ xs)) (Term.pathsFrom (before.length + 1) xs)
      (operands Γ f'.span xs τ) := by
  induction xs generalizing before τ ws with
  | nil =>
    rw [operands_nil]
    exact .pure _
  | cons x xs ih =>
    cases τ with
    | base name =>
      have happ : infer Γ (.app s f before) = .ok (.app s (.base name) f' ws) :=
        answer_app_ok.mpr ⟨f', _, ws, hf, hbefore, rfl, by simp⟩
      rw [operands_cons_base, span_of_answer hf]
      exact .fail none (.notAFunction happ rfl)
    | arrow argument result =>
      rw [operands_cons_arrow]
      have hpart : (Term.app s f (before ++ x :: xs)).parts[before.length + 1]? = some x := by
        simp [Term.parts]
      refine .bind (passes_part Γ _ _ hpart (hxs x List.mem_cons_self) _) fun w hw => ?_
      have hnext : operandAnswers Γ f'.span (before ++ [x]) f'.ty = .ok (result, ws ++ [w]) := by
        rw [outcome_derive] at hw
        rw [operandAnswers_append, hbefore, ok_then, operandAnswers_cons_arrow, hw, ok_then,
          operandAnswers_nil]
        rfl
      have hrest := ih (fun y hy => hxs y (List.mem_cons_of_mem x hy)) hnext
      rw [List.append_assoc, List.length_append] at hrest
      rw [← List.append_nil (Term.pathsFrom _ xs)]
      exact .bind hrest fun r _ => .pure _

theorem logged_app (s : Span) {f : Term} {xs : List Term} (hf : ∀ Γ want, Logged Γ f want)
    (hxs : ∀ x ∈ xs, ∀ Γ want, Logged Γ x want) (Γ : Scope) (want : Option Ty) :
    Logged Γ (.app s f xs) want := by
  apply logged_of_passes
  rw [rule_app]
  refine .bind (passes_part Γ (.app s f xs) 0 rfl hf _) fun f' hf' => ?_
  rw [outcome_derive] at hf'
  rw [← List.append_nil (Term.pathsFrom _ xs)]
  exact .bind (passes_operands s hf' hxs (operandAnswers_nil _ _)) fun r _ => .pure _

theorem logged_lam (s : Span) (ps : List Binding) {b : Term} (hb : ∀ Γ want, Logged Γ b want)
    (Γ : Scope) (want : Option Ty) : Logged Γ (.lam s ps b) want := by
  apply logged_of_passes
  cases ps with
  | nil => exact .fail want .nullaryLambda
  | cons p ps =>
    rw [rule_lam_cons]
    refine .bind (passes_part Γ (.lam s (p :: ps) b) 0 rfl hb _) fun b' _ => ?_
    exact .pure _

theorem logged (t : Term) : ∀ Γ want, Logged Γ t want := by
  induction t using Term.induct with
  | var s x => exact fun Γ want => logged_var Γ s x want
  | cond s c a b hc ha hb => exact logged_cond s hc ha hb
  | app s f xs hf hxs => exact logged_app s hf hxs
  | lam s ps b hb => exact logged_lam s ps hb

theorem level_of_tells {Γ : Scope} {t : Term} {tell : Goal → Event} {level : Level}
    (hlevel : ∀ goal, (TypedClosures.Event.check (tell goal)).level = level) {paths : List Path}
    {events : List Event} (h : List.Forall₂ (Tells tell Γ t) paths events) :
    ∀ event ∈ events, (TypedClosures.Event.check event).level = level := by
  induction h with
  | nil => simp
  | cons htells _ ih =>
    obtain ⟨Δ, s, want, -, rfl⟩ := htells
    exact List.forall_mem_cons.mpr ⟨hlevel _, ih⟩

end Check

/-- The log of a check. Steps are entered first, and told at the level for tracing; then
some are left with a fault, and told at the level for debugging. Without a fault, the
entered ones are those of all positions, in order, and none is left with a fault. With a
fault, they are those of the first positions, at least one; what is left with the fault are
the steps from one position up to the root, where the fault is true of the node at that
position, and the position that was entered last is within it. -/
theorem elaborate_events (Γ : Scope) (t : Term) (want : Option Ty) :
    let run := Check.elaborate Γ t want
    t.paths.Pairwise (· < ·) ∧ (∀ path, path ∈ t.paths ↔ (t.nodeAt? Γ path).isSome) ∧
    ∃ entered failed, run.events = entered ++ failed ∧
      (∀ event ∈ entered, (Event.check event).level = .trace) ∧
      (∀ event ∈ failed, (Event.check event).level = .debug) ∧
      (∀ w, run.outcome = .ok w →
        List.Forall₂ (Check.Tells .entered Γ t) t.paths entered ∧ failed = []) ∧
      ∀ fault, run.outcome = .error fault →
        ∃ before last path, before ++ [last] <+: t.paths ∧
          List.Forall₂ (Check.Tells .entered Γ t) (before ++ [last]) entered ∧
          List.Forall₂ (Check.Tells (.failed · fault) Γ t) path.inits.reverse failed ∧
          path <+: last ∧ fault.TrueAt Γ t path := by
  intro run
  refine ⟨t.pairwise_paths, fun path => Term.mem_paths, ?_⟩
  have hrun : run = Check.derive Γ t want := Check.elaborate_eq_derive Γ t want
  obtain ⟨hok, herror⟩ := Check.logged t Γ want
  rw [← hrun] at hok herror
  have htrace : ∀ goal, (Event.check (.entered goal)).level = .trace := fun _ => rfl
  rcases houtcome : run.outcome with fault | w
  · obtain ⟨before, last, path, hpaths, ⟨entered, failed, hevents, hentered, hfailed⟩, hlast,
      htrue⟩ := herror fault houtcome
    have hdebug : ∀ goal, (Event.check (.failed goal fault)).level = .debug := fun _ => rfl
    refine ⟨entered, failed, hevents, Check.level_of_tells htrace hentered,
      Check.level_of_tells hdebug hfailed, by simp, ?_⟩
    rintro _ ⟨⟩
    exact ⟨before, last, path, hpaths, hentered, hfailed, hlast, htrue⟩
  · have hentered := hok w houtcome
    refine ⟨run.events, [], (List.append_nil _).symm, Check.level_of_tells htrace hentered,
      by simp, ?_, by simp⟩
    exact fun _ _ => ⟨hentered, rfl⟩

end TypedClosures
