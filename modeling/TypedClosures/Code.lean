import TypedClosures.Ty

/-!
# Compiled code

Code reads its variables from numbered slots. A lambda has become a closure:
its `Layout` says which slots of the enclosing frame are copied into the
closure's record when the closure is made, and where the body's own slots are
filled from, the record or the arguments, when it is called.
-/

namespace TypedClosures

/-- Slot `closure` of the record is filled from slot `parent` of the enclosing frame. -/
structure Capture where
  closure : Slot
  parent : Slot
  deriving DecidableEq, Repr, Inhabited

/-- Slot `slot` of the body is filled from slot `closure` of the record. -/
structure EnvLoad where
  slot : Slot
  closure : Slot
  deriving DecidableEq, Repr, Inhabited

/-- Slot `slot` of the body is filled from argument number `argument`. -/
structure ArgLoad where
  slot : Slot
  argument : Nat
  deriving DecidableEq, Repr, Inhabited

/-- How a closure is made and called. When anything is captured, the record
is passed as argument 0 and the parameters follow it. -/
structure Layout where
  arity : Nat
  closureSize : Nat
  captures : List Capture
  frameSize : Nat
  envLoads : List EnvLoad
  argLoads : List ArgLoad
  deriving DecidableEq, Repr, Inhabited

inductive Code
  | slot (span : Span) (ty : Ty) (slot : Slot)
  | cond (span : Span) (ty : Ty) (test yes no : Code)
  | app (span : Span) (ty : Ty) (operator : Code) (operands : List Code)
  | closure (span : Span) (ty : Ty) (layout : Layout) (body : Code)
  deriving Repr, Inhabited

namespace Code

def span : Code → Span
  | .slot s _ _ | .cond s _ _ _ _ | .app s _ _ _ | .closure s _ _ _ => s

def ty : Code → Ty
  | .slot _ τ _ | .cond _ τ _ _ _ | .app _ τ _ _ | .closure _ τ _ _ => τ

-- ---------------------------------------------------------------------------
-- Equality and induction
-- ---------------------------------------------------------------------------

mutual

def decEq : (d e : Code) → Decidable (d = e)
  | .slot s τ n, .slot s' τ' n' => decidable_of_iff (s = s' ∧ τ = τ' ∧ n = n') (by simp)
  | .cond s τ c a b, .cond s' τ' c' a' b' =>
    have := decEq c c'
    have := decEq a a'
    have := decEq b b'
    decidable_of_iff (s = s' ∧ τ = τ' ∧ c = c' ∧ a = a' ∧ b = b') (by simp)
  | .app s τ f xs, .app s' τ' f' xs' =>
    have := decEq f f'
    have := decEqList xs xs'
    decidable_of_iff (s = s' ∧ τ = τ' ∧ f = f' ∧ xs = xs') (by simp)
  | .closure s τ l b, .closure s' τ' l' b' =>
    have := decEq b b'
    decidable_of_iff (s = s' ∧ τ = τ' ∧ l = l' ∧ b = b') (by simp)
  | .slot .., .cond .. | .slot .., .app .. | .slot .., .closure ..
  | .cond .., .slot .. | .cond .., .app .. | .cond .., .closure ..
  | .app .., .slot .. | .app .., .cond .. | .app .., .closure ..
  | .closure .., .slot .. | .closure .., .cond .. | .closure .., .app .. => isFalse (by simp)

def decEqList : (ds es : List Code) → Decidable (ds = es)
  | [], [] => isTrue rfl
  | d :: ds, e :: es =>
    have := decEq d e
    have := decEqList ds es
    decidable_of_iff (d = e ∧ ds = es) (by simp)
  | [], _ :: _ | _ :: _, [] => isFalse (by simp)

end

instance : DecidableEq Code := decEq

@[elab_as_elim]
theorem induct {motive : Code → Prop}
    (slot : ∀ s τ n, motive (.slot s τ n))
    (cond : ∀ s τ c a b, motive c → motive a → motive b → motive (.cond s τ c a b))
    (app : ∀ s τ f xs, motive f → (∀ x ∈ xs, motive x) → motive (.app s τ f xs))
    (closure : ∀ s τ l b, motive b → motive (.closure s τ l b)) (e : Code) : motive e :=
  match e with
  | .slot s τ n => slot s τ n
  | .cond s τ c a b =>
    cond s τ c a b (induct slot cond app closure c) (induct slot cond app closure a)
      (induct slot cond app closure b)
  | .app s τ f xs =>
    app s τ f xs (induct slot cond app closure f) fun x _ => induct slot cond app closure x
  | .closure s τ l b => closure s τ l b (induct slot cond app closure b)

-- ---------------------------------------------------------------------------
-- Code up to spans
-- ---------------------------------------------------------------------------

mutual

def bare : Code → Code
  | .slot _ τ n => .slot .none τ n
  | .cond _ τ c a b => .cond .none τ c.bare a.bare b.bare
  | .app _ τ f xs => .app .none τ f.bare (bareList xs)
  | .closure _ τ l b => .closure .none τ l b.bare

def bareList : List Code → List Code
  | [] => []
  | e :: es => e.bare :: bareList es

end

theorem bareList_eq_map (es : List Code) : bareList es = es.map bare := by
  induction es with
  | nil => rfl
  | cons e es ih => simp [bareList, ih]

def Alike (d e : Code) : Prop := d.bare = e.bare

instance (d e : Code) : Decidable (d.Alike e) :=
  inferInstanceAs (Decidable (d.bare = e.bare))

end Code

-- ---------------------------------------------------------------------------
-- Text
-- ---------------------------------------------------------------------------

def Capture.text (c : Capture) : String := Slot.text c.closure ++ "<-" ++ Slot.text c.parent

def Layout.text (l : Layout) : String :=
  "closure/" ++ Nat.repr l.arity ++ "[" ++ ", ".intercalate (l.captures.map Capture.text) ++ "]"

namespace Code

mutual

/-- As for terms, with slots for names; a closure's body stands in braces. -/
def text : Code → String
  | .slot _ _ n => Slot.text n
  | .cond _ _ c a b => "if " ++ c.text ++ " then " ++ a.text ++ " else " ++ b.text
  | .app _ _ f xs => "(" ++ f.text ++ operandsText xs ++ ")"
  | .closure _ _ l b => l.text ++ " \x7b " ++ b.text ++ " \x7d"

def operandsText : List Code → String
  | [] => ""
  | e :: es => " " ++ e.text ++ operandsText es

end

end Code

end TypedClosures
