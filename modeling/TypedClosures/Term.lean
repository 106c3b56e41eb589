import TypedClosures.Ty

/-!
# Terms

Variables, conditionals, applications to any number of operands, and lambdas
whose parameters carry their types. Every node has the span it was read from.
Two terms are `Alike` when they differ in spans alone.

Operands form a list, so a function on terms comes with a companion on lists
of terms, and `Term.induct` gives the induction hypothesis for every operand.
-/

namespace TypedClosures

inductive Term
  | var (span : Span) (name : Name)
  | cond (span : Span) (test yes no : Term)
  | app (span : Span) (operator : Term) (operands : List Term)
  | lam (span : Span) (params : List Binding) (body : Term)
  deriving Repr, Inhabited

namespace Term

def span : Term → Span
  | .var s _ | .cond s _ _ _ | .app s _ _ | .lam s _ _ => s

mutual

def size : Term → Nat
  | .var .. => 1
  | .cond _ c a b => c.size + a.size + b.size + 1
  | .app _ f xs => f.size + sizeList xs + 1
  | .lam _ _ b => b.size + 1

def sizeList : List Term → Nat
  | [] => 0
  | t :: ts => t.size + sizeList ts

end

-- ---------------------------------------------------------------------------
-- Equality and induction
-- ---------------------------------------------------------------------------

mutual

def decEq : (t u : Term) → Decidable (t = u)
  | .var s x, .var s' y => decidable_of_iff (s = s' ∧ x = y) (by simp)
  | .cond s c a b, .cond s' c' a' b' =>
    have := decEq c c'
    have := decEq a a'
    have := decEq b b'
    decidable_of_iff (s = s' ∧ c = c' ∧ a = a' ∧ b = b') (by simp)
  | .app s f xs, .app s' f' xs' =>
    have := decEq f f'
    have := decEqList xs xs'
    decidable_of_iff (s = s' ∧ f = f' ∧ xs = xs') (by simp)
  | .lam s ps b, .lam s' ps' b' =>
    have := decEq b b'
    decidable_of_iff (s = s' ∧ ps = ps' ∧ b = b') (by simp)
  | .var .., .cond .. | .var .., .app .. | .var .., .lam ..
  | .cond .., .var .. | .cond .., .app .. | .cond .., .lam ..
  | .app .., .var .. | .app .., .cond .. | .app .., .lam ..
  | .lam .., .var .. | .lam .., .cond .. | .lam .., .app .. => isFalse (by simp)

def decEqList : (ts us : List Term) → Decidable (ts = us)
  | [], [] => isTrue rfl
  | t :: ts, u :: us =>
    have := decEq t u
    have := decEqList ts us
    decidable_of_iff (t = u ∧ ts = us) (by simp)
  | [], _ :: _ | _ :: _, [] => isFalse (by simp)

end

instance : DecidableEq Term := decEq

@[elab_as_elim]
theorem induct {motive : Term → Prop}
    (var : ∀ s x, motive (.var s x))
    (cond : ∀ s c a b, motive c → motive a → motive b → motive (.cond s c a b))
    (app : ∀ s f xs, motive f → (∀ x ∈ xs, motive x) → motive (.app s f xs))
    (lam : ∀ s ps b, motive b → motive (.lam s ps b)) (t : Term) : motive t :=
  match t with
  | .var s x => var s x
  | .cond s c a b =>
    cond s c a b (induct var cond app lam c) (induct var cond app lam a)
      (induct var cond app lam b)
  | .app s f xs => app s f xs (induct var cond app lam f) fun x _ => induct var cond app lam x
  | .lam s ps b => lam s ps b (induct var cond app lam b)

-- ---------------------------------------------------------------------------
-- Terms up to spans
-- ---------------------------------------------------------------------------

mutual

def bare : Term → Term
  | .var _ x => .var .none x
  | .cond _ c a b => .cond .none c.bare a.bare b.bare
  | .app _ f xs => .app .none f.bare (bareList xs)
  | .lam _ ps b => .lam .none ps b.bare

def bareList : List Term → List Term
  | [] => []
  | t :: ts => t.bare :: bareList ts

end

theorem bareList_eq_map (ts : List Term) : bareList ts = ts.map bare := by
  induction ts with
  | nil => rfl
  | cons t ts ih => simp [bareList, ih]

/-- The same term, read from possibly different places. -/
def Alike (t u : Term) : Prop := t.bare = u.bare

instance (t u : Term) : Decidable (t.Alike u) :=
  inferInstanceAs (Decidable (t.bare = u.bare))

-- ---------------------------------------------------------------------------
-- Text
-- ---------------------------------------------------------------------------

def paramsText (params : List Binding) : String :=
  String.join (params.map fun p => "(" ++ p.name ++ " : " ++ p.ty.text ++ ") ")

mutual

/-- Applications are parenthesized; conditionals and lambdas are not. -/
def text : Term → String
  | .var _ x => x
  | .cond _ c a b => "if " ++ c.text ++ " then " ++ a.text ++ " else " ++ b.text
  | .app _ f xs => "(" ++ f.text ++ operandsText xs ++ ")"
  | .lam _ ps b => "\\" ++ paramsText ps ++ "-> " ++ b.text

def operandsText : List Term → String
  | [] => ""
  | t :: ts => " " ++ t.text ++ operandsText ts

end

end Term

inductive Head
  | var (name : Name)
  | cond
  | app (operands : Nat)
  | lam (params : Nat)
  deriving DecidableEq, Repr

def Head.text : Head → String
  | .var name => name
  | .cond => "conditional"
  | .app operands => "application to " ++ Nat.repr operands ++ " operands"
  | .lam params => "lambda of " ++ Nat.repr params ++ " parameters"

def Term.head : Term → Head
  | .var _ x => .var x
  | .cond .. => .cond
  | .app _ _ xs => .app xs.length
  | .lam _ ps _ => .lam ps.length

end TypedClosures
