import TypedClosures.Basic

/-!
# Simple types

Base types and arrows. A function of several arguments has a nested arrow
type: `Ty.curried` folds argument types onto a result, and `Ty.arrow?` takes
the first one off again.
-/

namespace TypedClosures

inductive Ty
  | base (name : Name)
  | arrow (argument result : Ty)
  deriving Repr, Inhabited

namespace Ty

/-- Equality of types, arguments before results. Parts of a type may be shared,
and a type of n arrows can then have 2^n leaves; a part that is met at the same
address on both sides is equal without a look inside. -/
def decEq (a b : Ty) : Decidable (a = b) :=
  withPtrEqDecEq a b fun _ =>
    match a, b with
    | .base x, .base y =>
      if h : x = y then isTrue (by rw [h]) else isFalse fun heq => h (Ty.base.inj heq)
    | .arrow a r, .arrow a' r' =>
      match decEq a a' with
      | isFalse h => isFalse fun heq => h (Ty.arrow.inj heq).1
      | isTrue h =>
        match decEq r r' with
        | isFalse h' => isFalse fun heq => h' (Ty.arrow.inj heq).2
        | isTrue h' => isTrue (by rw [h, h'])
    | .base _, .arrow _ _ => isFalse (by simp)
    | .arrow _ _, .base _ => isFalse (by simp)

instance : DecidableEq Ty := decEq

def bool : Ty := .base "Bool"

/-- Folds argument types onto a result: `curried [A, B] R` is `A -> (B -> R)`. -/
def curried (arguments : List Ty) (result : Ty) : Ty :=
  arguments.foldr .arrow result

@[simp]
theorem curried_nil (result : Ty) : curried [] result = result := rfl

@[simp]
theorem curried_cons (argument : Ty) (arguments : List Ty) (result : Ty) :
    curried (argument :: arguments) result = .arrow argument (curried arguments result) := rfl

theorem curried_append (first second : List Ty) (result : Ty) :
    curried (first ++ second) result = curried first (curried second result) :=
  List.foldr_append

def arrow? : Ty → Option (Ty × Ty)
  | .base _ => none
  | .arrow argument result => some (argument, result)

def isArrow : Ty → Bool
  | .base _ => false
  | .arrow _ _ => true

/-- Arrows associate to the right, so only an arrow on the left of another
one is put in parentheses. A base type is its name, whatever that holds. -/
def text : Ty → String
  | .base name => name
  | .arrow argument result =>
    (if argument.isArrow then "(" ++ argument.text ++ ")" else argument.text)
      ++ " -> " ++ result.text

end Ty

structure Binding where
  name : Name
  ty : Ty
  deriving DecidableEq, Repr, Inhabited

end TypedClosures
