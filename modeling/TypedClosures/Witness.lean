import TypedClosures.Term
import TypedClosures.Fault

/-!
# Witnesses

What checking a term gives: the same tree with its type at every node. The
types of a lambda's parameters are read off the lambda's own type, so a
witness keeps only the parameters' names.

A witness is plain data, and nothing forces the types in it to fit together.
-/

namespace TypedClosures

inductive Witness
  | var (span : Span) (ty : Ty) (name : Name)
  | cond (span : Span) (ty : Ty) (test yes no : Witness)
  | app (span : Span) (ty : Ty) (operator : Witness) (operands : List Witness)
  | lam (span : Span) (ty : Ty) (params : List Name) (body : Witness)
  deriving Repr, Inhabited

namespace Witness

def span : Witness → Span
  | .var s _ _ | .cond s _ _ _ _ | .app s _ _ _ | .lam s _ _ _ => s

def ty : Witness → Ty
  | .var _ τ _ | .cond _ τ _ _ _ | .app _ τ _ _ | .lam _ τ _ _ => τ

/-- Passes the witness on if its type is the wanted one, or if none is. -/
def meets (w : Witness) : Option Ty → Except Fault Witness
  | none => .ok w
  | some want => if w.ty = want then .ok w else .error ⟨.typeMismatch w.ty want, w.span⟩

theorem meets_eq_ok_iff {w w' : Witness} {want : Option Ty} :
    w.meets want = .ok w' ↔ w' = w ∧ ∀ τ ∈ want, w.ty = τ := by
  cases want with
  | none => simp [meets, eq_comm]
  | some τ =>
    by_cases h : w.ty = τ
    · simp [meets, h, eq_comm]
    · simp [meets, h]

theorem meets_eq_error_iff {w : Witness} {want : Option Ty} {fault : Fault} :
    w.meets want = .error fault ↔
      ∃ τ, want = some τ ∧ w.ty ≠ τ ∧ fault = ⟨.typeMismatch w.ty τ, w.span⟩ := by
  cases want with
  | none => simp [meets]
  | some τ =>
    by_cases h : w.ty = τ
    · simp [meets, h]
    · simp [meets, h, @eq_comm _ fault]

mutual

def size : Witness → Nat
  | .var .. => 1
  | .cond _ _ c a b => c.size + a.size + b.size + 1
  | .app _ _ f xs => f.size + sizeList xs + 1
  | .lam _ _ _ b => b.size + 1

def sizeList : List Witness → Nat
  | [] => 0
  | w :: ws => w.size + sizeList ws

end

-- ---------------------------------------------------------------------------
-- Equality and induction
-- ---------------------------------------------------------------------------

mutual

def decEq : (v w : Witness) → Decidable (v = w)
  | .var s τ x, .var s' τ' y => decidable_of_iff (s = s' ∧ τ = τ' ∧ x = y) (by simp)
  | .cond s τ c a b, .cond s' τ' c' a' b' =>
    have := decEq c c'
    have := decEq a a'
    have := decEq b b'
    decidable_of_iff (s = s' ∧ τ = τ' ∧ c = c' ∧ a = a' ∧ b = b') (by simp)
  | .app s τ f xs, .app s' τ' f' xs' =>
    have := decEq f f'
    have := decEqList xs xs'
    decidable_of_iff (s = s' ∧ τ = τ' ∧ f = f' ∧ xs = xs') (by simp)
  | .lam s τ ps b, .lam s' τ' ps' b' =>
    have := decEq b b'
    decidable_of_iff (s = s' ∧ τ = τ' ∧ ps = ps' ∧ b = b') (by simp)
  | .var .., .cond .. | .var .., .app .. | .var .., .lam ..
  | .cond .., .var .. | .cond .., .app .. | .cond .., .lam ..
  | .app .., .var .. | .app .., .cond .. | .app .., .lam ..
  | .lam .., .var .. | .lam .., .cond .. | .lam .., .app .. => isFalse (by simp)

def decEqList : (vs ws : List Witness) → Decidable (vs = ws)
  | [], [] => isTrue rfl
  | v :: vs, w :: ws =>
    have := decEq v w
    have := decEqList vs ws
    decidable_of_iff (v = w ∧ vs = ws) (by simp)
  | [], _ :: _ | _ :: _, [] => isFalse (by simp)

end

instance : DecidableEq Witness := decEq

@[elab_as_elim]
theorem induct {motive : Witness → Prop}
    (var : ∀ s τ x, motive (.var s τ x))
    (cond : ∀ s τ c a b, motive c → motive a → motive b → motive (.cond s τ c a b))
    (app : ∀ s τ f xs, motive f → (∀ x ∈ xs, motive x) → motive (.app s τ f xs))
    (lam : ∀ s τ ps b, motive b → motive (.lam s τ ps b)) (w : Witness) : motive w :=
  match w with
  | .var s τ x => var s τ x
  | .cond s τ c a b =>
    cond s τ c a b (induct var cond app lam c) (induct var cond app lam a)
      (induct var cond app lam b)
  | .app s τ f xs => app s τ f xs (induct var cond app lam f) fun x _ => induct var cond app lam x
  | .lam s τ ps b => lam s τ ps b (induct var cond app lam b)

-- ---------------------------------------------------------------------------
-- Witnesses up to spans
-- ---------------------------------------------------------------------------

mutual

def bare : Witness → Witness
  | .var _ τ x => .var .none τ x
  | .cond _ τ c a b => .cond .none τ c.bare a.bare b.bare
  | .app _ τ f xs => .app .none τ f.bare (bareList xs)
  | .lam _ τ ps b => .lam .none τ ps b.bare

def bareList : List Witness → List Witness
  | [] => []
  | w :: ws => w.bare :: bareList ws

end

theorem bareList_eq_map (ws : List Witness) : bareList ws = ws.map bare := by
  induction ws with
  | nil => rfl
  | cons w ws ih => simp [bareList, ih]

def Alike (v w : Witness) : Prop := v.bare = w.bare

instance (v w : Witness) : Decidable (v.Alike w) :=
  inferInstanceAs (Decidable (v.bare = w.bare))

end Witness

end TypedClosures
