import TypedClosures.Check.Run

/-!
# The typing rules, as a recursion

`derive Γ t want` checks `t` in the scope `Γ`, against the type `want` if there
is one. A wanted type is passed on to the first branch of a conditional, and to
the body of a lambda as long as the annotations agree with it; everywhere else
it is only compared with the type found.

`rule` is the part of a step that depends on the node, before the comparison.
-/

namespace TypedClosures.Check

/-- What a wanted type asks of a lambda's body: it loses an arrow for every
parameter, and asks nothing once an argument differs from the annotation. -/
def bodyWant : List Binding → Option Ty → Option Ty
  | [], want => want
  | p :: ps, some (.arrow argument result) =>
    bodyWant ps (if argument = p.ty then some result else none)
  | _ :: _, _ => none

theorem bodyWant_none (params : List Binding) : bodyWant params none = none := by
  cases params <;> rfl

def variableAt (Γ : Scope) (span : Span) (x : Name) : Except Fault Witness :=
  match Γ.lookup x with
  | .ok τ => .ok (.var span τ x)
  | .error fault => .error (fault.moveTo span)

theorem variableAt_eq (Γ : Scope) (span : Span) (x : Name) :
    variableAt Γ span x = match Γ.find? x with
      | some τ => .ok (.var span τ x)
      | none => .error ⟨.unknownVariable x, span⟩ := by
  unfold variableAt Scope.lookup
  cases Γ.find? x <;> rfl

def abstract (span : Span) (params : List Binding) (body : Witness) : Witness :=
  .lam span (Ty.curried (params.map Binding.ty) body.ty) (params.map Binding.name) body

mutual

def rule (Γ : Scope) : Term → Option Ty → Run Witness
  | .var s x, _ => .ofExcept (variableAt Γ s x)
  | .cond s c a b, want => do
    let c ← (c.goal (some .bool)).visit (rule Γ c (some .bool))
    let a ← (a.goal want).visit (rule Γ a want)
    let b ← (b.goal (some a.ty)).visit (rule Γ b (some a.ty))
    return .cond s a.ty c a b
  | .app s f xs, _ => do
    let f ← (f.goal none).visit (rule Γ f none)
    let (τ, xs) ← operands Γ f.span xs f.ty
    return .app s τ f xs
  | .lam s [] _, _ => .fail ⟨.nullaryLambda, s⟩
  | .lam s (p :: ps) b, want => do
    let inner := bodyWant (p :: ps) want
    let b ← (b.goal inner).visit (rule (Γ.extendAll (p :: ps)) b inner)
    return abstract s (p :: ps) b

/-- Checks operands against the arguments of a function type, and gives the
type that is left. An operand without an argument to go with is a fault of
the operator, at `place`. -/
def operands (Γ : Scope) (place : Span) : List Term → Ty → Run (Ty × List Witness)
  | [], τ => return (τ, [])
  | x :: xs, .arrow argument result => do
    let w ← (x.goal (some argument)).visit (rule Γ x (some argument))
    let (τ, ws) ← operands Γ place xs result
    return (τ, w :: ws)
  | _ :: _, .base name => .fail ⟨.notAFunction (.base name), place⟩

end

def derive (Γ : Scope) (t : Term) (want : Option Ty) : Run Witness :=
  (t.goal want).visit (rule Γ t want)

-- ---------------------------------------------------------------------------
-- The rules, by way of `derive`
-- ---------------------------------------------------------------------------

theorem rule_var (Γ : Scope) (s : Span) (x : Name) (want : Option Ty) :
    rule Γ (.var s x) want = .ofExcept (variableAt Γ s x) := rfl

theorem rule_cond (Γ : Scope) (s : Span) (c a b : Term) (want : Option Ty) :
    rule Γ (.cond s c a b) want = (do
      let c ← derive Γ c (some .bool)
      let a ← derive Γ a want
      let b ← derive Γ b (some a.ty)
      return .cond s a.ty c a b) := rfl

theorem rule_app (Γ : Scope) (s : Span) (f : Term) (xs : List Term) (want : Option Ty) :
    rule Γ (.app s f xs) want = (do
      let f ← derive Γ f none
      let (τ, xs) ← operands Γ f.span xs f.ty
      return .app s τ f xs) := rfl

theorem rule_lam_nil (Γ : Scope) (s : Span) (b : Term) (want : Option Ty) :
    rule Γ (.lam s [] b) want = .fail ⟨.nullaryLambda, s⟩ := rfl

theorem rule_lam_cons (Γ : Scope) (s : Span) (p : Binding) (ps : List Binding) (b : Term)
    (want : Option Ty) :
    rule Γ (.lam s (p :: ps) b) want = (do
      let b ← derive (Γ.extendAll (p :: ps)) b (bodyWant (p :: ps) want)
      return abstract s (p :: ps) b) := rfl

theorem operands_nil (Γ : Scope) (place : Span) (τ : Ty) :
    operands Γ place [] τ = return (τ, []) := by
  cases τ <;> rfl

theorem operands_cons_arrow (Γ : Scope) (place : Span) (x : Term) (xs : List Term)
    (argument result : Ty) :
    operands Γ place (x :: xs) (.arrow argument result) = (do
      let w ← derive Γ x (some argument)
      let (τ, ws) ← operands Γ place xs result
      return (τ, w :: ws)) := rfl

theorem operands_cons_base (Γ : Scope) (place : Span) (x : Term) (xs : List Term)
    (name : Name) :
    operands Γ place (x :: xs) (.base name) = .fail ⟨.notAFunction (.base name), place⟩ := rfl

end TypedClosures.Check
