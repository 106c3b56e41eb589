import TypedClosures.Fault

/-!
# Scopes

A scope lists bindings from the innermost outwards. A name means its innermost
binding, so extending a scope may shadow an entry but never removes one.
-/

namespace TypedClosures

abbrev Scope := List Binding

namespace Scope

def find? : Scope → Name → Option Ty
  | [], _ => none
  | b :: Γ, name => if b.name = name then some b.ty else find? Γ name

/-- As `find?`; an unbound name is a fault, without a place. -/
def lookup (Γ : Scope) (name : Name) : Except Fault Ty :=
  match Γ.find? name with
  | some ty => .ok ty
  | none => .error ⟨.unknownVariable name, .none⟩

def extend (Γ : Scope) (binding : Binding) : Scope := binding :: Γ

/-- Extends by each binding in turn, so the last one ends up innermost. -/
def extendAll (Γ : Scope) (bindings : List Binding) : Scope := bindings.foldl extend Γ

def ofList (bindings : List Binding) : Scope := extendAll [] bindings

@[simp]
theorem find?_nil (name : Name) : Scope.find? [] name = none := rfl

@[simp]
theorem find?_extend (Γ : Scope) (binding : Binding) (name : Name) :
    (Γ.extend binding).find? name =
      if binding.name = name then some binding.ty else Γ.find? name := rfl

theorem extendAll_eq (Γ : Scope) (bindings : List Binding) :
    Γ.extendAll bindings = bindings.reverse ++ Γ := by
  induction bindings generalizing Γ with
  | nil => rfl
  | cons b bs ih =>
    rw [List.reverse_cons, List.append_assoc]
    exact ih (b :: Γ)

theorem extendAll_append (Γ : Scope) (first second : List Binding) :
    Γ.extendAll (first ++ second) = (Γ.extendAll first).extendAll second :=
  List.foldl_append

end Scope

end TypedClosures
