import TypedClosures.Build

/-!
# Sessions

A session keeps scopes, terms, witnesses, frames and code in named registers,
one bank of registers for each kind of value, and carries out steps on them.
Values do not change once they are made; a step that grows a frame puts the
grown one back. A step that reads an empty register changes nothing and says
which one it was, and a step that ends in a fault leaves its target empty.

Values of one kind can be compared with one another, in a table.
-/

namespace TypedClosures

section
variable {α : Type}

def relationTable (related : α → α → Bool) (xs : List α) : List (List Bool) :=
  xs.map fun x => xs.map (related x)

/-- The indices, from `next` on, of the entries that are neither in `seen` nor
equal to an earlier entry. -/
def newIndices [DecidableEq α] (seen : List α) (next : Nat) : List α → List Nat
  | [] => []
  | x :: xs =>
    if x ∈ seen then newIndices seen (next + 1) xs
    else next :: newIndices (x :: seen) (next + 1) xs

def distinctIndices [DecidableEq α] (xs : List α) : List Nat := newIndices [] 0 xs

end

namespace Session

abbrev Register := String

inductive Kind
  | scope
  | term
  | witness
  | frame
  | code
  deriving DecidableEq, Repr

abbrev Kind.Value : Kind → Type
  | .scope => Scope
  | .term => Term
  | .witness => Witness
  | .frame => Frame
  | .code => Code

/-- Equality of two values: spans do not count, and a frame is its names. -/
def Kind.same : (kind : Kind) → kind.Value → kind.Value → Bool
  | .scope, Γ, Δ => decide (Γ = Δ)
  | .term, t, u => decide (t.Alike u)
  | .witness, v, w => decide (v.Alike w)
  | .frame, f, g => decide (f.Alike g)
  | .code, d, e => decide (d.Alike e)

abbrev Bank (α : Type) := Std.TreeMap Register α

structure Store where
  scopes : Bank Scope
  terms : Bank Term
  witnesses : Bank Witness
  frames : Bank Frame
  codes : Bank Code

namespace Store

def empty : Store := ⟨∅, ∅, ∅, ∅, ∅⟩

def get? (s : Store) : (kind : Kind) → Register → Option kind.Value
  | .scope, r => s.scopes[r]?
  | .term, r => s.terms[r]?
  | .witness, r => s.witnesses[r]?
  | .frame, r => s.frames[r]?
  | .code, r => s.codes[r]?

def set (s : Store) : (kind : Kind) → Register → kind.Value → Store
  | .scope, r, Γ => { s with scopes := s.scopes.insert r Γ }
  | .term, r, t => { s with terms := s.terms.insert r t }
  | .witness, r, w => { s with witnesses := s.witnesses.insert r w }
  | .frame, r, f => { s with frames := s.frames.insert r f }
  | .code, r, e => { s with codes := s.codes.insert r e }

def erase (s : Store) : Kind → Register → Store
  | .scope, r => { s with scopes := s.scopes.erase r }
  | .term, r => { s with terms := s.terms.erase r }
  | .witness, r => { s with witnesses := s.witnesses.erase r }
  | .frame, r => { s with frames := s.frames.erase r }
  | .code, r => { s with codes := s.codes.erase r }

def read (s : Store) (kind : Kind) (r : Register) : Except Register kind.Value :=
  match s.get? kind r with
  | some value => .ok value
  | none => .error r

theorem get?_set (s : Store) (kind : Kind) (r r' : Register) (value : kind.Value) :
    (s.set kind r value).get? kind r' = if r = r' then some value else s.get? kind r' := by
  cases kind <;> simp [set, get?, Std.TreeMap.getElem?_insert]

theorem get?_erase (s : Store) (kind : Kind) (r r' : Register) :
    (s.erase kind r).get? kind r' = if r = r' then none else s.get? kind r' := by
  cases kind <;> simp [erase, get?, Std.TreeMap.getElem?_erase]

end Store

inductive Step
  | scope (target : Register) (bindings : List Binding)
  | extend (target source : Register) (binding : Binding)
  | lookup (scope : Register) (name : Name)
  | bindings (scope : Register)
  | term (target : Register) (t : Term)
  | elaborate (target scope term : Register) (want : Option Ty)
  | meet (target source : Register) (want : Option Ty)
  | frame (target : Register) (names : List Name)
  | find (frame : Register) (name : Name)
  | add (frame : Register) (name : Name)
  | names (frame : Register)
  | compile (target witness frame : Register)
  | compare (kind : Kind) (left right : Register)
  | present (kind : Kind) (source : Register)
  | copy (kind : Kind) (target source : Register)
  | drop (kind : Kind) (target : Register)

inductive Reply
  | unset (register : Register)
  | fault (fault : Fault)
  | scope (Γ : Scope)
  | type (ty : Ty)
  | bindings (Γ : Scope)
  | term (t : Term)
  | witness (w : Witness)
  | frame (frame : Frame)
  | found (slot : Option Slot)
  | added (slot : Slot) (frame : Frame)
  | names (frame : Frame)
  | compiled (code : Code) (frame : Frame)
  | compared (same : Bool)
  | presented (kind : Kind) (value : kind.Value)
  | copied (kind : Kind) (value : kind.Value)
  | dropped (wasSet : Bool)

def settle (s : Store) (target : Register) : Except Fault Witness → Store × Reply
  | .ok w => (s.set .witness target w, .witness w)
  | .error fault => (s.erase .witness target, .fault fault)

def perform (s : Store) : Step → Except Register (Store × Reply)
  | .scope target bindings =>
    let Γ := Scope.ofList bindings
    return (s.set .scope target Γ, .scope Γ)
  | .extend target source binding => do
    let Γ := (← s.read .scope source).extend binding
    return (s.set .scope target Γ, .scope Γ)
  | .lookup scope name => do
    match (← s.read .scope scope).lookup name with
    | .ok τ => return (s, .type τ)
    | .error fault => return (s, .fault fault)
  | .bindings scope => do return (s, .bindings (← s.read .scope scope))
  | .term target t => return (s.set .term target t, .term t)
  | .elaborate target scope term want => do
    let Γ ← s.read .scope scope
    let t ← s.read .term term
    return settle s target (Check.elaborate Γ t want).outcome
  | .meet target source want => do
    let w ← s.read .witness source
    return settle s target (w.meets want)
  | .frame target names =>
    let f := Frame.ofNames names
    return (s.set .frame target f, .frame f)
  | .find frame name => do return (s, .found ((← s.read .frame frame).find? name))
  | .add frame name => do
    let (slot, f) := (← s.read .frame frame).findOrAdd name
    return (s.set .frame frame f, .added slot f)
  | .names frame => do return (s, .names (← s.read .frame frame))
  | .compile target witness frame => do
    let f ← s.read .frame frame
    let w ← s.read .witness witness
    let emitted := Compile.compile w f
    return ((s.set .frame frame emitted.frame).set .code target emitted.value,
      .compiled emitted.value emitted.frame)
  | .compare kind left right => do
    let a ← s.read kind left
    let b ← s.read kind right
    return (s, .compared (kind.same a b))
  | .present kind source => do return (s, .presented kind (← s.read kind source))
  | .copy kind target source => do
    let value ← s.read kind source
    return (s.set kind target value, .copied kind value)
  | .drop kind target => return (s.erase kind target, .dropped (s.get? kind target).isSome)

def step (s : Store) (st : Step) : Store × Reply :=
  match perform s st with
  | .ok done => done
  | .error register => (s, .unset register)

def run (steps : List Step) : List Reply :=
  go .empty steps
where
  go (s : Store) : List Step → List Reply
    | [] => []
    | st :: rest =>
      let (s, reply) := step s st
      reply :: go s rest

end Session

end TypedClosures
