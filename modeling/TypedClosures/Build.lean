import TypedClosures.Check.Machine
import TypedClosures.Compile.Machine

/-!
# From a term to code

Checking and compiling one after the other, with one log. A frame may have
names in it before the term's own; their slots are handed out after checking,
so that a rejected term allocates nothing.

The machines use no call stack, so a `StackPolicy` is a value to carry along and
never changes a result.
-/

namespace TypedClosures

def Span.text (span : Span) : String :=
  "(" ++ Nat.repr span.start ++ ", " ++ Nat.repr span.stop ++ ")"

inductive Level
  | trace
  | debug
  deriving DecidableEq, Repr

def Level.text : Level → String
  | .trace => "TRACE"
  | .debug => "DEBUG"

inductive Event
  | check (event : Check.Event)
  | compile (event : Compile.Event)
  deriving DecidableEq, Repr

namespace Event

def level : Event → Level
  | .check (.failed _ _) => .debug
  | _ => .trace

def message : Event → String
  | .check (.entered ⟨head, _, some want⟩) => "checking " ++ head.text ++ " against " ++ want.text
  | .check (.entered ⟨head, _, none⟩) => "inferring " ++ head.text
  | .check (.failed goal fault) => "failed to check " ++ goal.head.text ++ ": " ++ fault.message
  | .compile (.allocated slot name) => "allocating slot " ++ Slot.text slot ++ " for " ++ name
  | .compile (.converted arity captures slots) =>
    "closure of arity " ++ Nat.repr arity ++ " captures " ++ Nat.repr captures ++ " of "
      ++ Nat.repr slots ++ " body slots"

def span? : Event → Option Span
  | .check (.entered goal) | .check (.failed goal _) => some goal.span
  | .compile _ => none

end Event

structure Build where
  events : List Event
  outcome : Except Fault (Code × Frame)

def compileWith (reserved : List Name) (w : Witness) : Compile.Emitted Code :=
  (do Compile.allocateAll reserved; Compile.compile w : Compile.Emit Code) Frame.empty

def build (Γ : Scope) (t : Term) (want : Option Ty) (reserved : List Name) : Build :=
  let checked := Check.elaborate Γ t want
  match checked.outcome with
  | .error fault => ⟨checked.events.map .check, .error fault⟩
  | .ok w =>
    let emitted := compileWith reserved w
    ⟨checked.events.map .check ++ emitted.events.map .compile,
      .ok (emitted.value, emitted.frame)⟩

/-- How many bytes of stack a recursive checker keeps in reserve, and by how many it grows
the stack when that runs low. -/
structure StackPolicy where
  redZone : Nat := 32 * 1024
  growth : Nat := 1024 * 1024
  deriving DecidableEq, Repr

instance : Inhabited StackPolicy := ⟨{}⟩

end TypedClosures
