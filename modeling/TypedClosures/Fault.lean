import TypedClosures.Ty

/-!
# Faults

Why a term was rejected, and where. The cause is data; its wording is given
once, by `Cause.message` for a line of its own and by `Cause.label` for the
note under the offending text.
-/

namespace TypedClosures

inductive Cause
  | unknownVariable (name : Name)
  | typeMismatch (actual expected : Ty)
  | notAFunction (actual : Ty)
  | nullaryLambda
  deriving DecidableEq, Repr

structure Fault where
  cause : Cause
  span : Span
  deriving DecidableEq, Repr

namespace Cause

private def quoted (text : String) : String := "`" ++ text ++ "`"

def message : Cause → String
  | .unknownVariable name => "unknown variable " ++ quoted name
  | .typeMismatch actual expected =>
    "type mismatch: expected " ++ quoted expected.text ++ ", found " ++ quoted actual.text
  | .notAFunction actual => "not a function type: " ++ quoted actual.text
  | .nullaryLambda => "lambda must bind at least one parameter"

def label : Cause → String
  | .unknownVariable name => quoted name ++ " is not bound here"
  | .typeMismatch actual _ => "this has type " ++ quoted actual.text
  | .notAFunction actual =>
    "this has type " ++ quoted actual.text ++ " and cannot take another argument"
  | .nullaryLambda => "no parameters"

end Cause

namespace Fault

def message (fault : Fault) : String := fault.cause.message

def moveTo (fault : Fault) (span : Span) : Fault := { fault with span }

end Fault

end TypedClosures
