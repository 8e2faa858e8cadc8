import PipeLang.Arguments
import PipeLang.Ty

/-!
# Runtime errors

Everything that can go wrong while a program runs, as causes; the wording is derived from them.
-/

namespace PipeLang

/-- A value of the wrong type, by the place where it was found. Types of values are given as texts. -/
inductive Mismatch where
  | argument (name callee : String) (expected : Ty) (found : String)
  | result (callee : String) (expected : Ty) (found : String)
  | operands (op : BinaryOp) (left right : String)
  | operand (op : UnaryOp) (found : String)
  /-- An operator stage without an incoming value. -/
  | noLeftOperand (op : BinaryOp)
  | condition (found : String)
  | sequence (found : String)
  | indexed (found : String)
  /-- Something that has to be a whole number; the value is given by its text. -/
  | whole (what shown : String)
  deriving DecidableEq, Repr

/-- The wording of a mismatch. -/
def Mismatch.message : Mismatch → String
  | argument name callee expected found =>
    "argument `" ++ name ++ "` of `" ++ callee ++ "` expects " ++ expected.render ++ ", found " ++ found
  | result callee expected found => "`" ++ callee ++ "` should return " ++ expected.render ++ ", found " ++ found
  | operands op left right => "cannot apply `" ++ op.symbol ++ "` to " ++ left ++ " and " ++ right
  | operand op found => "cannot apply `" ++ op.symbol ++ "` to " ++ found
  | noLeftOperand op => "`" ++ op.symbol ++ "` stage has no left operand"
  | condition found => "`if` condition must be Bool, found " ++ found
  | sequence found => "`for` expects a sequence, found " ++ found
  | indexed found => "cannot index into " ++ found
  | whole what shown => what ++ " must be a whole number, found " ++ shown

/-- An error of a running program. -/
inductive RuntimeError where
  | mismatch (cause : Mismatch)
  | badCall (callee : String) (cause : CallFault)
  | stageRejectsReceiver (stage : String)
  | notCallable (found : String)
  | notAnAssembly (module : String)
  | uninitialized (name : String)
  | unresolved (name : String)
  | divisionByZero
  | rangeTooLarge (start stop : Int64)
  | indexOutOfRange (index : Int64) (length : Nat)
  | unknownHost (name : String)
  | hostFailed (name message : String)
  | moduleHasErrors (module : String)
  | missingEntry (name : String)
  | invalidArgument (argument message : String)
  deriving DecidableEq, Repr

/-- The longest sequence that a range may expand to. -/
def rangeLimit : Nat := 1000000

/-- The wording of arguments that do not fit. -/
def RuntimeError.callMessage (callee : String) : CallFault → String
  | .arity expected received =>
    "Function `" ++ callee ++ "` expected " ++ toString expected ++ " arguments but received " ++ toString received
  | .unknownParameter name => "Function `" ++ callee ++ "` has no parameter `" ++ name ++ "`"
  | .duplicateArgument name => "Argument `" ++ name ++ "` of `" ++ callee ++ "` is supplied more than once"

/-- The wording of an error. -/
def RuntimeError.message : RuntimeError → String
  | mismatch cause => "Type mismatch: " ++ cause.message
  | badCall callee cause => callMessage callee cause
  | stageRejectsReceiver stage => "Pipeline stage (" ++ stage ++ ") cannot take a receiver"
  | notCallable found => "Value of type " ++ found ++ " is not callable"
  | notAnAssembly module => "Module `" ++ module ++ "` has no top-level value to use as an assembly"
  | uninitialized name => "`" ++ name ++ "` is read before it has been evaluated"
  | unresolved name => "`" ++ name ++ "` has no resolved target"
  | divisionByZero => "Division by zero"
  | rangeTooLarge start stop =>
    "Range " ++ toString start ++ ".." ++ toString stop ++ " has more than " ++ toString rangeLimit ++ " elements"
  | indexOutOfRange index length =>
    "Index " ++ toString index ++ " is out of range for an array of length " ++ toString length
  | unknownHost name => "Unknown host function `" ++ name ++ "`"
  | hostFailed name message => "Host function `" ++ name ++ "` failed: " ++ message
  | moduleHasErrors module => "Module `" ++ module ++ "` has errors and cannot be evaluated"
  | missingEntry name => "No top-level `" ++ name ++ "` to evaluate"
  | invalidArgument argument message => "Invalid argument `" ++ argument ++ "`: " ++ message

end PipeLang
