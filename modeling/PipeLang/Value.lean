import PipeLang.Expr
import PipeLang.Number.Shortest
import PipeLang.Scope

/-!
# Values

What expressions evaluate to. Numbers are doubles, arrays may mix any values, and functions and host objects
are compared by identity.
-/

namespace PipeLang

/-- A frame of the running program, by its place in the order of creation. -/
abbrev FrameId := Nat

/-- A function literal with the frame it was evaluated in. -/
structure Closure where
  /-- The name it was defined under. -/
  name : Option String
  module : ModuleId
  lambda : Lambda
  frame : FrameId
  /-- Tells it from every other evaluation of a function literal. -/
  identity : Nat

/-- The name of a function in messages. -/
def Closure.shownName (c : Closure) : String :=
  c.name.getD "<anonymous>"

/-- A value. -/
inductive Value where
  | unit
  | number (value : Float)
  | bool (value : Bool)
  | text (value : String)
  | array (items : List Value)
  | closure (closure : Closure)
  /-- A host function, by its name. -/
  | host (name : String)
  /-- An object that host functions make and take: its kind, what tells it from all others, and what the host
  keeps in it. -/
  | object (kind : String) (identity : Nat) (content : Value)
  deriving Inhabited

namespace Value

/-- What a value is called in messages. -/
def typeName : Value → String
  | unit => "()"
  | number _ => "Number"
  | bool _ => "Bool"
  | text _ => "String"
  | array _ => "array"
  | closure _ | host _ => "Fn"
  | object kind _ _ => kind

/-- The double that a value is. -/
def number? : Value → Option Float
  | number x => some x
  | _ => none

mutual

/-- Whether a value fits a type. -/
def conforms : Value → Ty → Bool
  | _, .any => true
  | number _, .number | bool _, .bool | text _, .string | unit, .unit => true
  | array items, .array element => allConform items element
  | closure _, .function _ | host _, .function _ => true
  | object kind _ _, .named name => kind == name
  | _, _ => false

/-- Whether every value fits a type. -/
def allConform : List Value → Ty → Bool
  | [], _ => true
  | v :: vs, ty => v.conforms ty && allConform vs ty

end

mutual

/-- Equality of values: of arrays element by element, of functions and objects by identity. Numbers compare
as doubles, so NaN differs from itself. -/
def equals : Value → Value → Bool
  | unit, unit => true
  | number a, number b => a == b
  | bool a, bool b => a == b
  | text a, text b => a == b
  | array as, array bs => allEqual as bs
  | closure a, closure b => a.identity == b.identity
  | host a, host b => a == b
  | object _ a _, object _ b _ => a == b
  | _, _ => false

/-- Equality of lists of values, which must have equal lengths. -/
def allEqual : List Value → List Value → Bool
  | [], [] => true
  | a :: as, b :: bs => a.equals b && allEqual as bs
  | _, _ => false

end

mutual

/-- The text of a value. -/
def render : Value → String
  | unit => "()"
  | number x => Number.render x
  | bool b => if b then "true" else "false"
  | text s => s
  | array items => renderItems "[" items ++ "]"
  | closure c => match c.name with
    | some name => "<fn " ++ name ++ ">"
    | none => "<fn>"
  | host name => "<host fn " ++ name ++ ">"
  | object kind _ _ => "<" ++ kind ++ ">"

/-- A text, then the texts of values with commas between them. -/
def renderItems (before : String) : List Value → String
  | [] => before
  | [v] => before ++ v.render
  | v :: vs => renderItems (before ++ v.render ++ ", ") vs

end

end Value

end PipeLang
