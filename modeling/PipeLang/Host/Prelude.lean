import PipeLang.Host

/-!
# The prelude

The numeric and array functions that every program can use.
-/

namespace PipeLang.Hosts

/-- A parameter without a default. -/
def param (name : String) (ty : Ty) : HostParam :=
  ⟨name, ty, none⟩

/-- The lesser of two doubles, the second of two equal ones; a NaN yields to the other. -/
def lesser (a b : Float) : Float :=
  if a.isNaN then b else if b.isNaN then a else if a < b then a else b

/-- The greater of two doubles, the second of two equal ones; a NaN yields to the other. -/
def greater (a b : Float) : Float :=
  if a.isNaN then b else if b.isNaN then a else if b < a then a else b

/-- A function of one number. -/
def ofUnary (f : Float → Float) (_ : Nat) : List Value → Except String Value
  | [.number x] => .ok (.number (f x))
  | _ => .error "expected one number"

/-- A function of two numbers. -/
def ofBinary (f : Float → Float → Float) (_ : Nat) : List Value → Except String Value
  | [.number x, .number y] => .ok (.number (f x y))
  | _ => .error "expected two numbers"

/-- The square root of a number that is not negative. -/
def squareRoot (serial : Nat) (args : List Value) : Except String Value :=
  match args with
  | .number x :: _ =>
    if x < 0 then
      .error ("cannot take the square root of " ++ Number.render x)
    else
      ofUnary Float.sqrt serial args
  | _ => ofUnary Float.sqrt serial args

/-- The number of items of an array. -/
def arrayLength (_ : Nat) : List Value → Except String Value
  | .array items :: _ => .ok (.number (Float.ofNat items.length))
  | _ => .error "expected an array"

/-- An array with one more item. -/
def arrayPush (_ : Nat) : List Value → Except String Value
  | [.array items, item] => .ok (.array (items ++ [item]))
  | _ => .error "expected an array and an item"

/-- The host functions that every program has. -/
def prelude : Hosts :=
  empty
    |>.register "min" [param "a" .number, param "b" .number] .number (ofBinary lesser)
    |>.register "max" [param "a" .number, param "b" .number] .number (ofBinary greater)
    |>.register "abs" [param "x" .number] .number (ofUnary Float.abs)
    |>.register "sqrt" [param "x" .number] .number squareRoot
    |>.register "pow" [param "base" .number, ⟨"exponent", .number, some (.number 2)⟩] .number
      (ofBinary Float.pow)
    |>.register "len" [param "items" (.array .any)] .number arrayLength
    |>.register "push" [param "items" (.array .any), param "item" .any] (.array .any) arrayPush

end PipeLang.Hosts
