import PipeLang.Eval.Error
import PipeLang.Value

/-!
# Operators

What operators, ranges and index brackets make of values.
-/

namespace PipeLang

/-- A result, or the error that takes its place. -/
abbrev Outcome := Except RuntimeError

/-- An infix operator on two values. -/
def BinaryOp.apply (op : BinaryOp) (left right : Value) : Outcome Value :=
  match op, left, right with
  | .eq, _, _ => .ok (.bool (left.equals right))
  | .notEq, _, _ => .ok (.bool (!left.equals right))
  | .add, .number a, .number b => .ok (.number (a + b))
  | .add, .text a, .text b => .ok (.text (a ++ b))
  | .sub, .number a, .number b => .ok (.number (a - b))
  | .mul, .number a, .number b => .ok (.number (a * b))
  | .div, .number a, .number b => if b == 0 then .error .divisionByZero else .ok (.number (a / b))
  | .rem, .number a, .number b =>
    if b == 0 then .error .divisionByZero else .ok (.number (Number.remainder a b))
  | .lt, .number a, .number b => .ok (.bool (a < b))
  | .ltEq, .number a, .number b => .ok (.bool (a ≤ b))
  | .gt, .number a, .number b => .ok (.bool (b < a))
  | .gtEq, .number a, .number b => .ok (.bool (b ≤ a))
  | .and, .bool a, .bool b => .ok (.bool (a && b))
  | .or, .bool a, .bool b => .ok (.bool (a || b))
  | _, _, _ => .error (.mismatch (.operands op left.typeName right.typeName))

/-- The result of an operator that its left operand alone decides. -/
def BinaryOp.decided? (op : BinaryOp) (left : Value) : Option Value :=
  match op, left with
  | .and, .bool false => some (.bool false)
  | .or, .bool true => some (.bool true)
  | _, _ => none

/-- An operator before one value. -/
def UnaryOp.apply (op : UnaryOp) (operand : Value) : Outcome Value :=
  match op, operand with
  | .neg, .number x => .ok (.number (-x))
  | .not, .bool b => .ok (.bool (!b))
  | _, _ => .error (.mismatch (.operand op operand.typeName))

/-- The value of a literal. -/
def Literal.value : Literal → Value
  | .number x => .number x
  | .text s => .text s
  | .bool b => .bool b

namespace Value

/-- The integer of 64 bits that a value stands for, where one is needed. -/
def whole (what : String) (v : Value) : Outcome Int64 :=
  match v.number?.bind Number.word? with
  | some n => .ok n
  | none => .error (.mismatch (.whole what v.render))

/-- An integer of 64 bits in 128. -/
def widen (n : Int64) : BitVec 128 :=
  n.toBitVec.signExtend 128

/-- How far an integer of 64 bits is from another, in 128 bits, and one more if the end counts. -/
def distance (start stop : Int64) (inclusive : Bool) : BitVec 128 :=
  widen stop - widen start + if inclusive then 1 else 0

/-- Below another integer of 64 bits there is one to count on to. -/
theorem toInt_succ {first stop : Int64} (below : first < stop) : (first + 1).toInt = first.toInt + 1 := by
  have low := first.le_toInt
  have high := stop.toInt_lt
  rw [Int64.lt_iff_toInt_lt] at below
  rw [Int64.toInt_add, Int64.toInt_one]
  exact Int.bmod_eq_of_le (by omega) (by omega)

/-- Counts from one integer up to another, and puts the numbers behind those that there are; the end is one of them if
it counts. -/
def countUp (inclusive : Bool) (first stop : Int64) (before : Array Int64) : Array Int64 :=
  if first < stop then
    countUp inclusive (first + 1) stop (before.push first)
  else if inclusive && first = stop then
    before.push first
  else
    before
  termination_by (stop.toInt - first.toInt).toNat
  decreasing_by
    next below =>
      rw [toInt_succ below]
      rw [Int64.lt_iff_toInt_lt] at below
      omega

/-- The sequence from one integer up to another. Whether it is too long is found out before any of it is made. -/
def ofRange (start stop : Int64) (inclusive : Bool) : Outcome Value :=
  if max 0 (distance start stop inclusive).toInt > rangeLimit then
    .error (.rangeTooLarge start stop)
  else
    .ok (.array ((countUp inclusive start stop #[]).toList.map fun n => .number (Float.ofInt n.toInt)))

/-- The item of an array at an index. -/
def itemAt (base index : Value) : Outcome Value := do
  match base with
  | .array items =>
    let i ← index.whole "index"
    let item := if 0 ≤ i.toInt then items[i.toInt.toNat]? else none
    match item with
    | some v => return v
    | none => throw (.indexOutOfRange i items.length)
  | other => throw (.mismatch (.indexed other.typeName))

end Value

end PipeLang
