import PipeLang.Number.Power

/-!
# Doubles taken apart

A double is a signed magnitude `m * 2 ^ q`, an infinity, or not a number. Everything the language asks
of a double beyond its arithmetic is answered from that shape in exact integer arithmetic: whether it is
whole, which integer it is, the remainder of a division, and the double nearest to a quotient of integers.
-/

namespace PipeLang.Number

/-- What a double stands for. -/
inductive Shape where
  /-- The number `m * 2 ^ q`, negated when `negative` holds. -/
  | finite (negative : Bool) (m : Nat) (q : Int)
  | infinite (negative : Bool)
  | nan
  deriving DecidableEq, Repr

/-- The shape with the given bits: one for the sign, eleven for the exponent, 52 for the fraction. -/
def Shape.ofBits (bits : Nat) : Shape :=
  let negative := bits / twoTo 63 % 2 == 1
  let exponent : Nat := bits / twoTo 52 % twoTo 11
  let fraction := bits % twoTo 52
  if exponent = 2047 then
    if fraction = 0 then .infinite negative else .nan
  else if exponent = 0 then
    .finite negative fraction (-1074)
  else
    .finite negative (twoTo 52 + fraction) ((exponent : Int) - 1075)

/-- The shape of a double. -/
def shape (x : Float) : Shape :=
  Shape.ofBits x.toBits.toNat

/-- The integer that a shape is, if it is one. -/
def Shape.whole? : Shape → Option Int
  | .finite negative m (.ofNat q) => some (if negative then -(m * twoTo q : Nat) else (m * twoTo q : Nat))
  | .finite negative m (.negSucc q) =>
    if m % twoTo (q + 1) = 0 then
      some (if negative then -(m / twoTo (q + 1) : Nat) else (m / twoTo (q + 1) : Nat))
    else
      none
  | .infinite _ | .nan => none

/-- The integer that a double is; fractions, infinities and NaN are none. -/
def whole? (x : Float) : Option Int :=
  (shape x).whole?

/-- The least integer of 64 bits. -/
def wordMin : Int := -0x8000000000000000

/-- The greatest integer of 64 bits. -/
def wordMax : Int := 0x7fffffffffffffff

/-- The whole number of 64 bits that a double converts to, beyond either end the end itself. -/
def word? (x : Float) : Option Int64 :=
  (whole? x).map Int64.ofIntClamp

/-- Whether a shape has a fraction. What is not finite has one too: it is not a number, which is not zero. -/
def Shape.hasFraction : Shape → Bool
  | .finite _ _ (.ofNat _) => false
  | .finite _ m (.negSucc q) => m % twoTo (q + 1) != 0
  | .infinite _ | .nan => true

/-- Whether a double has a fraction. -/
def hasFraction (x : Float) : Bool :=
  (shape x).hasFraction

/-- The integer of 64 bits that a shape converts to: its fraction is cut off, what lies beyond either end becomes that
end, and what is not a number becomes zero. -/
def Shape.toWord : Shape → Int64
  | .finite negative m (.ofNat q) => .ofIntClamp (if negative then -(m * twoTo q : Nat) else (m * twoTo q : Nat))
  | .finite negative m (.negSucc q) =>
    .ofIntClamp (if negative then -(m / twoTo (q + 1) : Nat) else (m / twoTo (q + 1) : Nat))
  | .infinite negative => if negative then .minValue else .maxValue
  | .nan => 0

/-- The integer of 64 bits that a double converts to. -/
def toWord (x : Float) : Int64 :=
  (shape x).toWord

/-- The whole numbers are the shapes without a fraction. -/
theorem Shape.whole?_eq (s : Shape) : s.whole?.map Int64.ofIntClamp = if s.hasFraction then none else some s.toWord := by
  cases s with
  | finite negative m q =>
    cases q with
    | ofNat q => rfl
    | negSucc q =>
      by_cases whole : m % twoTo (q + 1) = 0
      · simp [whole?, hasFraction, toWord, whole]
      · simp [whole?, hasFraction, whole]
  | infinite negative => rfl
  | nan => rfl

theorem word?_eq (x : Float) : word? x = if hasFraction x then none else some (toWord x) :=
  (shape x).whole?_eq

/-- `num / den` rounded to the nearest integer, halves to the even neighbour. -/
def roundQuotient (num den : Nat) : Nat :=
  let floor := num / den
  let twice := 2 * (num % den)
  if twice > den || (twice == den && floor % 2 == 1) then floor + 1 else floor

/-- The numerator and denominator of `num / den / 2 ^ q`. -/
def scaleDown (num den : Nat) : Int → Nat × Nat
  | .ofNat q => (num, den * twoTo q)
  | .negSucc q => (num * twoTo (q + 1), den)

/-- The exponent of the grid of doubles around `num / den`, so that the quotient by `2 ^ q` has 53 bits
unless it is below the least normal double. -/
def gridExponent (num den : Nat) : Int :=
  let guess : Int := (num.log2 : Int) - den.log2 - 53
  let (n, d) := scaleDown num den guess
  let q := if n < d * twoTo 53 then guess else guess + 1
  max (-1074) q

/-- The bits of the double nearest to `num / den`, halves to the even neighbour; too great a number
rounds to infinity. -/
def nearestBits (num den : Nat) : Nat :=
  if num = 0 then
    0
  else
    let q := gridExponent num den
    let (n, d) := scaleDown num den q
    min (2047 * twoTo 52) ((q + 1074).toNat * twoTo 52 + roundQuotient n d)

/-- The double nearest to `num / den`, with a sign. -/
def nearest (negative : Bool) (num den : Nat) : Float :=
  Float.ofBits (UInt64.ofNat (nearestBits num den + if negative then twoTo 63 else 0))

/-- The double nearest to `digits / 10 ^ places`. -/
def ofDecimal (digits places : Nat) : Float :=
  nearest false digits (tenTo places)

/-- The remainder of a division rounded toward zero, with the sign of the dividend. -/
def remainder (x y : Float) : Float :=
  match shape x, shape y with
  | .finite negative m q, .finite _ n r =>
    let least := min q r
    let dividend := m * twoTo (q - least).toNat
    let divisor := n * twoTo (r - least).toNat
    if divisor = 0 then
      0.0 / 0.0
    else
      let (num, den) := scaleDown (dividend % divisor) 1 (-least)
      nearest negative num den
  | .finite .., .infinite _ => x
  | _, _ => 0.0 / 0.0

/-- A text of 16 hexadecimal digits, most significant first. -/
def hex16 (bits : Nat) : String :=
  let digits := Nat.toDigits 16 bits
  String.ofList (List.replicate (16 - digits.length) '0' ++ digits)

end PipeLang.Number
