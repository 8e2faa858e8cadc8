import PipeLang.Number.Binary

/-!
# Shortest decimals

The decimal text of a double has the fewest digits that read back as that double and, among those, the
digits nearest to it. The search walks the decimal grids `10 ^ k` from coarse to fine: on each grid only
the two neighbours of the number can lie among the reals that round to it.
-/

namespace PipeLang.Number

/-- A rational interval around a rational, over a common denominator. -/
structure Interval where
  low : Nat
  value : Nat
  high : Nat
  den : Nat
  /-- Whether the two ends belong to the interval. -/
  closed : Bool

/-- The reals that round to the double `m * 2 ^ q`: half the gap to either neighbour, ends included when
`m` is even. The gap below a power of two is half the gap above it. -/
def Interval.ofDouble (m : Nat) (q : Int) : Interval :=
  let below := if m = twoTo 52 && q > -1074 then 1 else 2
  let scale := (q - 2).toNat
  ⟨(4 * m - below) * twoTo scale, 4 * m * twoTo scale, (4 * m + 2) * twoTo scale, twoTo (2 - q).toNat, m % 2 == 0⟩

/-- Whether `c * den` lies in the interval `[low, high]`, or in its interior. -/
def Interval.admits (low high : Nat) (closed : Bool) (point : Nat) : Bool :=
  if closed then low ≤ point && point ≤ high else low < point && point < high

/-- The point of the grid `10 ^ k` that reads back and is nearest to the value, if there is one; a tie
goes to the greater. -/
def Interval.onGrid (i : Interval) (k : Int) : Option Nat :=
  let up := tenTo (-k).toNat
  let den := i.den * tenTo k.toNat
  let below := i.value * up / den
  let isIn (c : Nat) : Bool := Interval.admits (i.low * up) (i.high * up) i.closed (c * den)
  let nearerBelow := i.value * up - below * den < (below + 1) * den - i.value * up
  if isIn below && (nearerBelow || !isIn (below + 1)) then
    some below
  else if isIn (below + 1) then
    some (below + 1)
  else
    none

/-- The first hit on the grids `10 ^ k`, `10 ^ (k - 1)`, and so on, as digits and exponent. -/
def Interval.firstHit (i : Interval) : Nat → Int → Nat × Int
  | 0, k => (0, k)
  | tries + 1, k =>
    match i.onGrid k with
    | some digits => (digits, k)
    | none => i.firstHit tries (k - 1)

/-- The shortest decimal `digits * 10 ^ k` of the double `m * 2 ^ q`, where `m` is not zero. -/
def shortest (m : Nat) (q : Int) : Nat × Int :=
  let top := ((m.log2 : Int) + q + 1) * 30103 / 100000 + 1
  (Interval.ofDouble m q).firstHit 24 top

/-- The decimal digits of a number. -/
def digitsOf (n : Nat) : List Char :=
  Nat.toDigits 10 n

/-- The positional text of `digits * 10 ^ k`, with a point only where digits follow it. -/
def positional (digits : Nat) : Int → List Char
  | .ofNat k => digitsOf digits ++ List.replicate k '0'
  | .negSucc k =>
    let places := k + 1
    let written := digitsOf digits
    let padded := List.replicate (places + 1 - written.length) '0' ++ written
    padded.take (padded.length - places) ++ '.' :: padded.drop (padded.length - places)

/-- The text of a double: never an exponent, no point on whole numbers, no sign on zero. -/
def render (x : Float) : String :=
  match shape x with
  | .nan => "NaN"
  | .infinite negative => if negative then "-inf" else "inf"
  | .finite negative m q =>
    if m = 0 then
      "0"
    else
      let (digits, k) := shortest m q
      String.ofList ((if negative then ['-'] else []) ++ positional digits k)

end PipeLang.Number
