/-!
# Powers

The powers that binary and decimal notation are built from.
-/

namespace PipeLang.Number

/-- Two to a power. -/
def twoTo (k : Nat) : Nat :=
  Nat.pow 2 k

/-- Ten to a power. -/
def tenTo (k : Nat) : Nat :=
  Nat.pow 10 k

end PipeLang.Number
