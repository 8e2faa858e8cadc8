import Mathlib.Tactic.Lemma
import PipeLang.Eval.Operator

/-!
# Ranges

A range is the whole numbers that it stands for, whichever two integers of 64 bits it stands between. Its length is found
out in 128 bits and its numbers are counted in 64: both are compared here with the same count over all the integers, in
which nothing can overflow. Counting never goes past the end, so that a range up to the greatest integer ends there.
-/

namespace PipeLang.Value

variable (start stop : Int64) (inclusive : Bool)

/-- How many whole numbers a range stands for, counted over all the integers. -/
def rangeCount : Nat :=
  (max 0 (stop.toInt - start.toInt + if inclusive then 1 else 0)).toNat

@[simp]
lemma toInt_widen (n : Int64) : (widen n).toInt = n.toInt := by
  rw [widen, BitVec.toInt_signExtend_of_le (by decide), Int64.toInt_toBitVec]

/-- How far two integers of 64 bits can be apart. -/
lemma toInt_sub_bounds :
    -18446744073709551616 < stop.toInt - start.toInt ∧ stop.toInt - start.toInt < 18446744073709551616 := by
  have lowStart := start.le_toInt
  have highStart := start.toInt_lt
  have lowStop := stop.le_toInt
  have highStop := stop.toInt_lt
  constructor
  · omega
  · omega

/-- So in 128 bits their difference is that of the integers. -/
lemma toInt_widen_sub : (widen stop - widen start).toInt = stop.toInt - start.toInt := by
  obtain ⟨low, high⟩ := toInt_sub_bounds start stop
  rw [BitVec.toInt_sub, toInt_widen, toInt_widen]
  apply Int.bmod_eq_of_le
  · omega
  · omega

lemma toInt_distance :
    (distance start stop inclusive).toInt = stop.toInt - start.toInt + if inclusive then 1 else 0 := by
  obtain ⟨low, high⟩ := toInt_sub_bounds start stop
  have unit : (if inclusive then (1 : BitVec 128) else 0).toInt = if inclusive then 1 else 0 := by
    cases inclusive
    · rfl
    · rfl
  rw [distance, BitVec.toInt_add, toInt_widen_sub, unit]
  apply Int.bmod_eq_of_le
  · split <;> omega
  · split <;> omega

lemma rangeCount_succ {first stop : Int64} (below : first < stop) :
    rangeCount first stop inclusive = rangeCount (first + 1) stop inclusive + 1 := by
  rw [rangeCount, rangeCount, toInt_succ below]
  rw [Int64.lt_iff_toInt_lt] at below
  split <;> omega

lemma rangeCount_self (n : Int64) : rangeCount n n true = 1 := by
  rw [rangeCount, if_pos rfl]
  omega

lemma rangeCount_past {first stop : Int64} (past : ¬ first < stop) (out : ¬ (inclusive && first = stop) = true) :
    rangeCount first stop inclusive = 0 := by
  have apart : inclusive = true → first.toInt ≠ stop.toInt := by
    intro closed same
    exact out (by simp [closed, Int64.toInt_inj.1 same])
  rw [Int64.lt_iff_toInt_lt] at past
  rw [rangeCount]
  split
  next closed =>
    have := apart closed
    omega
  next => omega

/-- Counting gives the whole numbers from the first one on, as many as there are, behind those that there were. -/
lemma countUp_toInt (first stop : Int64) (before : Array Int64) :
    (countUp inclusive first stop before).toList.map Int64.toInt =
      before.toList.map Int64.toInt ++ (List.range (rangeCount first stop inclusive)).map fun k : Nat => first.toInt + k := by
  fun_induction countUp inclusive first stop before with
  | case1 first before below ih =>
    have shift (k : Nat) : first.toInt + 1 + (k : Int) = first.toInt + (k + 1 : Nat) := by omega
    rw [ih, rangeCount_succ inclusive below, List.range_succ_eq_map, toInt_succ below]
    simp [shift]
  | case2 first before past last =>
    obtain ⟨rfl, rfl⟩ : inclusive = true ∧ first = stop := by simpa using last
    simp [rangeCount_self]
  | case3 first before past out =>
    simp [rangeCount_past inclusive past out]

/-- A range gives its numbers exactly when there are no more of them than the limit, and each of them is the start and
its place. The lengths and the numbers on the way are those of the integers: none of them wraps around. -/
theorem ofRange_exact :
    (widen stop - widen start).toInt = stop.toInt - start.toInt ∧
    (distance start stop inclusive).toInt = stop.toInt - start.toInt + (if inclusive then 1 else 0) ∧
    (countUp inclusive start stop #[]).toList.map Int64.toInt =
      (List.range (rangeCount start stop inclusive)).map (fun k : Nat => start.toInt + k) ∧
    ofRange start stop inclusive =
      if rangeCount start stop inclusive > 1000000 then
        .error (.rangeTooLarge start stop)
      else
        .ok (.array ((List.range (rangeCount start stop inclusive)).map
          fun k : Nat => .number (Float.ofInt (start.toInt + k)))) := by
  have counted := countUp_toInt inclusive start stop #[]
  have measured := toInt_distance start stop inclusive
  refine ⟨toInt_widen_sub start stop, measured, by simpa using counted, ?_⟩
  have limits : max 0 (distance start stop inclusive).toInt > rangeLimit ↔
      rangeCount start stop inclusive > 1000000 := by
    rw [measured, rangeCount, rangeLimit]
    omega
  have numbers : ((countUp inclusive start stop #[]).toList.map fun n => Value.number (Float.ofInt n.toInt)) =
      (List.range (rangeCount start stop inclusive)).map fun k : Nat => .number (Float.ofInt (start.toInt + k)) := by
    have converted := congrArg (List.map fun n => Value.number (Float.ofInt n)) counted
    simpa [Function.comp_def] using converted
  rw [ofRange, numbers]
  simp only [limits]

example : ofRange Int64.minValue Int64.maxValue true = .error (.rangeTooLarge Int64.minValue Int64.maxValue) := rfl

end PipeLang.Value
