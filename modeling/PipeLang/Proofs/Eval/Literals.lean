import PipeLang.Entry
import PipeLang.Proofs.Eval.Keeps
import PipeLang.Proofs.Load.Nested

/-!
# Literals

An expression that is built from literals alone has a value before any program runs, which is how arguments are given on a
command line. Main statement: `Expr.literalValue_evaluates`, it is the value that the expression evaluates to wherever it
stands in a program.
-/

namespace PipeLang

/-- A computation with a bound on how deeply tasks nest in it comes to a value and to nothing else: within less than some
depth it stops there, and the machine is left as it is. -/
def Eval.Steady {α : Type} (depth : Nat) (x : Nat → Eval α) (a : α) : Prop :=
  ∀ fuel m, x fuel m = if depth ≤ fuel then .ok a m else .error .outOfFuel m

namespace Eval.Steady

variable {α β : Type} {depth depth' : Nat} {x : Nat → Eval α} {f : Nat → α → Eval β} {a : α} {b : β}

lemma pure : Steady 0 (fun _ => Pure.pure a) a :=
  fun fuel _ => (if_pos fuel.zero_le).symm

lemma ofOutcome {o : Outcome α} (known : o = .ok a) : Steady 0 (fun _ => Eval.ofOutcome o) a := by
  subst known
  exact pure

lemma bind (first : Steady depth x a) (next : Steady depth' (fun fuel => f fuel a) b) :
    Steady (max depth depth') (fun fuel => x fuel >>= f fuel) b := by
  intro fuel m
  have ran := first fuel m
  by_cases enough : depth ≤ fuel
  · rw [if_pos enough] at ran
    simp only [bind_eq ran, next fuel m, Nat.max_le, enough, true_and]
  · rw [if_neg enough] at ran
    simp only [bind_stop ran, Nat.max_le, enough, false_and, if_false]

/-- What a task comes to when the tasks inside it may nest as deeply, it comes to one level further out. -/
lemma task {p : Program} {t : Task} {v : Value} (h : Steady depth (fun fuel => step p (Task.run p fuel) t) v) :
    Steady (depth + 1) (fun fuel => Task.run p fuel t) v := by
  intro fuel m
  cases fuel with
  | zero => rfl
  | succ fuel =>
    simp only [Nat.add_le_add_iff_right]
    exact h fuel m

end Eval.Steady

open Eval

/-- The whole number that a literal stands for is the one that evaluation takes it for. -/
lemma Value.whole_literal {x : Float} (what : String) (whole : Number.hasFraction x = false) :
    (Value.number x).whole what = .ok (Number.toWord x) := by
  have known : Number.word? x = some (Number.toWord x) := by rw [Number.word?_eq, whole]; rfl
  simp only [Value.whole, Value.number?, Option.bind_some, known]

lemma Value.number?_eq_some {v : Value} {x : Float} : v.number? = some x ↔ v = .number x := by
  cases v <;> simp [Value.number?]

mutual

lemma Expr.literal_steady : ∀ {e : Expr} {v : Value}, e.literalValue? = some v →
    ∃ depth, ∀ p c, Steady depth (fun fuel => Task.run p fuel (.expr c e none)) v
  | .literal value span, v, known => by
    simp only [literalValue?, Option.some.injEq] at known
    subst known
    exact ⟨1, fun p c => Steady.task .pure⟩
  | .array items span, v, known => by
    simp only [literalValue?] at known
    obtain ⟨vs, items, rfl⟩ := Option.map_eq_some_iff.1 known
    obtain ⟨depth, steady⟩ := Expr.literals_steady items
    exact ⟨_, fun p c => Steady.task ((steady p c).bind .pure)⟩
  | .unary .neg operand span, v, known => by
    simp only [literalValue?] at known
    split at known
    · next x number =>
      cases known
      obtain ⟨depth, steady⟩ := Expr.literal_steady number
      exact ⟨_, fun p c => Steady.task ((steady p c).bind (.ofOutcome rfl))⟩
    · cases known
  | .range start stop inclusive span, v, known => by
    simp only [literalValue?, Option.bind_eq_bind, Option.bind_eq_some_iff] at known
    obtain ⟨_, first, x, isNumber, _, last, y, isNumber', known⟩ := known
    cases Value.number?_eq_some.1 isNumber
    cases Value.number?_eq_some.1 isNumber'
    split at known
    · cases known
    · next whole =>
      simp only [Bool.or_eq_true, not_or, Bool.not_eq_true] at whole
      obtain ⟨depth, steady⟩ := Expr.literal_steady first
      obtain ⟨depth', steady'⟩ := Expr.literal_steady last
      have expanded : Value.ofRange (Number.toWord x) (Number.toWord y) inclusive = .ok v :=
        Program.toOption_eq_some known
      exact ⟨_, fun p c => Steady.task <| (steady p c).bind <|
        (Steady.ofOutcome (Value.whole_literal _ whole.1)).bind <| (steady' p c).bind <|
        (Steady.ofOutcome (Value.whole_literal _ whole.2)).bind <| .ofOutcome expanded⟩
  | .unary .not _ _, _, known | .name _, _, known | .path _ _ _, _, known | .binary _ _ _ _, _, known
  | .call _ _ _, _, known | .index _ _ _, _, known | .lambda _, _, known | .block _, _, known | .branch _, _, known
  | .pipeline _, _, known | .loop _, _, known => by
    simp only [literalValue?] at known
    cases known

lemma Expr.literals_steady : ∀ {es : List Expr} {vs : List Value}, literalValues? es = some vs →
    ∃ depth, ∀ p c, Steady depth (fun fuel => exprs (Task.run p fuel) c es) vs
  | [], vs, known => by
    simp only [literalValues?, Option.some.injEq] at known
    subst known
    exact ⟨0, fun p c => .pure⟩
  | e :: es, vs, known => by
    simp only [literalValues?, Option.bind_eq_bind, Option.bind_eq_some_iff, Option.pure_def, Option.some.injEq] at known
    obtain ⟨v, first, vs, rest, rfl⟩ := known
    obtain ⟨depth, steady⟩ := Expr.literal_steady first
    obtain ⟨depth', steady'⟩ := Expr.literals_steady rest
    refine ⟨max depth (max depth' 0), fun p c => ?_⟩
    simp only [exprs, List.mapM_cons]
    exact (steady p c).bind ((steady' p c).bind .pure)

end

/-- What an expression of literals stands for is what it evaluates to, in every program and context and on every machine,
which it leaves as it is. It needs only that tasks may nest as deeply as its brackets do. -/
theorem Expr.literalValue_evaluates {e : Expr} {v : Value} (known : e.literalValue? = some v) :
    ∃ depth, ∀ (p : Program) (c : Context) (m : Machine) (fuel : Nat),
      Task.run p fuel (.expr c e none) m = if depth ≤ fuel then .ok v m else .error .outOfFuel m := by
  obtain ⟨depth, steady⟩ := Expr.literal_steady known
  exact ⟨depth, fun p c m fuel => steady p c fuel m⟩

/-- An array of a negative number, a range that ends at a number with a point, a text, an array of an empty range and a
truth value. -/
theorem Expr.literalValue_evaluates_nested :
    ∃ e v, Expr.parse "[-3, [-(-1)..=3.0], \"a\", [[2..1]], true]" = .ok e ∧ e.literalValue? = some v ∧
      v.render = "[-3, [1, 2, 3], a, [[]], true]" ∧
      ∃ depth, ∀ (p : Program) (c : Context) (m : Machine) (fuel : Nat),
        Task.run p fuel (.expr c e none) m = if depth ≤ fuel then .ok v m else .error .outOfFuel m := by
  have computed : ((Expr.parse "[-3, [-(-1)..=3.0], \"a\", [[2..1]], true]").toOption.bind Expr.literalValue?).map Value.render =
      some "[-3, [1, 2, 3], a, [[]], true]" := by decide +kernel
  obtain ⟨v, found, shown⟩ := Option.map_eq_some_iff.1 computed
  obtain ⟨e, parsed, known⟩ := Option.bind_eq_some_iff.1 found
  exact ⟨e, v, Program.toOption_eq_some parsed, known, shown, Expr.literalValue_evaluates known⟩

end PipeLang
