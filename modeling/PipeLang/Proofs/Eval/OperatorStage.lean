import PipeLang.Proofs.Eval.Keeps

/-!
# Operators as stages

An operator can stand between two operands, or behind a pipe, where the incoming value is its left operand. The two
ways to write it come to the same, `run_piped`, unless the left operand alone decides: between two operands the right
one is then left alone, and behind a pipe it is evaluated all the same, `run_binary_decided` and `run_piped_decided`.
-/

namespace PipeLang

/-- An operator behind a pipe, with its left operand as the first stage. -/
def BinaryOp.piped (op : BinaryOp) (left right : Expr) (first second span : Span) : Expr :=
  .pipeline ⟨[.expr left none first, .operator op right none second], span⟩

namespace BinaryOp

variable {op : BinaryOp} {v w : Value}

/-- Only the logical operators are ever decided by their left operand. -/
lemma decided?_eq_none (strict : op ≠ .and ∧ op ≠ .or) (v : Value) : op.decided? v = none := by
  cases op with
  | and => exact absurd rfl strict.1
  | or => exact absurd rfl strict.2
  | _ => rfl

/-- A left operand decides a conjunction that is false and a disjunction that is true. -/
lemma decided?_eq_some : op.decided? v = some w ↔
    op = .and ∧ v = .bool false ∧ w = .bool false ∨ op = .or ∧ v = .bool true ∧ w = .bool true := by
  constructor
  · intro decided
    unfold decided? at decided
    split at decided
    · cases decided
      exact .inl ⟨rfl, rfl, rfl⟩
    · cases decided
      exact .inr ⟨rfl, rfl, rfl⟩
    · cases decided
  · rintro (⟨rfl, rfl, rfl⟩ | ⟨rfl, rfl, rfl⟩) <;> rfl

/-- What the left operand decides is what the operator gives with any truth value behind it, and nothing else can stand
there. -/
lemma apply_of_decided (decided : op.decided? v = some w) (right : Value) :
    op.apply v right = match right with
      | .bool _ => .ok w
      | other => .error (.mismatch (.operands op v.typeName other.typeName)) := by
  rcases decided?_eq_some.1 decided with ⟨rfl, rfl, rfl⟩ | ⟨rfl, rfl, rfl⟩ <;> cases right <;> rfl

end BinaryOp

variable {p : Program} {run : Task → Eval Value} {fuel : Nat} {c : Context} {op : BinaryOp} {left right : Expr}
  {first second span : Span} {v w : Value} {m m' : Machine}

namespace Eval

/-- Behind a pipe an operator evaluates both operands. -/
lemma step_piped : step p run (.pipeline c [.expr left none first, .operator op right none second] none) =
    run (.expr c left none) >>= fun v => run (.expr c right none) >>= fun w => ofOutcome (op.apply v w) := by
  simp [step, pipeline, stage, bindTag, Stage.tag]

end Eval

open Eval

/-- Between two operands an operator evaluates the left one, and the right one if it has to. -/
lemma run_binary : Task.run p (fuel + 1) (.expr c (.binary op left right span) none) =
    Task.run p fuel (.expr c left none) >>= fun v =>
      match op.decided? v with
      | some w => pure w
      | none => Task.run p fuel (.expr c right none) >>= fun w => ofOutcome (op.apply v w) :=
  rfl

lemma run_piped_eq : Task.run p (fuel + 2) (.expr c (op.piped left right first second span) none) =
    Task.run p fuel (.expr c left none) >>= fun v =>
      Task.run p fuel (.expr c right none) >>= fun w => ofOutcome (op.apply v w) :=
  step_piped

/-- An operator behind a pipe does what it does between its operands, on every machine on which its left operand does not
decide alone; it nests one task more deeply. -/
theorem run_piped {span' : Span}
    (undecided : ∀ v m', Task.run p fuel (.expr c left none) m = .ok v m' → op.decided? v = none) :
    Task.run p (fuel + 2) (.expr c (op.piped left right first second span) none) m =
      Task.run p (fuel + 1) (.expr c (.binary op left right span') none) m := by
  rw [run_piped_eq, run_binary]
  cases ran : Task.run p fuel (.expr c left none) m with
  | error stop m' => rw [bind_stop ran, bind_stop ran]
  | ok v m' => rw [bind_eq ran, bind_eq ran, undecided v m' ran]

/-- So it does wherever the operator is not a logical one. -/
theorem run_piped_strict {span' : Span} (strict : op ≠ .and ∧ op ≠ .or) :
    Task.run p (fuel + 2) (.expr c (op.piped left right first second span) none) =
      Task.run p (fuel + 1) (.expr c (.binary op left right span') none) :=
  funext fun _ => run_piped fun v _ _ => BinaryOp.decided?_eq_none strict v

/-- Between two operands, a left one that decides is all that is evaluated. -/
theorem run_binary_decided (ran : Task.run p fuel (.expr c left none) m = .ok v m') (decided : op.decided? v = some w) :
    Task.run p (fuel + 1) (.expr c (.binary op left right span) none) m = .ok w m' := by
  rw [run_binary, bind_eq ran, decided]
  rfl

/-- Behind a pipe the right operand is evaluated even if the left one decides. The value is then the same, if there is
one: what stops the right operand stops the stage, and so does a value that is not a truth value. -/
theorem run_piped_decided (ran : Task.run p fuel (.expr c left none) m = .ok v m') (decided : op.decided? v = some w) :
    Task.run p (fuel + 2) (.expr c (op.piped left right first second span) none) m =
      (Task.run p fuel (.expr c right none) >>= fun
        | .bool _ => pure w
        | other => fail (.mismatch (.operands op v.typeName other.typeName))) m' := by
  rw [run_piped_eq, bind_eq ran]
  refine congrFun (congrArg _ (funext fun right => ?_)) m'
  rw [BinaryOp.apply_of_decided decided]
  cases right <;> rfl

end PipeLang
