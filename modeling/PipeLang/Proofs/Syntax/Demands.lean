import Mathlib.Tactic.Lemma
import PipeLang.Expr

/-!
# What names are used behind

A name or path may stand for something that an import statement has brought. Such a statement stands before the use, in a
block around it or at the top level. The uses in a piece of syntax are listed here, each with the import statements that have
been passed on the way to it.
-/

namespace PipeLang

/-- A use of a name or path, and the import statements that have been passed before it, by their places. -/
structure Demand where
  site : Span
  behind : List Span
  deriving DecidableEq, Repr

/-- The import statements that have been passed when a statement has. -/
def Statement.passed : Statement → List Span → List Span
  | .importing i, passed => i.span :: passed
  | .define .., passed | .expr .., passed => passed

/-- The import statements that have been passed when statements have. -/
def Statement.allPassed (ss : List Statement) (passed : List Span) : List Span :=
  ss.foldl (fun passed s => s.passed passed) passed

lemma Statement.passed_eq (s : Statement) (passed : List Span) : s.passed passed = s.passed [] ++ passed := by
  cases s <;> rfl

lemma Statement.allPassed_cons (s : Statement) (ss : List Statement) (passed : List Span) :
    Statement.allPassed (s :: ss) passed = Statement.allPassed ss (s.passed passed) :=
  rfl

lemma Statement.allPassed_eq (ss : List Statement) (passed : List Span) :
    Statement.allPassed ss passed = Statement.allPassed ss [] ++ passed := by
  induction ss generalizing passed with
  | nil => rfl
  | cons s ss ih => rw [allPassed_cons, allPassed_cons, ih, ih (s.passed []), s.passed_eq passed, List.append_assoc]

lemma Statement.subset_allPassed (ss : List Statement) (passed : List Span) : passed ⊆ Statement.allPassed ss passed := by
  rw [allPassed_eq]
  exact List.subset_append_right _ _

lemma Statement.mem_allPassed {ss : List Statement} {i : Import} (member : .importing i ∈ ss) (passed : List Span) :
    i.span ∈ Statement.allPassed ss passed := by
  induction ss generalizing passed with
  | nil => cases member
  | cons s ss ih =>
    rcases List.mem_cons.1 member with rfl | among
    · exact Statement.subset_allPassed ss _ List.mem_cons_self
    · exact ih among _

/-- Nothing has been passed but import statements. -/
lemma Statement.of_mem_allPassed {ss : List Statement} {site : Span} {passed : List Span}
    (member : site ∈ Statement.allPassed ss passed) : site ∈ passed ∨ ∃ i, .importing i ∈ ss ∧ i.span = site := by
  induction ss generalizing passed with
  | nil => exact Or.inl member
  | cons s ss ih =>
    rcases ih member with here | ⟨i, among, same⟩
    · cases s with
      | importing i =>
        rcases List.mem_cons.1 here with rfl | before
        · exact Or.inr ⟨i, List.mem_cons_self, rfl⟩
        · exact Or.inl before
      | _ => exact Or.inl here
    · exact Or.inr ⟨i, List.mem_cons_of_mem _ among, same⟩

mutual

/-- The uses in an expression, behind some import statements. -/
def Expr.demands : Expr → List Span → List Demand
  | .name ident, passed => [⟨ident.span, passed⟩]
  | .path head _ span, passed => [⟨head.span, passed⟩, ⟨span, passed⟩]
  | .literal _ _, _ => []
  | .array items _, passed => Expr.allDemands items passed
  | .range start stop _ _, passed => start.demands passed ++ stop.demands passed
  | .binary _ left right _, passed => left.demands passed ++ right.demands passed
  | .unary _ operand _, passed => operand.demands passed
  | .call callee args _, passed => callee.demands passed ++ Argument.allDemands args passed
  | .index base index _, passed => base.demands passed ++ index.demands passed
  | .lambda f, passed => f.demands passed
  | .block b, passed => b.demands passed
  | .branch b, passed => b.demands passed
  | .pipeline p, passed => p.demands passed
  | .loop l, passed => l.demands passed
termination_by structural e => e

/-- The uses in some expressions. -/
def Expr.allDemands : List Expr → List Span → List Demand
  | [], _ => []
  | e :: es, passed => e.demands passed ++ Expr.allDemands es passed
termination_by structural es => es

/-- The uses in some arguments. -/
def Argument.allDemands : List Argument → List Span → List Demand
  | [], _ => []
  | ⟨_, value⟩ :: args, passed => value.demands passed ++ Argument.allDemands args passed
termination_by structural args => args

/-- The uses in the defaults of some parameters. -/
def Param.allDemands : List Param → List Span → List Demand
  | [], _ => []
  | ⟨_, _, none, _⟩ :: ps, passed => Param.allDemands ps passed
  | ⟨_, _, some e, _⟩ :: ps, passed => e.demands passed ++ Param.allDemands ps passed
termination_by structural ps => ps

/-- The uses in a function literal. -/
def Lambda.demands : Lambda → List Span → List Demand
  | ⟨ps, _, body, _⟩, passed => Param.allDemands ps passed ++ body.demands passed
termination_by structural f => f

/-- The uses in a block. -/
def Block.demands : Block → List Span → List Demand
  | ⟨statements, _⟩, passed => Statement.allDemands statements passed
termination_by structural b => b

/-- The uses in some statements, each behind the import statements among those before it. -/
def Statement.allDemands : List Statement → List Span → List Demand
  | [], _ => []
  | s :: ss, passed => s.demands passed ++ Statement.allDemands ss (s.passed passed)
termination_by structural ss => ss

/-- The uses in a statement. -/
def Statement.demands : Statement → List Span → List Demand
  | .importing _, _ => []
  | .define _ _ value _, passed => value.demands passed
  | .expr e _, passed => e.demands passed
termination_by structural s => s

/-- The uses in a conditional. -/
def Branch.demands : Branch → List Span → List Demand
  | ⟨condition, consequence, other, _⟩, passed =>
    condition.demands passed ++ consequence.demands passed ++ other.demands passed
termination_by structural b => b

/-- The uses in what follows `else`. -/
def Alternative.demands : Alternative → List Span → List Demand
  | .absent, _ => []
  | .block b, passed => b.demands passed
  | .branch b, passed => b.demands passed
termination_by structural a => a

/-- The uses in a pipeline. -/
def Pipeline.demands : Pipeline → List Span → List Demand
  | ⟨stages, _⟩, passed => Stage.allDemands stages passed
termination_by structural p => p

/-- The uses in some stages. -/
def Stage.allDemands : List Stage → List Span → List Demand
  | [], _ => []
  | s :: ss, passed => s.demands passed ++ Stage.allDemands ss passed
termination_by structural ss => ss

/-- The uses in a stage. -/
def Stage.demands : Stage → List Span → List Demand
  | .expr e _ _, passed => e.demands passed
  | .operator _ operand _ _, passed => operand.demands passed
termination_by structural s => s

/-- The uses in a loop. -/
def Loop.demands : Loop → List Span → List Demand
  | ⟨sequence, _, body, _⟩, passed => sequence.demands passed ++ body.demands passed
termination_by structural l => l

end

end PipeLang
