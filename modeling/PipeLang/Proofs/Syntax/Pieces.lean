import Mathlib.Tactic.Lemma
import PipeLang.Expr

/-!
# Pieces of syntax

The function literals, blocks, pipelines and loops in a piece of syntax, at any depth: `Expr.pieces`. A frame is opened for a call,
a block, an iteration of a loop and a module; the names that are given values in it stand in `Piece.names` and `Module.names`, in
the order in which they are evaluated. A tag is stored where its pipeline is evaluated and, if that is in the body of a loop,
around the loop too: `Expr.tags`.
-/

namespace PipeLang

/-- A piece of syntax that is made up of further ones in a way of its own. -/
inductive Piece where
  | lambda (f : Lambda)
  | block (b : Block)
  | pipeline (p : Pipeline)
  | loop (l : Loop)

mutual

/-- The pieces in an expression, outer ones before inner ones. -/
def Expr.pieces : Expr → List Piece
  | .name _ => []
  | .path _ _ _ => []
  | .literal _ _ => []
  | .array items _ => Expr.allPieces items
  | .range start stop _ _ => start.pieces ++ stop.pieces
  | .binary _ left right _ => left.pieces ++ right.pieces
  | .unary _ operand _ => operand.pieces
  | .call callee args _ => callee.pieces ++ Argument.allPieces args
  | .index base index _ => base.pieces ++ index.pieces
  | .lambda f => f.pieces
  | .block b => b.pieces
  | .branch b => b.pieces
  | .pipeline ⟨stages, span⟩ => .pipeline ⟨stages, span⟩ :: Stage.allPieces stages
  | .loop l => l.pieces
termination_by structural e => e

/-- The pieces in some expressions. -/
def Expr.allPieces : List Expr → List Piece
  | [] => []
  | e :: es => e.pieces ++ Expr.allPieces es
termination_by structural es => es

/-- The pieces in some arguments. -/
def Argument.allPieces : List Argument → List Piece
  | [] => []
  | ⟨_, value⟩ :: args => value.pieces ++ Argument.allPieces args
termination_by structural args => args

/-- The pieces in the defaults of some parameters. -/
def Param.allPieces : List Param → List Piece
  | [] => []
  | ⟨_, _, none, _⟩ :: ps => Param.allPieces ps
  | ⟨_, _, some e, _⟩ :: ps => e.pieces ++ Param.allPieces ps
termination_by structural ps => ps

/-- A function literal and the pieces in it. -/
def Lambda.pieces : Lambda → List Piece
  | ⟨ps, returns, body, span⟩ => .lambda ⟨ps, returns, body, span⟩ :: (Param.allPieces ps ++ body.pieces)
termination_by structural f => f

/-- A block and the pieces in it. -/
def Block.pieces : Block → List Piece
  | ⟨statements, span⟩ => .block ⟨statements, span⟩ :: Statement.allPieces statements
termination_by structural b => b

/-- The pieces in some statements. -/
def Statement.allPieces : List Statement → List Piece
  | [] => []
  | s :: ss => s.pieces ++ Statement.allPieces ss
termination_by structural ss => ss

/-- The pieces in a statement. -/
def Statement.pieces : Statement → List Piece
  | .importing _ => []
  | .define _ _ value _ => value.pieces
  | .expr e _ => e.pieces
termination_by structural s => s

/-- The pieces in a conditional. -/
def Branch.pieces : Branch → List Piece
  | ⟨condition, consequence, other, _⟩ => condition.pieces ++ (consequence.pieces ++ other.pieces)
termination_by structural b => b

/-- The pieces in what follows `else`. -/
def Alternative.pieces : Alternative → List Piece
  | .absent => []
  | .block b => b.pieces
  | .branch b => b.pieces
termination_by structural a => a

/-- The pieces in some stages. -/
def Stage.allPieces : List Stage → List Piece
  | [] => []
  | s :: ss => s.pieces ++ Stage.allPieces ss
termination_by structural ss => ss

/-- The pieces in a stage. -/
def Stage.pieces : Stage → List Piece
  | .expr e _ _ => e.pieces
  | .operator _ operand _ _ => operand.pieces
termination_by structural s => s

/-- A loop and the pieces in it; its body is no pipeline by itself. -/
def Loop.pieces : Loop → List Piece
  | ⟨sequence, binding, ⟨stages, inner⟩, span⟩ =>
    .loop ⟨sequence, binding, ⟨stages, inner⟩, span⟩ :: (sequence.pieces ++ Stage.allPieces stages)
termination_by structural l => l

end

/-- The pieces in a module. -/
def Module.pieces (m : Module) : List Piece :=
  Statement.allPieces m.statements

mutual

/-- The tags that an expression stores in the frame where it is evaluated. -/
def Expr.tags : Expr → List Ident
  | .name _ => []
  | .path _ _ _ => []
  | .literal _ _ => []
  | .array items _ => Expr.allTags items
  | .range start stop _ _ => start.tags ++ stop.tags
  | .binary _ left right _ => left.tags ++ right.tags
  | .unary _ operand _ => operand.tags
  | .call callee args _ => callee.tags ++ Argument.allTags args
  | .index base index _ => base.tags ++ index.tags
  | .lambda _ => []
  | .block _ => []
  | .branch b => b.tags
  | .pipeline ⟨stages, _⟩ => Stage.allTags stages
  | .loop l => l.tags
termination_by structural e => e

/-- The tags of some expressions. -/
def Expr.allTags : List Expr → List Ident
  | [] => []
  | e :: es => e.tags ++ Expr.allTags es
termination_by structural es => es

/-- The tags in some arguments. -/
def Argument.allTags : List Argument → List Ident
  | [] => []
  | ⟨_, value⟩ :: args => value.tags ++ Argument.allTags args
termination_by structural args => args

/-- The tags in a conditional outside of its blocks. -/
def Branch.tags : Branch → List Ident
  | ⟨condition, _, other, _⟩ => condition.tags ++ other.tags
termination_by structural b => b

/-- The tags in what follows `else`. -/
def Alternative.tags : Alternative → List Ident
  | .absent => []
  | .block _ => []
  | .branch b => b.tags
termination_by structural a => a

/-- The tags of some stages. -/
def Stage.allTags : List Stage → List Ident
  | [] => []
  | s :: ss => s.tags ++ Stage.allTags ss
termination_by structural ss => ss

/-- The tags in a stage, and its own. -/
def Stage.tags : Stage → List Ident
  | .expr e tag _ => e.tags ++ tag.toList
  | .operator _ operand tag _ => operand.tags ++ tag.toList
termination_by structural s => s

/-- The tags in the sequence of a loop, and those that it collects. -/
def Loop.tags : Loop → List Ident
  | ⟨sequence, _, ⟨stages, _⟩, _⟩ => sequence.tags ++ Stage.allTags stages
termination_by structural l => l

end

/-- The names that a statement gives values. -/
def Statement.names : Statement → List Ident
  | .importing _ => []
  | .define _ name value _ => value.tags ++ [name]
  | .expr e _ => e.tags

/-- The tags in the default of a parameter, and its name. -/
def Param.names (q : Param) : List Ident :=
  (q.fallback.elim [] Expr.tags) ++ [q.name]

/-- The names that are given values in the frames of a piece and not in those around them. The tags of a loop are given values around
it too. -/
def Piece.names : Piece → List Ident
  | .lambda f => f.params.flatMap Param.names ++ f.body.tags
  | .block b => b.statements.flatMap Statement.names
  | .pipeline _ => []
  | .loop l => [l.binding]

/-- The names of some pieces. -/
def Piece.allNames (pieces : List Piece) : List Ident :=
  pieces.flatMap names

@[simp] lemma Piece.allNames_cons {q : Piece} {pieces : List Piece} : allNames (q :: pieces) = q.names ++ allNames pieces :=
  List.flatMap_cons

@[simp] lemma Piece.allNames_append {pieces others : List Piece} :
    allNames (pieces ++ others) = allNames pieces ++ allNames others :=
  List.flatMap_append

/-- The names that are given values in the frame of a module. -/
def Module.names (m : Module) : List Ident :=
  m.statements.flatMap Statement.names

/-- The loop that a piece is. -/
def Piece.loop? : Piece → Option Loop
  | .loop l => some l
  | _ => none

/-- The loops among some pieces. -/
def Piece.loops (pieces : List Piece) : List Loop :=
  pieces.filterMap loop?

@[simp] lemma Piece.loops_loop {l : Loop} {pieces : List Piece} : loops (.loop l :: pieces) = l :: loops pieces :=
  rfl

@[simp] lemma Piece.loops_append {pieces others : List Piece} : loops (pieces ++ others) = loops pieces ++ loops others :=
  List.filterMap_append

end PipeLang
