import PipeLang.Span
import PipeLang.Ty

/-!
# Expressions

Abstract syntax of modules. Parentheses leave no node. Every node that resolution or evaluation looks up
again carries its span.
-/

namespace PipeLang

/-- A name as written at one place. -/
structure Ident where
  name : String
  span : Span
  deriving DecidableEq, Repr, Inhabited

/-- A type as written at one place. -/
structure TypeNote where
  ty : Ty
  span : Span
  deriving DecidableEq, Repr

/-- The infix operators. -/
inductive BinaryOp where
  | add | sub | mul | div | rem | and | or | eq | notEq | lt | ltEq | gt | gtEq
  deriving DecidableEq, Repr

namespace BinaryOp

/-- The spelling of an operator. -/
def symbol : BinaryOp → String
  | add => "+" | sub => "-" | mul => "*" | div => "/" | rem => "%"
  | and => "&&" | or => "||"
  | eq => "==" | notEq => "!=" | lt => "<" | ltEq => "<=" | gt => ">" | gtEq => ">="

/-- How tightly an operator binds; all operators group to the left. -/
def precedence : BinaryOp → Nat
  | or => 3
  | and => 4
  | eq | notEq => 5
  | lt | ltEq | gt | gtEq => 9
  | add | sub => 10
  | mul | div | rem => 20

end BinaryOp

/-- The operators that stand before their operand. -/
inductive UnaryOp where
  | neg | not
  deriving DecidableEq, Repr

/-- The spelling of an operator. -/
def UnaryOp.symbol : UnaryOp → String
  | neg => "-"
  | not => "!"

/-- A literal without its place. -/
inductive Literal where
  | number (value : Float)
  | text (value : String)
  | bool (value : Bool)
  deriving Repr

/-- One item of an import list. -/
inductive ImportItem where
  | name (name : Ident) (newName : Option Ident)
  /-- The module itself. -/
  | self (span : Span) (newName : Option Ident)
  /-- Every export that no other item of the list names. -/
  | glob (span : Span)
  deriving Repr

/-- What an import statement binds: the module, or a list of items from it. -/
inductive ImportItems where
  | module (newName : Option Ident)
  | list (items : List ImportItem)
  deriving Repr

/-- An import statement. -/
structure Import where
  exported : Bool
  items : ImportItems
  path : String
  pathSpan : Span
  span : Span
  deriving Repr

mutual

/-- An expression. -/
inductive Expr where
  | name (ident : Ident)
  /-- `head::second::…`; there is at least one segment after the head. -/
  | path (head : Ident) (rest : List Ident) (span : Span)
  | literal (value : Literal) (span : Span)
  | array (items : List Expr) (span : Span)
  | range (start stop : Expr) (inclusive : Bool) (span : Span)
  | binary (op : BinaryOp) (left right : Expr) (span : Span)
  | unary (op : UnaryOp) (operand : Expr) (span : Span)
  | call (callee : Expr) (args : List Argument) (span : Span)
  | index (base index : Expr) (span : Span)
  | lambda (lambda : Lambda)
  | block (block : Block)
  | branch (branch : Branch)
  | pipeline (pipeline : Pipeline)
  | loop (loop : Loop)

/-- An argument of a call; a keyword argument has a name. -/
structure Argument where
  name : Option Ident
  value : Expr

/-- A parameter of a function literal. -/
structure Param where
  name : Ident
  note : Option TypeNote
  fallback : Option Expr
  span : Span

/-- A function literal. -/
structure Lambda where
  params : List Param
  returns : Option TypeNote
  body : Expr
  span : Span

/-- Statements in braces. -/
structure Block where
  statements : List Statement
  span : Span

/-- A statement of a module or of a block. -/
inductive Statement where
  | importing (statement : Import)
  | define (exported : Bool) (name : Ident) (value : Expr) (span : Span)
  | expr (expr : Expr) (span : Span)

/-- A conditional. -/
structure Branch where
  condition : Expr
  consequence : Block
  alternative : Alternative
  span : Span

/-- What follows `else`. -/
inductive Alternative where
  | absent
  | block (block : Block)
  | branch (branch : Branch)

/-- Stages joined by `|>`, or a single tagged stage. -/
structure Pipeline where
  stages : List Stage
  span : Span

/-- A stage: an expression, or an operator whose left operand is the incoming value. -/
inductive Stage where
  | expr (expr : Expr) (tag : Option Ident) (span : Span)
  | operator (op : BinaryOp) (operand : Expr) (tag : Option Ident) (span : Span)

/-- A loop over a sequence; its body is the rest of the chain it stands in. -/
structure Loop where
  sequence : Expr
  binding : Ident
  body : Pipeline
  span : Span

end

/-- A parsed source text. -/
structure Module where
  statements : List Statement
  span : Span

namespace Expr

/-- The place of an expression. -/
def span : Expr → Span
  | name ident => ident.span
  | path _ _ span | literal _ span | array _ span | range _ _ _ span | binary _ _ _ span
  | unary _ _ span | call _ _ span | index _ _ span => span
  | lambda f => f.span
  | block b => b.span
  | branch b => b.span
  | pipeline p => p.span
  | loop l => l.span

/-- What an expression is called when it can never take the incoming value of a pipeline. -/
def rejection? : Expr → Option String
  | literal .. => some "a literal"
  | array .. => some "an array"
  | range .. => some "a range"
  | binary .. => some "a binary expression"
  | unary .. => some "a unary expression"
  | index .. => some "an index expression"
  | lambda .. => some "a function literal"
  | _ => none

/-- Whether an expression is a function literal. -/
def isLambda : Expr → Bool
  | lambda _ => true
  | _ => false

end Expr

namespace Statement

/-- The place of a statement. -/
def span : Statement → Span
  | importing statement => statement.span
  | define _ _ _ span | expr _ span => span

end Statement

namespace Stage

/-- The place of a stage, its tag included. -/
def span : Stage → Span
  | expr _ _ span | operator _ _ _ span => span

/-- The tag of a stage. -/
def tag : Stage → Option Ident
  | expr _ tag _ | operator _ _ tag _ => tag

/-- Whether a stage is a loop, which takes the rest of its chain. -/
def isLoop : Stage → Bool
  | expr (.loop _) _ _ => true
  | _ => false

end Stage

/-- The segments of a path as they are written, joined by `::`. -/
def pathName (head : Ident) (rest : List Ident) : String :=
  "::".intercalate (head.name :: rest.map Ident.name)

/-- The last of the statements if it is an expression. -/
def tailExpr? : List Statement → Option Expr
  | [] => none
  | [.expr e _] => some e
  | [_] => none
  | _ :: rest => tailExpr? rest

/-- The trailing expression of a module, which is the value the module stands for. -/
def Module.assembly? (m : Module) : Option Expr :=
  tailExpr? m.statements

end PipeLang
