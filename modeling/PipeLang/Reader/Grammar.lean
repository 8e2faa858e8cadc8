import PipeLang.Reader.Cursor

/-!
# Grammar

One reader for each form of syntax. A form's reader is written over `read`, the readers of the forms inside
it, so that a law of the grammar is shown form by form: assume it of `read`, show it of `step read`. Chains of
operators are read by precedence climbing, and the parts of a list one after another.
-/

namespace PipeLang

/-- The forms of syntax, each with the type of what is read. -/
inductive Form : Type → Type where
  | statement : Form Statement
  /-- The statements of a block up to its closing brace. -/
  | statements : Form (List Statement)
  | block : Form Block
  | importItems : Form (List ImportItem)
  | expression : Form Expr
  /-- A chain of stages; an operator may be its first stage only when it continues another chain. -/
  | chain (first : Bool) : Form Pipeline
  /-- The stages that follow a stage. -/
  | stagesAfter (stage : Stage) : Form (List Stage)
  | stage (first : Bool) : Form Stage
  | loop : Form Loop
  /-- An expression whose operators outside brackets all have at least the given precedence. -/
  | binary (least : Nat) : Form Expr
  /-- The operators and operands that follow a left operand. -/
  | binaryAfter (left : Expr) (least : Nat) : Form Expr
  | unary : Form Expr
  /-- The calls and index brackets that follow an expression. -/
  | suffixes (base : Expr) : Form Expr
  | primary : Form Expr
  | pathSegments : Form (List Ident)
  /-- The arguments of a call up to its closing parenthesis. -/
  | arguments : Form (List Argument)
  /-- The items of an array literal that follow its first. -/
  | items : Form (List Expr)
  /-- A conditional behind its `if`, which starts at the given offset. -/
  | branch (start : Nat) : Form Branch
  | lambda : Form Expr
  | params : Form (List Param)
  | type : Form Ty

/-- The readers of the forms inside a form. -/
abbrev Readers := ∀ {α : Type}, Form α → Reader α

/-- The operator that a token spells. -/
def Token.binaryOp? (t : Token) : Option BinaryOp :=
  match t.kind with
  | .mark .plus => some .add
  | .mark .minus => some .sub
  | .mark .star => some .mul
  | .mark .slash => some .div
  | .mark .percent => some .rem
  | .mark .andAnd => some .and
  | .mark .orOr => some .or
  | .mark .eqEq => some .eq
  | .mark .bangEq => some .notEq
  | .mark .lt => some .lt
  | .mark .ltEq => some .ltEq
  | .mark .gt => some .gt
  | .mark .gtEq => some .gtEq
  | _ => none

/-- Whether an arrow follows the parenthesis that closes the one at the front of the tokens. -/
def startsLambda (depth : Nat) : List Token → Bool
  | [] => false
  | t :: rest =>
    if t.isMark .leftParen then
      startsLambda (depth + 1) rest
    else if t.isMark .rightParen then
      if depth = 1 then
        rest.head?.any fun u => u.isMark .fatArrow || u.isMark .arrow
      else
        startsLambda (depth - 1) rest
    else
      startsLambda depth rest

namespace Grammar

open Reader

variable (read : Readers)

/-- The name behind `as`, if that comes next. -/
def newName? : Reader (Option Ident) := do
  if ← takeIf .kwAs then
    return some (← ident .expectedAlias)
  else
    return none

/-- One item of an import list. -/
def importItem : Reader ImportItem := do
  if ← isAt .star then
    return .glob (← take).span
  else if ← isAt .kwSelf then
    let span := (← take).span
    return .self span (← newName?)
  else
    let name ← ident .expectedImportItem
    return .name name (← newName?)

/-- The items of an import list. -/
def importItems : Reader (List ImportItem) := do
  let item ← importItem
  if ← takeIf .comma then
    return item :: (← read .importItems)
  else
    return [item]

/-- An import statement that starts at the given offset. -/
def importStatement (exported : Bool) (start : Nat) : Reader Import := do
  let _ ← expect .kwImport
  match (← get).next.kind with
  | .text path =>
    let pathSpan := (← take).span
    let newName ← newName?
    return ⟨exported, .module newName, path, pathSpan, ⟨start, ← readTo⟩⟩
  | _ =>
    let items ← read .importItems
    let _ ← expect .kwFrom
    let (path, pathSpan) ← text .expectedImportPath
    return ⟨exported, .list items, path, pathSpan, ⟨start, pathSpan.stop⟩⟩

/-- A definition that starts at the given offset. -/
def definition (exported : Bool) (start : Nat) : Reader Statement := do
  let name ← ident .expectedBindingName
  let _ ← expect .eq
  let value ← read .expression
  return .define exported name value ⟨start, value.span.stop⟩

/-- The end of a statement: a semicolon, a closing brace, or the end of the line or the text. -/
def statementEnd : Reader Unit := do
  if ← takeIf .semicolon then
    return
  let token := (← get).next
  if token.opensLine || token.isMark .rightBrace || token.isFinish then
    return
  refuse .expectedStatementEnd

/-- A statement that starts at the given offset, without its end. -/
def statementBody (start : Nat) : Reader Statement := do
  if ← isAt .kwImport then
    Statement.importing <$> importStatement read false start
  else if ← takeIf .kwExport then
    if ← isAt .kwImport then
      Statement.importing <$> importStatement read true start
    else
      definition read true start
  else if (← get).startsBinding then
    definition read false start
  else
    let e ← read .expression
    return .expr e e.span

/-- A statement with its end. -/
def statement : Reader Statement := do
  let start ← here
  let result ← statementBody read start
  statementEnd
  return result

/-- The statements of a block up to its closing brace; semicolons may stand between them. -/
def statements : Reader (List Statement) := do
  if (← isAt .rightBrace) || (← get).atEnd then
    return []
  else if ← takeIf .semicolon then
    read .statements
  else
    let first ← read .statement
    return first :: (← read .statements)

/-- Statements in braces. -/
def block : Reader Block := do
  let start := (← expect .leftBrace).span.start
  let statements ← read .statements
  let stop := (← expect .rightBrace).span.stop
  return ⟨statements, ⟨start, stop⟩⟩

/-- A chain that is one untagged expression is that expression. -/
def ofChain (p : Pipeline) : Expr :=
  match p.stages with
  | [.expr e none _] => e
  | _ => .pipeline p

/-- A full expression. -/
def expression : Reader Expr :=
  return ofChain (← read (.chain true))

/-- The span from the start of the first stage to the end of the last. -/
def chainSpan (first : Stage) (rest : List Stage) : Span :=
  first.span.union ((first :: rest).getLast (by simp)).span

/-- A chain of stages. -/
def chain (first : Bool) : Reader Pipeline := do
  let stage ← read (.stage first)
  let rest ← read (.stagesAfter stage)
  return ⟨stage :: rest, chainSpan stage rest⟩

/-- The stages that follow a stage; a loop takes the rest of the chain into its body. -/
def stagesAfter (stage : Stage) : Reader (List Stage) := do
  if stage.isLoop then
    return []
  else if ← takeIf .pipe then
    let following ← read (.stage false)
    return following :: (← read (.stagesAfter following))
  else
    return []

/-- The tag behind a stage, if `as` comes next. -/
def tag? : Reader (Option Ident) := do
  if ← takeIf .kwAs then
    return some (← ident .expectedTag)
  else
    return none

/-- A stage from its expression, which started at the given offset; a loop has no tag. -/
def stageOf (start : Nat) (e : Expr) : Reader Stage := do
  match e with
  | .loop _ => return .expr e none ⟨start, ← readTo⟩
  | _ =>
    let tag ← tag?
    return .expr e tag ⟨start, ← readTo⟩

/-- A stage with its tag. -/
def stage (first : Bool) : Reader Stage := do
  let start ← here
  match (← get).next.binaryOp?, first with
  | some op, false =>
    let _ ← take
    let operand ← read (.binary (op.precedence + 1))
    let tag ← tag?
    return .operator op operand tag ⟨start, ← readTo⟩
  | _, _ =>
    if ← isAt .kwFor then
      stageOf start (.loop (← read .loop))
    else
      stageOf start (← read (.binary 0))

/-- A loop. -/
def loop : Reader Loop := do
  let start := (← expect .kwFor).span.start
  let sequence ← read (.binary 0)
  let _ ← expect .kwAs
  let binding ← ident .expectedLoopVariable
  let _ ← expect .pipe
  let body ← read (.chain false)
  return ⟨sequence, binding, body, ⟨start, body.span.stop⟩⟩

/-- An expression whose operators have at least the given precedence. -/
def binary (least : Nat) : Reader Expr := do
  let left ← read .unary
  read (.binaryAfter left least)

/-- Precedence climbing: an operator that binds tightly enough takes as its right operand what binds
tighter still, and the whole is the left operand of what follows. -/
def binaryAfter (left : Expr) (least : Nat) : Reader Expr := do
  match (← get).next.binaryOp? with
  | some op =>
    if op.precedence < least then
      return left
    else
      let _ ← take
      let right ← read (.binary (op.precedence + 1))
      read (.binaryAfter (.binary op left right (left.span.union right.span)) least)
  | none => return left

/-- An expression behind any number of signs. -/
def unary : Reader Expr := do
  let start ← here
  if ← takeIf .minus then
    let operand ← read .unary
    return .unary .neg operand ⟨start, operand.span.stop⟩
  else if ← takeIf .bang then
    let operand ← read .unary
    return .unary .not operand ⟨start, operand.span.stop⟩
  else
    let base ← read .primary
    read (.suffixes base)

/-- The calls and index brackets that follow an expression on its line. -/
def suffixes (base : Expr) : Reader Expr := do
  if (← get).next.opensLine then
    return base
  else if ← takeIf .leftParen then
    let args ← read .arguments
    let stop := (← expect .rightParen).span.stop
    read (.suffixes (.call base args ⟨base.span.start, stop⟩))
  else if ← takeIf .leftBracket then
    let index ← read .expression
    let stop := (← expect .rightBracket).span.stop
    read (.suffixes (.index base index ⟨base.span.start, stop⟩))
  else
    return base

/-- An argument of a call; a keyword argument starts with its name. -/
def argument : Reader Argument := do
  if (← get).startsBinding then
    let name ← ident .expectedBindingName
    let _ ← expect .eq
    return ⟨some name, ← read .expression⟩
  else
    return ⟨none, ← read .expression⟩

/-- The arguments of a call; a comma may follow the last. -/
def arguments : Reader (List Argument) := do
  if ← isAt .rightParen then
    return []
  else
    let first ← argument read
    if ← takeIf .comma then
      return first :: (← read .arguments)
    else
      return [first]

/-- The further segments of a path. -/
def pathSegments : Reader (List Ident) := do
  if ← takeIf .colonColon then
    let segment ← ident .expectedPathSegment
    return segment :: (← read .pathSegments)
  else
    return []

/-- A name or a path. -/
def nameOrPath : Reader Expr := do
  let head ← ident .expectedExpression
  let rest ← read .pathSegments
  match rest.getLast? with
  | none => return .name head
  | some last => return .path head rest ⟨head.span.start, last.span.stop⟩

/-- The items of an array literal that follow its first; a comma may follow the last. -/
def items : Reader (List Expr) := do
  if ← takeIf .comma then
    if ← isAt .rightBracket then
      return []
    else
      let item ← read .expression
      return item :: (← read .items)
  else
    return []

/-- A range behind its start and its dots. -/
def rangeFrom (start : Nat) (first : Expr) (inclusive : Bool) : Reader Expr := do
  let last ← read .expression
  let stop := (← expect .rightBracket).span.stop
  return .range first last inclusive ⟨start, stop⟩

/-- An array literal or a range. -/
def bracketed : Reader Expr := do
  let start := (← expect .leftBracket).span.start
  if ← isAt .rightBracket then
    return .array [] ⟨start, (← take).span.stop⟩
  else
    let first ← read .expression
    if ← takeIf .dotDot then
      rangeFrom read start first false
    else if ← takeIf .dotDotEq then
      rangeFrom read start first true
    else
      let rest ← read .items
      let stop := (← expect .rightBracket).span.stop
      return .array (first :: rest) ⟨start, stop⟩

/-- A full expression in parentheses. -/
def parenthesised : Reader Expr := do
  let _ ← expect .leftParen
  let inner ← read .expression
  let _ ← expect .rightParen
  return inner

/-- An expression that no operator or bracket continues. -/
def primary : Reader Expr := do
  let cursor ← get
  match cursor.next.kind with
  | .identifier _ => nameOrPath read
  | .number value => return .literal (.number value) (← take).span
  | .text value => return .literal (.text value) (← take).span
  | .mark .kwTrue => return .literal (.bool true) (← take).span
  | .mark .kwFalse => return .literal (.bool false) (← take).span
  | .mark .leftBrace => Expr.block <$> read .block
  | .mark .kwIf => do
    let start := (← take).span.start
    Expr.branch <$> read (.branch start)
  | .mark .leftParen =>
    if startsLambda 0 cursor.rest then read .lambda else parenthesised read
  | .mark .leftBracket => bracketed read
  | _ => refuse .expectedExpression

/-- What follows the block of a conditional. -/
def alternative : Reader Alternative := do
  if ← takeIf .kwElse then
    if ← isAt .kwIf then
      let start := (← take).span.start
      Alternative.branch <$> read (.branch start)
    else
      Alternative.block <$> read .block
  else
    return .absent

/-- A conditional behind its `if`. -/
def branch (start : Nat) : Reader Branch := do
  let condition ← read (.binary 0)
  let consequence ← read .block
  let alternative ← alternative read
  return ⟨condition, consequence, alternative, ⟨start, ← readTo⟩⟩

/-- A type with its place. -/
def typeNote : Reader TypeNote := do
  let start ← here
  let ty ← read .type
  return ⟨ty, ⟨start, ← readTo⟩⟩

/-- A type behind a mark, if the mark comes next. -/
def typeBehind? (m : Mark) : Reader (Option TypeNote) := do
  if ← takeIf m then
    return some (← typeNote read)
  else
    return none

/-- The default of a parameter, if `=` comes next. -/
def fallback? : Reader (Option Expr) := do
  if ← takeIf .eq then
    return some (← read (.binary 0))
  else
    return none

/-- A parameter. -/
def param : Reader Param := do
  let name ← ident .expectedParameter
  let note ← typeBehind? read .colon
  let fallback ← fallback? read
  return ⟨name, note, fallback, ⟨name.span.start, ← readTo⟩⟩

/-- The parameters of a function literal; there is at least one. -/
def params : Reader (List Param) := do
  let first ← param read
  if ← takeIf .comma then
    return first :: (← read .params)
  else
    return [first]

/-- The parameters in the parentheses of a function literal. -/
def parameterList : Reader (List Param) := do
  if ← isAt .rightParen then
    return []
  else
    read .params

/-- A function literal. -/
def lambda : Reader Expr := do
  let start := (← expect .leftParen).span.start
  let params ← parameterList read
  let _ ← expect .rightParen
  let returns ← typeBehind? read .arrow
  let _ ← expect .fatArrow
  let body ← read .expression
  return .lambda ⟨params, returns, body, ⟨start, body.span.stop⟩⟩

/-- A type: a name, or an element type in brackets. -/
def type : Reader Ty := do
  if ← takeIf .leftBracket then
    let element ← read .type
    let _ ← expect .rightBracket
    return .array element
  else
    return .ofName (← ident .expectedType).name

/-- The reader of a form over the readers of the forms inside it. -/
def step {α : Type} : Form α → Reader α
  | .statement => statement read
  | .statements => statements read
  | .block => block read
  | .importItems => importItems read
  | .expression => expression read
  | .chain first => chain read first
  | .stagesAfter before => stagesAfter read before
  | .stage first => stage read first
  | .loop => loop read
  | .binary least => binary read least
  | .binaryAfter left least => binaryAfter read left least
  | .unary => unary read
  | .suffixes base => suffixes read base
  | .primary => primary read
  | .pathSegments => pathSegments read
  | .arguments => arguments read
  | .items => items read
  | .branch start => branch read start
  | .lambda => lambda read
  | .params => params read
  | .type => type read

end Grammar

namespace Form

/-- The reader of a form whose nesting is at most `depth` deep. -/
def read : Nat → {α : Type} → Form α → Reader α
  | 0, _, _ => Reader.refuse .nestingTooDeep
  | depth + 1, _, form => Grammar.step (fun inner => read depth inner) form

/-- A depth that no text with that many tokens exceeds: no form reaches through more than ten others
before a token is taken. -/
def depthFor (tokens : Nat) : Nat :=
  16 * (tokens + 1)

end Form

end PipeLang
