import PipeLang.Resolve.Import

/-!
# Names and types of expressions

One walk over a module binds every name, infers a type for every expression, and checks calls of host
functions and the flow of values through pipelines. The incoming type of a pipeline stage is passed along as
`incoming`, and a compound stage passes it on to where its value is produced.
-/

namespace PipeLang

/-- The type of an operator's result. -/
def BinaryOp.resultType (op : BinaryOp) (left right : Ty) : Ty :=
  match op with
  | .add => if left = .string && right = .string then .string else .number
  | .sub | .mul | .div | .rem => .number
  | .and | .or | .eq | .notEq | .lt | .ltEq | .gt | .gtEq => .bool

/-- The type of an operator's result. -/
def UnaryOp.resultType : UnaryOp → Ty
  | .neg => .number
  | .not => .bool

/-- The type of a literal. -/
def Literal.ty : Literal → Ty
  | .number _ => .number
  | .text _ => .string
  | .bool _ => .bool

/-- The type that a note declares, or else the given one. -/
def TypeNote.orElse (note : Option TypeNote) (otherwise : Ty) : Ty :=
  match note with
  | some n => n.ty
  | none => otherwise

namespace Resolve

/-- Reports an expression that is given an incoming value but can never take one. -/
def rejectIncoming (incoming : Option Ty) (e : Expr) : Resolve Unit := do
  match incoming, e.rejection? with
  | some _, some stage => report [.stageRejectsReceiver stage e.span]
  | _, _ => return

/-- Reports a block that is given an incoming value but has no final expression to take it. -/
def rejectTailless (incoming : Option Ty) (body : List Statement) (site : Span) : Resolve Unit :=
  if incoming.isSome && (tailExpr? body).isNone then
    report [.stageRejectsReceiver "block without a final expression" site]
  else
    return

/-- Checks a call of a host function against its signature. -/
def checkHostCall (target : Target) (positional : Nat) (keywords : List Ident) (site : Span) :
    Resolve Unit := do
  match target with
  | .host name =>
    match (← get).program.hosts.signature? name with
    | some signature =>
      report <| (callFaults (signature.params.map HostParam.slot) positional keywords site).map
        fun (cause, place) => .badCall name cause place
    | none => return
  | _ => return

/-- The type of a name or path used as a stage: with an incoming value it is called. -/
def stageType (incoming : Option Ty) (site : Span) : Option (Target × Ty) → Resolve Ty
  | some (target, ty) => do
    if incoming.isSome then
      checkHostCall target 1 [] site
      return ty.result
    else
      return ty
  | none => return .any

/-- Follows the segments of a path through the exports of modules. -/
def followPath (site : Span) (target : Target) (ty : Ty) (before : Ident) :
    List Ident → Resolve (Option (Target × Ty))
  | [] => do
    record site target ty
    return some (target, ty)
  | segment :: rest => do
    match target with
    | .module id =>
      match (← get).program.modules[id]? with
      | none => return none
      | some m =>
        match m.exports.get? segment.name with
        | some e => followPath site e.target e.ty segment rest
        | none =>
          report [.unknownExport segment.name m.path.render (m.status = .loading) segment.span]
          return none
    | _ =>
      report [.notAModule before.name before.span]
      return none

/-- Uses a path: its head is a name in scope, or the whole path is the name of a host function. -/
def usePath (head : Ident) (rest : List Ident) (site : Span) : Resolve (Option (Target × Ty)) := do
  let r ← get
  match r.scopes.lookup r.current head.name head.span.start with
  | .notFound =>
    match ← useHost (pathName head rest) site with
    | some found => return some found
    | none =>
      leaveOpen head
      return none
  | _ =>
    match ← useName head with
    | some (target, ty) => followPath site target ty head rest
    | none => return none

/-- The names of the keyword arguments of a call. -/
def keywordNames (args : List Argument) : List Ident :=
  args.filterMap Argument.name

/-- The number of positional arguments of a call, an incoming value included. -/
def positionalCount (args : List Argument) (incoming : Option Ty) : Nat :=
  args.countP (fun a => a.name.isNone) + if incoming.isSome then 1 else 0

/-- Declares a definition behind its value. -/
def define (exported topLevel : Bool) (name : Ident) (isFunction : Bool) (ty : Ty) (span : Span) :
    Resolve Unit := do
  if exported && topLevel then
    let r ← get
    let target := Target.item r.home name.name
    let introduced ← introduce
      ⟨name.name, name.name, target, r.current, span.stop, name.span, ty, .declaration, []⟩
    match introduced with
    | some _ =>
      publish ⟨name.name, target, if isFunction then .function else .constant, name.span, ty, false⟩
    | none => return
  else
    declareInner name span.stop ty .declaration

variable (load : Loader)

mutual

/-- Binds the names in an expression and infers its type. -/
def expr (incoming : Option Ty) (e : Expr) : Resolve Ty := do
  rejectIncoming incoming e
  match e with
  | .name ident => stageType incoming ident.span (← useName ident)
  | .path head rest span => stageType incoming span (← usePath head rest span)
  | .literal value _ => return value.ty
  | .array items _ => return .array (.joinAll (← exprs items))
  | .range start stop _ _ =>
    let _ ← expr none start
    let _ ← expr none stop
    return .array .number
  | .binary op left right _ =>
    let left ← expr none left
    let right ← expr none right
    return op.resultType left right
  | .unary op operand _ =>
    let _ ← expr none operand
    return op.resultType
  | .call callee args span =>
    let found ←
      match callee with
      | .name ident => useName ident
      | .path head rest span => usePath head rest span
      | other => do
        let ty ← expr none other
        pure (some (.invalid, ty))
    arguments args
    match found with
    | some (target, ty) =>
      checkHostCall target (positionalCount args incoming) (keywordNames args) span
      return ty.result
    | none => return .any
  | .index base index _ =>
    let base ← expr none base
    let _ ← expr none index
    return base.element
  | .lambda f => lambda f
  | .block b => block incoming b
  | .branch b => branch incoming b
  | .pipeline p => pipeline incoming p
  | .loop l => loop incoming l
termination_by structural e

/-- The types of the items of an array literal. -/
def exprs : List Expr → Resolve (List Ty)
  | [] => return []
  | e :: rest => do
    let first ← expr none e
    return first :: (← exprs rest)
termination_by structural es => es

/-- Resolves the arguments of a call. -/
def arguments : List Argument → Resolve Unit
  | [] => return
  | ⟨_, value⟩ :: rest => do
    let _ ← expr none value
    arguments rest
termination_by structural args => args

/-- Resolves a function literal; its type is that of a function with the declared result, or else the
inferred one. -/
def lambda : Lambda → Resolve Ty
  | ⟨ps, returns, body, span⟩ => do
    let outer ← enter .function span
    params ps
    let inferred ← expr none body
    leave outer
    return .function (TypeNote.orElse returns inferred)
termination_by structural f => f

/-- Declares parameters one after another; a default sees the parameters before it. -/
def params : List Param → Resolve Unit
  | [] => return
  | ⟨name, note, fallback, span⟩ :: rest => do
    match fallback with
    | some e => let _ ← expr none e
    | none => pure ()
    declareInner name span.stop (TypeNote.orElse note .any) .parameter
    params rest
termination_by structural ps => ps

/-- Resolves a block; only its final expression takes the incoming value. -/
def block (incoming : Option Ty) : Block → Resolve Ty
  | ⟨body, span⟩ => do
    rejectTailless incoming body span
    let outer ← enter .block span
    let ty ← blockStatements incoming body
    leave outer
    return ty
termination_by structural b => b

/-- Resolves the statements of a block; the type is that of a final expression, and otherwise unit. -/
def blockStatements (incoming : Option Ty) : List Statement → Resolve Ty
  | [] => return .unit
  | [s] => statement false incoming s
  | s :: rest => do
    let _ ← statement false none s
    blockStatements incoming rest
termination_by structural ss => ss

/-- Resolves a statement; only an expression takes an incoming value and has a type of its own. -/
def statement (topLevel : Bool) (incoming : Option Ty) : Statement → Resolve Ty
  | .importing i => do
    importStatement load i topLevel
    return .unit
  | .define exported name value span => do
    refuseNested exported topLevel span
    let ty ← expr none value
    define exported topLevel name value.isLambda ty span
    return .unit
  | .expr e _ => expr incoming e
termination_by structural s => s

/-- Resolves a conditional. Without an alternative an incoming value passes through. -/
def branch (incoming : Option Ty) : Branch → Resolve Ty
  | ⟨condition, consequence, other, _⟩ => do
    let _ ← expr none condition
    let first ← block incoming consequence
    let second ← alternative incoming other
    return first.join second
termination_by structural b => b

/-- Resolves what follows `else`. -/
def alternative (incoming : Option Ty) : Alternative → Resolve Ty
  | .absent => return incoming.getD .unit
  | .block b => block incoming b
  | .branch b => branch incoming b
termination_by structural a => a

/-- Resolves a pipeline; its type is that of its last stage. -/
def pipeline (incoming : Option Ty) : Pipeline → Resolve Ty
  | ⟨body, _⟩ => do
    return (← stages incoming body).getD .unit
termination_by structural p => p

/-- Passes types through stages. -/
def stages (incoming : Option Ty) : List Stage → Resolve (Option Ty)
  | [] => return incoming
  | s :: rest => do
    let ty ← stage incoming s
    stages (some ty) rest
termination_by structural ss => ss

/-- Resolves a stage and declares its tag. -/
def stage (incoming : Option Ty) : Stage → Resolve Ty
  | .expr e tag span => do
    let ty ← expr incoming e
    match tag with
    | some tag => declareTag tag span.stop ty
    | none => pure ()
    return ty
  | .operator op operand tag span => do
    let right ← expr none operand
    let ty := op.resultType (incoming.getD .any) right
    match tag with
    | some tag => declareTag tag span.stop ty
    | none => pure ()
    return ty
termination_by structural s => s

/-- Resolves a loop: it maps a sequence, or with an incoming value folds it. -/
def loop (incoming : Option Ty) : Loop → Resolve Ty
  | ⟨sequence, binding, body, span⟩ => do
    let sequenceType ← expr none sequence
    let outer ← enter .loopBody ⟨binding.span.start, span.stop⟩
    modify fun r => { r with loopSites := (r.current, span) :: r.loopSites }
    declareInner binding binding.span.stop sequenceType.element .loopVariable
    let ty ← pipeline incoming body
    leave outer
    match incoming with
    | some seed => return ty.join seed
    | none => return .array ty
termination_by structural l => l

end

/-- Resolves the statements of a module. -/
def topLevel : List Statement → Resolve Unit
  | [] => return
  | s :: rest => do
    let _ ← statement load true none s
    topLevel rest

/-- Records the trailing expression of a module, which makes it usable as a value. -/
def markAssembly (m : Module) : Resolve Unit := do
  match m.assembly? with
  | some e =>
    modify fun r => { r with
      program := r.program.modify r.home fun l => { l with exports := { l.exports with assembly := some e.span } } }
  | none => return

/-- Resolves a module. -/
def module (m : Module) : Resolve Unit := do
  topLevel load m.statements
  markAssembly m
  reportOpenNames

end Resolve

end PipeLang
