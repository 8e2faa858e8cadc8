import PipeLang.Eval.Machine

/-!
# Evaluation

One step of evaluation for each task, written over `run`, the evaluation of the tasks inside it. A law of
evaluation is shown task by task: assume it of `run`, show it of `step run`. Tasks that nest more deeply than
the fuel stop without an answer.
-/

namespace PipeLang

/-- Something to evaluate. -/
inductive Task where
  /-- An expression; with an incoming value it is a stage of a pipeline. -/
  | expr (context : Context) (e : Expr) (incoming : Option Value)
  | statement (context : Context) (s : Statement)
  | block (context : Context) (b : Block) (incoming : Option Value)
  | branch (context : Context) (b : Branch) (incoming : Option Value)
  | pipeline (context : Context) (stages : List Stage) (incoming : Option Value)
  | loop (context : Context) (l : Loop) (incoming : Option Value)
  | call (callee : Value) (positional : List Value) (keyword : List (String × Value))
  /-- A module, which runs unless it has run or is running. -/
  | module (id : ModuleId)

namespace Eval

variable (p : Program) (run : Task → Eval Value)

/-- The module of an id. -/
def module (id : ModuleId) : Eval LoadedModule :=
  match p.modules[id]? with
  | some m => return m
  | none => fail (.moduleHasErrors "")

/-- What resolution found out about a module. -/
def resolvedOf (id : ModuleId) : Eval Resolved := do
  let m ← module p id
  match m.resolved with
  | some r => return r
  | none => fail (.moduleHasErrors m.path.render)

/-- The value that a whole module stands for. -/
def assembly (id : ModuleId) : Eval Value := do
  let m ← module p id
  if m.isAssembly then
    let _ ← run (.module id)
    match (← get).assemblies.lookup id with
    | some v => return v
    | none => fail (.uninitialized m.path.render)
  else
    fail (.notAnAssembly m.path.render)

/-- The value of a use of a name or path. -/
def reference (c : Context) (site : Span) (name : String) : Eval Value := do
  let resolved ← resolvedOf p c.module
  match resolved.references.get? site with
  | none => fail (.unresolved name)
  | some r =>
    match r.target with
    | .inner id =>
      match (← get).heap.get? c.frame id with
      | some v => return v
      | none => fail (.uninitialized name)
    | .item module item =>
      match ← item? module item with
      | some v => return v
      | none =>
        let _ ← run (.module module)
        match ← item? module item with
        | some v => return v
        | none => fail (.uninitialized name)
    | .module module => assembly p run module
    | .host name => return .host name
    | .invalid => fail (.unresolved name)

/-- The values of expressions, in order. -/
def exprs (c : Context) (es : List Expr) : Eval (List Value) :=
  es.mapM fun e => run (.expr c e none)

/-- The arguments of a call: positional values behind those given, and named values. -/
def arguments (c : Context) : List Argument → Eval (List Value × List (String × Value))
  | [] => return ([], [])
  | a :: rest => do
    let v ← run (.expr c a.value none)
    let (positional, keyword) ← arguments c rest
    match a.name with
    | some name => return (positional, (name.name, v) :: keyword)
    | none => return (v :: positional, keyword)

/-- An expression without an incoming value. -/
def plainExpr (c : Context) : Expr → Eval Value
  | .name ident => reference p run c ident.span ident.name
  | .path head rest span => reference p run c span (pathName head rest)
  | .literal value _ => return value.value
  | .array items _ => return .array (← exprs run c items)
  | .range start stop inclusive _ => do
    let first ← ofOutcome ((← run (.expr c start none)).whole "range start")
    let last ← ofOutcome ((← run (.expr c stop none)).whole "range end")
    ofOutcome (Value.ofRange first last inclusive)
  | .binary op left right _ => do
    let left ← run (.expr c left none)
    match op.decided? left with
    | some v => return v
    | none => ofOutcome (op.apply left (← run (.expr c right none)))
  | .unary op operand _ => do
    ofOutcome (op.apply (← run (.expr c operand none)))
  | .call callee args _ => do
    let callee ← run (.expr c callee none)
    let (positional, keyword) ← arguments run c args
    run (.call callee positional keyword)
  | .index base index _ => do
    let base ← run (.expr c base none)
    let index ← run (.expr c index none)
    ofOutcome (base.itemAt index)
  | .lambda f => makeClosure c f none
  | .block b => run (.block c b none)
  | .branch b => run (.branch c b none)
  | .pipeline pl => run (.pipeline c pl.stages none)
  | .loop l => run (.loop c l none)

/-- An expression as a stage: a call takes the incoming value as its first argument, a name is called with
it, and compound stages pass it on to where their value is produced. -/
def stageExpr (c : Context) (incoming : Value) : Expr → Eval Value
  | .call callee args _ => do
    let callee ← run (.expr c callee none)
    let (positional, keyword) ← arguments run c args
    run (.call callee (incoming :: positional) keyword)
  | .name ident => do
    let callee ← run (.expr c (.name ident) none)
    run (.call callee [incoming] [])
  | .path head rest span => do
    let callee ← run (.expr c (.path head rest span) none)
    run (.call callee [incoming] [])
  | .block b => run (.block c b (some incoming))
  | .branch b => run (.branch c b (some incoming))
  | .pipeline pl => run (.pipeline c pl.stages (some incoming))
  | .loop l => run (.loop c l (some incoming))
  | other => fail (.stageRejectsReceiver (other.rejection?.getD "this expression"))

/-- An expression, with or without an incoming value. -/
def expr (c : Context) (e : Expr) : Option Value → Eval Value
  | none => plainExpr p run c e
  | some incoming => stageExpr run c incoming e

/-- Gives a defined name its value: an exported definition in the program, any other in the frame. -/
def bindDefinition (c : Context) (name : Ident) (v : Value) : Eval Unit := do
  let resolved ← resolvedOf p c.module
  match resolved.declarations.get? name.span with
  | none => fail (.unresolved name.name)
  | some id =>
    match resolved.scopes.target id with
    | .item module item => setItem module item v
    | _ => define c.frame id v

/-- A statement; only an expression has a value of its own. -/
def statement (c : Context) : Statement → Eval Value
  | .importing i => do
    let resolved ← resolvedOf p c.module
    match resolved.imports.get? i.span with
    | some target =>
      let _ ← run (.module target)
      return .unit
    | none => return .unit
  | .define _ name value _ => do
    let v ←
      match value with
      | .lambda f => makeClosure c f (some name.name)
      | other => run (.expr c other none)
    bindDefinition p c name v
    return .unit
  | .expr e _ => run (.expr c e none)

/-- The statements of a block; a final expression takes the incoming value. -/
def blockStatements (c : Context) (incoming : Option Value) : List Statement → Eval Value
  | [] => passOver incoming
  | [.expr e _] => run (.expr c e incoming)
  | [s] => do
    let _ ← run (.statement c s)
    passOver incoming
  | s :: rest => do
    let _ ← run (.statement c s)
    blockStatements c incoming rest
where
  /-- A block without a final expression cannot take an incoming value. -/
  passOver : Option Value → Eval Value
    | some _ => fail (.stageRejectsReceiver "block without a final expression")
    | none => return .unit

/-- A block, in a frame of its own. -/
def block (c : Context) (b : Block) (incoming : Option Value) : Eval Value := do
  blockStatements run (← inside c) incoming b.statements

/-- A conditional. Without an alternative an incoming value passes through. -/
def branch (c : Context) (b : Branch) (incoming : Option Value) : Eval Value := do
  match ← run (.expr c b.condition none) with
  | .bool true => run (.block c b.consequence incoming)
  | .bool false =>
    match b.alternative with
    | .absent => return incoming.getD .unit
    | .block other => run (.block c other incoming)
    | .branch other => run (.branch c other incoming)
  | other => fail (.mismatch (.condition other.typeName))

/-- Gives a tag its value. -/
def bindTag (c : Context) (v : Value) : Option Ident → Eval Unit
  | none => return
  | some tag => do
    let resolved ← resolvedOf p c.module
    match resolved.declarations.get? tag.span with
    | some id => define c.frame id v
    | none => fail (.unresolved tag.name)

/-- A stage. -/
def stage (c : Context) (incoming : Option Value) : Stage → Eval Value
  | .expr e _ _ => run (.expr c e incoming)
  | .operator op operand _ _ => do
    match incoming with
    | none => fail (.mismatch (.noLeftOperand op))
    | some left => ofOutcome (op.apply left (← run (.expr c operand none)))

/-- Stages, each taking the value of the one before it. -/
def pipeline (c : Context) (incoming : Option Value) : List Stage → Eval Value
  | [] => return incoming.getD .unit
  | s :: rest => do
    let v ← stage run c incoming s
    bindTag p c v s.tag
    pipeline c (some v) rest

/-- What a loop has made so far. -/
structure LoopProgress where
  /-- The incoming value of the next iteration, when the loop folds. -/
  folded : Option Value
  /-- The values of the iterations, the last first, when the loop maps. -/
  mapped : List Value
  /-- The frames of the iterations, the last first. -/
  frames : List FrameId

/-- One iteration of a loop, in a frame of its own. -/
def iteration (c : Context) (l : Loop) (bound? : Option BindingId) (progress : LoopProgress)
    (element : Value) : Eval LoopProgress := do
  let inner ← inside c
  match bound? with
  | some id => define inner.frame id element
  | none => pure ()
  let v ← run (.pipeline inner l.body.stages progress.folded)
  let frames := inner.frame :: progress.frames
  match progress.folded with
  | some _ => return ⟨some v, progress.mapped, frames⟩
  | none => return ⟨none, v :: progress.mapped, frames⟩

/-- Collects a tag from the iterations of a loop into a sequence around it. -/
def collectTag (c : Context) (frames : List FrameId) (tag : BindingId) : Eval Unit := do
  let heap := (← get).heap
  define c.frame tag (.array (frames.filterMap fun f => heap.getLocal? f tag))

/-- A loop: it maps a sequence, or folds it from an incoming value. -/
def loop (c : Context) (l : Loop) (incoming : Option Value) : Eval Value := do
  match ← run (.expr c l.sequence none) with
  | .array elements =>
    let resolved ← resolvedOf p c.module
    let bound? := resolved.declarations.get? l.binding.span
    let final ← elements.foldlM (iteration run c l bound?) ⟨incoming, [], []⟩
    ((resolved.loopTags.get? l.span).getD []).forM (collectTag c final.frames.reverse)
    match final.folded with
    | some v => return v
    | none => return .array final.mapped.reverse
  | other => fail (.mismatch (.sequence other.typeName))

/-- Refuses an argument that does not fit the declared type of its parameter. -/
def checkArgument (callee name : String) (ty : Option Ty) (v : Value) : Outcome Unit :=
  match ty with
  | some ty => if v.conforms ty then .ok () else .error (.mismatch (.argument name callee ty v.typeName))
  | none => .ok ()

/-- Gives parameters their values one after another; a default is evaluated where the parameters before it
have theirs. A parameter with neither is refused with the number of all parameters. -/
def bindParams (callee : String) (count : Nat) (resolved : Resolved) (c : Context) :
    List (Param × Option Value) → Eval Unit
  | [] => return
  | (param, given) :: rest => do
    let v ←
      match given, param.fallback with
      | some v, _ => pure v
      | none, some e => run (.expr c e none)
      | none, none => fail (.badCall callee (.arity count 0))
    ofOutcome (checkArgument callee param.name.name (param.note.map TypeNote.ty) v)
    match resolved.declarations.get? param.name.span with
    | some id => define c.frame id v
    | none => pure ()
    bindParams callee count resolved c rest

/-- Binds arguments, naming the function when they do not fit. -/
def bindSlots (callee : String) (params : List ParamSlot) (positional : List Value)
    (keyword : List (String × Value)) : Outcome (List (Option Value)) :=
  (bindArguments params positional keyword).mapError (.badCall callee)

/-- A call of a function literal, in a frame inside the one it was evaluated in. -/
def callClosure (f : Closure) (positional : List Value) (keyword : List (String × Value)) :
    Eval Value := do
  let callee := f.shownName
  let slots := f.lambda.params.map fun q => ⟨q.name.name, q.fallback.isSome⟩
  let given ← ofOutcome (bindSlots callee slots positional keyword)
  let c ← inside ⟨f.module, f.frame⟩
  let resolved ← resolvedOf p f.module
  bindParams run callee f.lambda.params.length resolved c (f.lambda.params.zip given)
  let v ← run (.expr c f.lambda.body none)
  match f.lambda.returns with
  | some note =>
    if v.conforms note.ty then return v else fail (.mismatch (.result callee note.ty v.typeName))
  | none => return v

/-- The argument of a host function's parameter: what is given, or the default. -/
def hostArgument (callee : String) (place : HostParam × Option Value) : Outcome Value := do
  let v := (place.2 <|> place.1.fallback).getD .unit
  checkArgument callee place.1.name (some place.1.ty) v
  return v

/-- A call of a host function. -/
def callHost (name : String) (positional : List Value) (keyword : List (String × Value)) :
    Eval Value := do
  match p.hosts.get? name with
  | none => fail (.unknownHost name)
  | some f =>
    let params := f.signature.params
    let given ← ofOutcome (bindSlots name (params.map HostParam.slot) positional keyword)
    let args ← ofOutcome ((params.zip given).mapM (hostArgument name))
    match f.apply (← freshIdentity) args with
    | .ok v => return v
    | .error message => fail (.hostFailed name message)

/-- A call of a value. -/
def call (callee : Value) (positional : List Value) (keyword : List (String × Value)) : Eval Value :=
  match callee with
  | .closure f => callClosure p run f positional keyword
  | .host name => callHost p name positional keyword
  | other => fail (.notCallable other.typeName)

/-- The statements of a module; the value is that of the last. -/
def moduleStatements (c : Context) (last : Value) : List Statement → Eval Value
  | [] => return last
  | s :: rest => do
    moduleStatements c (← run (.statement c s)) rest

/-- Records an error that stopped a module. -/
def markFailed (id : ModuleId) : Stop → Eval Unit
  | .error e => setState id (.failed e)
  | .outOfFuel => return

/-- Runs the statements of a module; the module is failed if one of them fails. -/
def guarded (id : ModuleId) (body : Eval Value) : Eval Value :=
  tryCatch body fun stop => do
    markFailed id stop
    throw stop

/-- Runs a module that can be used and has not run. -/
def runModule (id : ModuleId) (m : LoadedModule) (ast : Module) : Eval Unit := do
  setState id .running
  let frame ← openFrame none
  setRoot id frame
  let last ← guarded id (moduleStatements run ⟨id, frame⟩ .unit ast.statements)
  if m.isAssembly then
    setAssembly id last
  setState id .done

/-- Runs a module unless it has run or is running; a module that is running is asked for again only through
an import cycle. -/
def ensureModule (id : ModuleId) : Eval Unit := do
  match (← get).states.lookup id with
  | some .done | some .running => return
  | some (.failed e) => fail e
  | none =>
    let m ← module p id
    match m.ast with
    | some ast => if m.isUsable then runModule run id m ast else fail (.moduleHasErrors m.path.render)
    | none => fail (.moduleHasErrors m.path.render)

/-- One step of a task over the evaluation of the tasks inside it. -/
def step : Task → Eval Value
  | .expr c e incoming => expr p run c e incoming
  | .statement c s => statement p run c s
  | .block c b incoming => block run c b incoming
  | .branch c b incoming => branch run c b incoming
  | .pipeline c stages incoming => pipeline p run c incoming stages
  | .loop c l incoming => loop p run c l incoming
  | .call callee positional keyword => call p run callee positional keyword
  | .module id => do
    ensureModule p run id
    return .unit

end Eval

namespace Task

/-- Evaluates a task whose tasks nest at most as deeply as the fuel. -/
def run (p : Program) : Nat → Task → Eval Value
  | 0, _ => throw .outOfFuel
  | fuel + 1, task => Eval.step p (run p fuel) task

end Task

end PipeLang
