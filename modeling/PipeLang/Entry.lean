import PipeLang.Eval
import PipeLang.Reader

/-!
# Entry points

A program is started at functions or constants at the top level of a module, with arguments that are literals
in source syntax, `VALUE` or `NAME=VALUE`.
-/

namespace PipeLang

namespace Expr

mutual

/-- The value of an expression that is built from literals alone. -/
def literalValue? : Expr → Option Value
  | .literal value _ => some value.value
  | .unary .neg operand _ =>
    match literalValue? operand with
    | some (.number x) => some (.number (-x))
    | _ => none
  | .array items _ => (literalValues? items).map .array
  | .range start stop inclusive _ => do
    let first ← (← literalValue? start).number?
    let last ← (← literalValue? stop).number?
    if Number.hasFraction first || Number.hasFraction last then
      none
    else
      (Value.ofRange (Number.toWord first) (Number.toWord last) inclusive).toOption
  | _ => none

/-- The values of expressions that are built from literals alone. -/
def literalValues? : List Expr → Option (List Value)
  | [] => some []
  | e :: rest => do
    let v ← literalValue? e
    let vs ← literalValues? rest
    return v :: vs

end

end Expr

/-- An argument of an entry point. -/
structure EntryArgument where
  /-- The parameter it is for, when it names one. -/
  name : Option String
  value : Value

namespace EntryArgument

/-- Cuts an argument into a name and a value: what stands before the first `=` is a name if, without the
blanks around it, it has the shape of one. -/
def split (text : String) : Option String × String :=
  match Text.splitAtFirst ['='] text.toList with
  | some (before, after) =>
    let name := Text.trim before
    if Text.isName name then (some (String.ofList name), String.ofList after) else (none, text)
  | none => (none, text)

/-- The argument that a text spells. -/
def parse (text : String) : Outcome EntryArgument :=
  let (name, raw) := split text
  match Expr.parse raw with
  | .error errors => .error (.invalidArgument text (SyntaxError.firstMessage errors))
  | .ok e =>
    match e.literalValue? with
    | some v => .ok ⟨name, v⟩
    | none => .error (.invalidArgument text "expected a number, string, boolean or array")

/-- The values of arguments without a name. -/
def positional (args : List EntryArgument) : List Value :=
  args.filterMap fun a => if a.name.isNone then some a.value else none

/-- The arguments with a name. -/
def keyword (args : List EntryArgument) : List (String × Value) :=
  args.filterMap fun a => a.name.map fun name => (name, a.value)

end EntryArgument

/-- The names at which a program is started. -/
inductive Entry where
  /-- The name `main`. -/
  | main
  | functions (names : List String)

/-- The names at which a program is started. -/
def Entry.names : Entry → List String
  | main => ["main"]
  | functions names => names

namespace Eval

/-- Starts at one name: a function is called, and a constant is its own result if there are no arguments. -/
def runName (p : Program) (run : Task → Eval Value) (id : ModuleId) (args : List EntryArgument)
    (name : String) : Eval Value := do
  let v ← valueOf p run id name
  match v with
  | .closure _ | .host _ => run (.call v (EntryArgument.positional args) (EntryArgument.keyword args))
  | constant => if args.isEmpty then return constant else fail (.notCallable ("`" ++ name ++ "`"))

end Eval

/-- Starts a program at each name of an entry, in order. -/
def Entry.run (p : Program) (fuel : Nat) (id : ModuleId) (args : List EntryArgument) (entry : Entry) :
    Eval (List (String × Value)) :=
  entry.names.mapM fun name => return (name, ← Eval.runName p (Task.run p fuel) id args name)

end PipeLang
