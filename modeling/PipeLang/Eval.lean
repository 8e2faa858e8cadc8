import PipeLang.Eval.Step

/-!
# Queries

What a program is asked for: to run a module, for the value of a name at its top level, for the value that a
whole module stands for, and to call a value. A machine keeps what it has computed from one query to the next.
-/

namespace PipeLang

namespace Eval

/-- The value of a name at the top level of a module that has run. -/
def topLevelValue? (p : Program) (m : Machine) (id : ModuleId) (name : String) : Option Value := do
  let loaded ← p.modules[id]?
  let resolved ← loaded.resolved
  let binding ← resolved.topLevel? name
  match binding.target with
  | .item module item => m.items.lookup (module, item)
  | .inner b => m.heap.get? (← m.roots.lookup id) b
  | .host name => return .host name
  | .module _ | .invalid => none

/-- The value of a name at the top level of a module, after running the module. -/
def valueOf (p : Program) (run : Task → Eval Value) (id : ModuleId) (name : String) : Eval Value := do
  let _ ← run (.module id)
  match topLevelValue? p (← get) id name with
  | some v => return v
  | none => fail (.missingEntry name)

end Eval

/-- A question to a program. -/
inductive Query where
  /-- Runs a module. -/
  | module (id : ModuleId)
  /-- The value of a name at the top level. -/
  | value (id : ModuleId) (name : String)
  /-- The value that a whole module stands for. -/
  | assembly (id : ModuleId)
  | call (callee : Value) (positional : List Value) (keyword : List (String × Value))

namespace Query

/-- Answers a query, within a depth of nested evaluation. -/
def answer (p : Program) (fuel : Nat) : Query → Eval Value
  | .module id => Task.run p fuel (.module id)
  | .value id name => Eval.valueOf p (Task.run p fuel) id name
  | .assembly id => Eval.assembly p (Task.run p fuel) id
  | .call callee positional keyword => Task.run p fuel (.call callee positional keyword)

/-- A depth of nested evaluation beyond what a program reaches that terminates in practice. -/
def defaultFuel : Nat := 1000000

end Query

end PipeLang
