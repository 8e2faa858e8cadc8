import PipeLang.Span
import PipeLang.Ty

/-!
# Scopes

The tree of lexical scopes of one module and the bindings declared in them. A binding records the offset
from which it is visible, so that one table answers for every position of the text after resolution has
finished. A scope knows the scopes around it, so that every walk outward is a walk along a list.
-/

namespace PipeLang

/-- A module, by its place in the order of loading. -/
abbrev ModuleId := Nat

/-- A scope, by its place in the order of opening. -/
abbrev ScopeId := Nat

/-- A binding, by its place in the order of declaration. -/
abbrev BindingId := Nat

/-- What a name denotes. -/
inductive Target where
  /-- A module, usable with `::` or as the value it stands for. -/
  | module (id : ModuleId)
  /-- An exported definition at the top level of a module. -/
  | item (module : ModuleId) (name : String)
  /-- A binding of one module: a definition that is not exported, a parameter, a loop variable or a tag. -/
  | inner (id : BindingId)
  /-- A host function. -/
  | host (name : String)
  /-- The name of an import that failed. -/
  | invalid
  deriving DecidableEq, Repr, Inhabited

/-- Whether two targets may share a name. What failed to import agrees with everything, so that it causes
no collision. -/
def Target.sameItem (a b : Target) : Bool :=
  a = .invalid || b = .invalid || a = b

/-- What opened a scope. -/
inductive ScopeKind where
  | module
  | function
  | block
  /-- One iteration of a loop; it holds the loop variable. -/
  | loopBody
  deriving DecidableEq, Repr

/-- A scope. -/
structure Scope where
  kind : ScopeKind
  range : Span
  /-- The scope itself and the scopes around it, the innermost first. -/
  path : List ScopeId
  deriving Repr

/-- What introduced a binding. -/
inductive Origin where
  | declaration
  | parameter
  | loopVariable
  | tag
  | named
  | glob
  deriving DecidableEq, Repr

/-- A name bound in a scope. -/
structure Binding where
  name : String
  /-- The name at the target, from which an alias may differ. -/
  sourceName : String
  target : Target
  scope : ScopeId
  /-- The offset from which the binding is visible. -/
  visibleFrom : Nat
  site : Span
  ty : Ty
  origin : Origin
  /-- The loop bodies between a tag's stage and its scope, the innermost first. Outside of each the tag is
  seen as a sequence. -/
  loops : List ScopeId
  deriving Repr

/-- What a name means at a position. -/
inductive Lookup where
  | found (id : BindingId)
  /-- Several visible bindings that denote different items. -/
  | ambiguous (ids : List BindingId)
  /-- Bound, but only behind the position. -/
  | notYetDeclared (id : BindingId)
  | notFound
  deriving DecidableEq, Repr

/-- The scopes and bindings of one module. -/
structure Scopes where
  scopes : Array Scope
  bindings : Array Binding

namespace Scopes

/-- The scope of the module itself. -/
def root : ScopeId := 0

/-- A table with no scope but the module's. -/
def new (range : Span) : Scopes :=
  ⟨#[⟨.module, range, [root]⟩], #[]⟩

/-- A scope and the scopes around it, the innermost first. -/
def path (t : Scopes) (scope : ScopeId) : List ScopeId :=
  match t.scopes[scope]? with
  | some s => s.path
  | none => []

/-- The id that the next scope gets. -/
def nextScope (t : Scopes) : ScopeId :=
  t.scopes.size

/-- Opens a scope inside another. -/
def push (t : Scopes) (parent : Option ScopeId) (kind : ScopeKind) (range : Span) : Scopes :=
  { t with scopes := t.scopes.push ⟨kind, range, t.nextScope :: (parent.map t.path).getD []⟩ }

/-- The id that the next binding gets. -/
def nextBinding (t : Scopes) : BindingId :=
  t.bindings.size

/-- Adds a binding to its scope. -/
def insert (t : Scopes) (b : Binding) : Scopes :=
  { t with bindings := t.bindings.push b }

/-- The bindings of a name in one scope, in the order of declaration. -/
def named (t : Scopes) (scope : ScopeId) (name : String) : List BindingId :=
  (List.range t.bindings.size).filter fun id =>
    t.bindings[id]?.any fun b => b.scope == scope && b.name == name

/-- Whether a binding is visible at an offset. -/
def isVisible (t : Scopes) (offset : Nat) (id : BindingId) : Bool :=
  t.bindings[id]?.any fun b => b.visibleFrom ≤ offset

/-- What a binding denotes. -/
def target (t : Scopes) (id : BindingId) : Target :=
  match t.bindings[id]? with
  | some b => b.target
  | none => .invalid

/-- Looks a name up along a path of scopes. The first scope with a visible binding decides; without one the
first binding that was passed over is remembered. -/
def lookupAlong (t : Scopes) (name : String) (offset : Nat) :
    Option BindingId → List ScopeId → Lookup
  | none, [] => .notFound
  | some later, [] => .notYetDeclared later
  | later, scope :: outer =>
    let ids := t.named scope name
    match ids.filter (t.isVisible offset) with
    | first :: others =>
      if others.all fun id => (t.target id).sameItem (t.target first) then
        .found first
      else
        .ambiguous (first :: others)
    | [] => t.lookupAlong name offset (later <|> ids.head?) outer

/-- What a name means in a scope at an offset. -/
def lookup (t : Scopes) (scope : ScopeId) (name : String) (offset : Nat) : Lookup :=
  t.lookupAlong name offset none (t.path scope)

/-- Whether a scope is another or lies inside it. -/
def isWithin (t : Scopes) (scope ancestor : ScopeId) : Bool :=
  (t.path scope).contains ancestor

/-- Whether a scope is a loop body. -/
def isLoopBody (t : Scopes) (scope : ScopeId) : Bool :=
  t.scopes[scope]?.any fun s => s.kind = .loopBody

/-- The nearest scope that is not a loop body, where a tag is bound, and the loop bodies crossed on the way. -/
def tagHome (t : Scopes) (scope : ScopeId) : ScopeId × List ScopeId :=
  let path := t.path scope
  let loops := path.takeWhile t.isLoopBody
  match path.dropWhile t.isLoopBody with
  | home :: _ => (home, loops)
  | [] => (loops.getLastD scope, loops)

/-- The type of a binding as seen from a scope: one sequence layer for every loop body that the scope lies
outside of. -/
def typeAt (t : Scopes) (id : BindingId) (scope : ScopeId) : Ty :=
  match t.bindings[id]? with
  | some b => (b.loops.filter fun loop => !t.isWithin scope loop).foldl (fun ty _ => .array ty) b.ty
  | none => .any

/-- The one of two scopes that lies deeper; of two equally deep ones the second. -/
def deeper (t : Scopes) (best id : ScopeId) : ScopeId :=
  if (t.path best).length ≤ (t.path id).length then id else best

/-- The deepest of some scopes; of several the last. -/
def deepest (t : Scopes) : List ScopeId → ScopeId
  | [] => root
  | first :: rest => rest.foldl t.deeper first

/-- The innermost scope around an offset; of several the last opened. -/
def scopeAt (t : Scopes) (offset : Nat) : ScopeId :=
  t.deepest <| (List.range t.scopes.size).filter fun id =>
    t.scopes[id]?.any fun s => s.range.contains offset

end Scopes

end PipeLang
