import PipeLang.Resolve.State

/-!
# Imports

An import statement loads its module and binds names to what the module exports at that moment. When the
module cannot be used, the names that the statement would have bound are kept as invalid, so that their uses
cause no further faults.
-/

namespace PipeLang

/-- Loads the module of a path, or finds it loaded. -/
abbrev Loader := Program → String → Except LoadError ModuleId × Program

/-- A name that an import statement binds. -/
structure Imported where
  name : String
  sourceName : String
  target : Target
  kind : ExportKind
  ty : Ty
  site : Span
  origin : Origin

namespace Import

/-- An export under a local name. -/
def ofExport (e : Export) (name : String) (site : Span) (origin : Origin) : Imported :=
  ⟨name, e.name, e.target, e.kind, e.ty, site, origin⟩

/-- The module itself, under its alias or the name of its path. -/
def moduleItem (target : ModuleId) (path : ModulePath) (newName : Option Ident) (site : Span) :
    Except Fault Imported :=
  match newName, path.bindingName? with
  | some a, _ => .ok ⟨a.name, path.stem, .module target, .module, .module, a.span, .named⟩
  | none, some name => .ok ⟨name, path.stem, .module target, .module, .module, site, .named⟩
  | none, none => .error (.aliasRequired path.render path.stem site)

/-- The names that a list of items names explicitly. -/
def explicitNames (items : List ImportItem) : List String :=
  items.filterMap fun
    | .name name _ => some name.name
    | _ => none

/-- A name that stays known although its import failed. -/
def invalidBinding (ident : Ident) (scope : ScopeId) (visibleFrom : Nat) : Binding :=
  ⟨ident.name, ident.name, .invalid, scope, visibleFrom, ident.span, .any, .named, []⟩

end Import

namespace Resolve

/-- Keeps a name whose import failed. -/
def keepInvalid (ident : Ident) (visibleFrom : Nat) : Resolve Unit :=
  modify fun r => { r with scopes := r.scopes.insert (Import.invalidBinding ident r.current visibleFrom) }

/-- Keeps the name of a module that cannot be used: its alias, or the name of its path. -/
def keepModuleName (statement : Import) (newName : Option Ident) (site : Span) : Resolve Unit := do
  match newName with
  | some newName => keepInvalid newName statement.span.stop
  | none =>
    match ModulePath.parse statement.path with
    | .ok path =>
      match path.bindingName? with
      | some name => keepInvalid ⟨name, site⟩ statement.span.stop
      | none => return
    | .error _ => return

/-- Keeps every name that a failed import statement would have bound. -/
def keepNames (statement : Import) : Resolve Unit := do
  match statement.items with
  | .module newName => keepModuleName statement newName statement.pathSpan
  | .list items => items.forM fun
    | .name name newName => keepInvalid (newName.getD name) statement.span.stop
    | .self span newName => keepModuleName statement newName span
    | .glob _ => return

/-- What one item of an import list binds, given the exports of the module at that moment. A name that is
not exported is reported and kept as invalid. -/
def importItem (statement : Import) (target : ModuleId) (m : LoadedModule) (explicit : List String) :
    ImportItem → Resolve (List Imported)
  | .name name newName => do
    let bound := newName.getD name
    match m.exports.get? name.name with
    | some e => return [Import.ofExport e bound.name bound.span .named]
    | none =>
      report [.unknownExport name.name m.path.render (m.status = .loading) name.span]
      keepInvalid bound statement.span.stop
      return []
  | .self span newName => do
    match Import.moduleItem target m.path newName span with
    | .ok item => return [item]
    | .error fault =>
      report [fault]
      return []
  | .glob span =>
    return (m.exports.entries.filter fun e => !explicit.contains e.name).map fun e =>
      Import.ofExport e e.name span .glob

/-- What the items of an import list bind, in order. -/
def importItems (statement : Import) (target : ModuleId) (m : LoadedModule) (explicit : List String) :
    List ImportItem → Resolve (List Imported)
  | [] => return []
  | item :: rest => do
    let first ← importItem statement target m explicit item
    return first ++ (← importItems statement target m explicit rest)

/-- Binds an imported name, and exports it when the statement says so. -/
def installImport (statement : Import) (topLevel : Bool) (item : Imported) : Resolve Unit := do
  let installed ← install
    ⟨item.name, item.sourceName, item.target, (← get).current, statement.span.stop, item.site, item.ty,
      item.origin, []⟩
  if installed.isSome && statement.exported && topLevel then
    publish ⟨item.name, item.target, item.kind, item.site, item.ty, true⟩

/-- Binds the names of an import statement whose module can be used. -/
def bindImports (statement : Import) (topLevel : Bool) (target : ModuleId) (m : LoadedModule) :
    Resolve Unit := do
  let imported ←
    match statement.items with
    | .module newName =>
      importItem statement target m [] (.self statement.pathSpan newName)
    | .list items => importItems statement target m (Import.explicitNames items) items
  imported.forM (installImport statement topLevel)

/-- Resolves an import statement. -/
def importStatement (load : Loader) (statement : Import) (topLevel : Bool) : Resolve Unit := do
  refuseNested statement.exported topLevel statement.span
  let r ← get
  let (answer, program) := load r.program statement.path
  set { r with program := program }
  match answer with
  | .error cause =>
    report [.importFailed cause statement.pathSpan]
    keepNames statement
  | .ok target =>
    modify fun r => { r with imports := r.imports.insert statement.span target }
    match program.modules[target]? with
    | none => return
    | some m =>
      if m.status = .loaded && !m.faults.isEmpty then
        report [.dependencyFailed m.path.render statement.pathSpan]
        keepNames statement
      else
        modify fun r => { r with
          program := r.program.addEdge ⟨r.home, target, statement.pathSpan⟩ }
        bindImports statement topLevel target m

end Resolve

end PipeLang
