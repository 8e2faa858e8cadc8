import PipeLang.Program

/-!
# Resolution state

What is known while a module is resolved: the program around it, the scopes and bindings found so far, and
the tables that evaluation will read. Names are looked up in the growing table; a name that is not found may
still be declared further on, and is decided only when the whole module has been seen.
-/

namespace PipeLang

/-- A name that was not found at its use. -/
structure OpenName where
  name : String
  site : Span
  scope : ScopeId

/-- The state of a resolution. -/
structure Resolution where
  program : Program
  /-- The module that is being resolved. -/
  home : ModuleId
  scopes : Scopes
  current : ScopeId
  references : SpanTable Reference
  declarations : SpanTable BindingId
  imports : SpanTable ModuleId
  loopTags : SpanTable (List BindingId)
  /-- The loop that each loop body belongs to. -/
  loopSites : List (ScopeId × Span)
  openNames : List OpenName
  faults : List Fault

/-- A step of resolution. -/
abbrev Resolve := StateM Resolution

namespace Resolution

/-- The state before the first statement of a module. -/
def start (program : Program) (home : ModuleId) (range : Span) : Resolution where
  program := program
  home := home
  scopes := .new range
  current := Scopes.root
  references := .empty
  declarations := .empty
  imports := .empty
  loopTags := .empty
  loopSites := []
  openNames := []
  faults := []

/-- What later stages need of a finished resolution. -/
def resolved (r : Resolution) : Resolved :=
  ⟨r.scopes, r.references, r.declarations, r.imports, r.loopTags⟩

end Resolution

namespace Resolve

/-- Reports faults. -/
def report (faults : List Fault) : Resolve Unit :=
  modify fun r => { r with faults := r.faults ++ faults }

/-- Refuses `export` anywhere but at the top level. -/
def refuseNested (exported topLevel : Bool) (site : Span) : Resolve Unit :=
  if exported && !topLevel then report [.nestedExport site] else return

/-- Records what a use denotes. -/
def record (site : Span) (target : Target) (ty : Ty) : Resolve Unit :=
  modify fun r => { r with references := r.references.insert site ⟨target, ty⟩ }

/-- Opens a scope inside the current one; the answer is the scope to return to. -/
def enter (kind : ScopeKind) (range : Span) : Resolve ScopeId := do
  let r ← get
  set { r with
    scopes := r.scopes.push (some r.current) kind range
    current := r.scopes.nextScope }
  return r.current

/-- Returns to a scope. -/
def leave (outer : ScopeId) : Resolve Unit :=
  modify fun r => { r with current := outer }

/-- The binding that keeps another from being installed, if there is one: a binding of the same name in the
same scope for a different item, unless the policy defers the collision because of a glob import. -/
def obstacle? (policy : GlobPolicy) (scopes : Scopes) (b : Binding) : Option Binding :=
  (scopes.named b.scope b.name).findSome? fun id =>
    match scopes.bindings[id]? with
    | some other =>
      let deferred := (other.origin = .glob || b.origin = .glob) && policy = .onUse
      if other.target.sameItem b.target || deferred then none else some other
    | none => none

/-- Adds a binding to its scope unless it collides there; the answer is its id if it was added. -/
def install (b : Binding) : Resolve (Option BindingId) := do
  let r ← get
  match obstacle? r.program.policy r.scopes b with
  | some other =>
    report [.nameCollision b.name b.site other.site]
    return none
  | none =>
    set { r with scopes := r.scopes.insert b }
    return some r.scopes.nextBinding

/-- Records the binding that a declaring name introduces. -/
def declare (site : Span) (id : BindingId) : Resolve Unit :=
  modify fun r => { r with declarations := r.declarations.insert site id }

/-- Adds a binding to its scope as what the name at its site introduces, unless it collides there. -/
def introduce (b : Binding) : Resolve (Option BindingId) := do
  match ← install b with
  | some id =>
    declare b.site id
    return some id
  | none => return none

/-- Declares a name of this module in the current scope. -/
def declareInner (ident : Ident) (visibleFrom : Nat) (ty : Ty) (origin : Origin) : Resolve Unit := do
  let r ← get
  let _ ← introduce
    ⟨ident.name, ident.name, .inner r.scopes.nextBinding, r.current, visibleFrom, ident.span, ty, origin, []⟩

/-- Adds a tag to those that a loop collects. -/
def addLoopTag (tag : BindingId) (loop : ScopeId) : Resolve Unit :=
  modify fun r =>
    match r.loopSites.lookup loop with
    | some site => { r with loopTags := r.loopTags.insert site ((r.loopTags.get? site).getD [] ++ [tag]) }
    | none => r

/-- Declares the tag of a stage in the nearest scope that is no loop body, and has every loop on the way
collect it. -/
def declareTag (tag : Ident) (visibleFrom : Nat) (ty : Ty) : Resolve Unit := do
  let r ← get
  let (home, loops) := r.scopes.tagHome r.current
  let introduced ← introduce
    ⟨tag.name, tag.name, .inner r.scopes.nextBinding, home, visibleFrom, tag.span, ty, .tag, loops⟩
  match introduced with
  | some id => loops.forM (addLoopTag id)
  | none => return

/-- Uses a host function at a place, if there is one of the name. -/
def useHost (name : String) (site : Span) : Resolve (Option (Target × Ty)) := do
  match (← get).program.hosts.signature? name with
  | some signature =>
    let ty := Ty.function signature.returns
    record site (.host name) ty
    return some (.host name, ty)
  | none => return none

/-- Leaves a name open until the whole module has been seen. -/
def leaveOpen (ident : Ident) : Resolve Unit :=
  modify fun r => { r with openNames := r.openNames ++ [⟨ident.name, ident.span, r.current⟩] }

/-- The site of a binding. -/
def siteOf (scopes : Scopes) (id : BindingId) : Span :=
  match scopes.bindings[id]? with
  | some b => b.site
  | none => default

/-- Uses a name: its binding in the scopes around the place, or else a host function. -/
def useName (ident : Ident) : Resolve (Option (Target × Ty)) := do
  let r ← get
  match r.scopes.lookup r.current ident.name ident.span.start with
  | .found id =>
    let target := r.scopes.target id
    if target = .invalid then
      return none
    else
      let ty := r.scopes.typeAt id r.current
      record ident.span target ty
      return some (target, ty)
  | .ambiguous ids =>
    report [.nameCollision ident.name ident.span (siteOf r.scopes (ids.headD 0))]
    return none
  | .notYetDeclared id =>
    report [.notYetDeclared ident.name ident.span (siteOf r.scopes id)]
    return none
  | .notFound =>
    match ← useHost ident.name ident.span with
    | some found => return some found
    | none =>
      leaveOpen ident
      return none

/-- The fault of a name that was not found at its use, once all declarations are known. -/
def openNameFault (scopes : Scopes) (n : OpenName) : Fault :=
  match scopes.lookup n.scope n.name Resolved.behindAll with
  | .found id => .notYetDeclared n.name n.site (siteOf scopes id)
  | .ambiguous ids => .notYetDeclared n.name n.site (siteOf scopes (ids.headD 0))
  | .notYetDeclared _ | .notFound => .notInScope n.name n.site

/-- Reports the names that were left open. -/
def reportOpenNames : Resolve Unit :=
  modify fun r => { r with
    faults := r.faults ++ r.openNames.map (openNameFault r.scopes)
    openNames := [] }

/-- Offers a name of the module that is being resolved to others. -/
def publish (e : Export) : Resolve Unit := do
  let r ← get
  match (r.program.exportsOf r.home).insert e with
  | .ok exports => set { r with program := r.program.modify r.home fun m => { m with exports := exports } }
  | .error first => report [.duplicateExport e.name e.site first.site]

end Resolve

end PipeLang
