import PipeLang.Proofs.Resolve.After
import PipeLang.Resolve.Expr

/-!
# Parts of resolution

What some steps of resolution go on with when they know what they have asked for: how a name is used that has been looked up, how a
path is followed through a module, and what becomes of a binding that has been introduced. Each part has a name here, so that every
theory of resolution judges it once.
-/

namespace PipeLang.Resolve

/-! ### Uses -/

/-- Uses a host function of a signature, if there is one. -/
def useSignature (name : String) (site : Span) (signature : Option Signature) : Resolve (Option (Target × Ty)) :=
  match signature with
  | some signature => do
    let ty := Ty.function signature.returns
    record site (.host name) ty
    return some (.host name, ty)
  | none => return none

/-- Uses a host function, or leaves a name open if there is none. -/
def useHostOrLeave (name : String) (site : Span) (ident : Ident) : Resolve (Option (Target × Ty)) := do
  match ← useHost name site with
  | some found => return some found
  | none =>
    leaveOpen ident
    return none

/-- Uses a name as what it was found to be. -/
def useFound (ident : Ident) (scopes : Scopes) (current : ScopeId) (found : Lookup) : Resolve (Option (Target × Ty)) := do
  match found with
  | .found id =>
    let target := scopes.target id
    if target = .invalid then
      return none
    else
      let ty := scopes.typeAt id current
      record ident.span target ty
      return some (target, ty)
  | .ambiguous ids =>
    report [.nameCollision ident.name ident.span (siteOf scopes (ids.headD 0))]
    return none
  | .notYetDeclared id =>
    report [.notYetDeclared ident.name ident.span (siteOf scopes id)]
    return none
  | .notFound => useHostOrLeave ident.name ident.span ident

/-- Follows a path into a module, if it is there. -/
def followInto (site : Span) (segment : Ident) (rest : List Ident) (shown : Option LoadedModule) :
    Resolve (Option (Target × Ty)) :=
  match shown with
  | none => return none
  | some m =>
    match m.exports.get? segment.name with
    | some e => followPath site e.target e.ty segment rest
    | none => do
      report [.unknownExport segment.name m.path.render (m.status = .loading) segment.span]
      return none

/-- Uses a path whose head is a name in scope. -/
def useHead (head : Ident) (rest : List Ident) (site : Span) : Resolve (Option (Target × Ty)) := do
  match ← useName head with
  | some (target, ty) => followPath site target ty head rest
  | none => return none

/-- Uses a path whose head was found so. -/
def usePathFound (head : Ident) (rest : List Ident) (site : Span) (found : Lookup) : Resolve (Option (Target × Ty)) :=
  match found with
  | .notFound => useHostOrLeave (pathName head rest) site head
  | _ => useHead head rest site

/-- Checks a call of a host function of a signature. -/
def checkSignature (name : String) (positional : Nat) (keywords : List Ident) (site : Span) (signature : Option Signature) :
    Resolve Unit :=
  match signature with
  | some signature =>
    report <| (callFaults (signature.params.map HostParam.slot) positional keywords site).map
      fun (cause, place) => .badCall name cause place
  | none => return

/-! ### Imports -/

/-- Loads the module of an import statement, and goes on with the answer and the program behind it. -/
def loadAnd {α : Type} (load : Loader) (i : Import) (tail : Except LoadError ModuleId → Program → Resolve α) : Resolve α := do
  let r ← get
  let (found, program) := load r.program i.path
  set { r with program := program }
  tail found program

/-- What follows the loading of a module in an import statement. -/
def bindLoaded (i : Import) (topLevel : Bool) (answer : Except LoadError ModuleId) (program : Program) :
    Resolve Unit := do
  match answer with
  | .error cause =>
    report [.importFailed cause i.pathSpan]
    keepNames i
  | .ok target =>
    modify fun r => { r with imports := r.imports.insert i.span target }
    match program.modules[target]? with
    | none => return
    | some m =>
      if m.status = .loaded && !m.faults.isEmpty then
        report [.dependencyFailed m.path.render i.pathSpan]
        keepNames i
      else
        modify fun r => { r with program := r.program.addEdge ⟨r.home, target, i.pathSpan⟩ }
        bindImports i topLevel target m

/-! ### Bindings that have been introduced, or have not -/

/-- The loops that a tag crosses collect it. -/
def collect (loops : List ScopeId) (found : Option BindingId) : Resolve Unit :=
  match found with
  | some id => loops.forM (addLoopTag id)
  | none => return

@[simp] lemma collect_some {loops : List ScopeId} {id : BindingId} : collect loops (some id) = loops.forM (addLoopTag id) :=
  rfl

/-- A definition is exported. -/
def offer (e : Export) (found : Option BindingId) : Resolve Unit :=
  match found with
  | some _ => publish e
  | none => return

@[simp] lemma offer_some {e : Export} {id : BindingId} : offer e (some id) = publish e := rfl

end PipeLang.Resolve
