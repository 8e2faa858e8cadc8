import PipeLang.Reader
import PipeLang.Resolve.Expr

/-!
# Loading

A module is read, parsed and resolved when it is first asked for; its imports are loaded while it is resolved.
A module that is asked for again, also while it is still loading, is found. How deeply loads can nest is
bounded by the number of texts that the sources can have.
-/

namespace PipeLang.Program

/-- Parses a module that has been entered, and resolves it; the answer is what is wrong with it. -/
def resolveEntered (load : Loader) (p : Program) (id : ModuleId) (source : String) :
    Program × List Fault :=
  match Module.parse source with
  | .ok ast =>
    let p := p.modify id fun m => { m with ast := some ast }
    let r := ((Resolve.module load ast).run (.start p id ast.span)).2
    (r.program.modify id fun m => { m with resolved := some r.resolved }, r.faults)
  | .error errors => (p, errors.map .malformed)

/-- Finishes a module with the faults found in it, and makes its importers fail if there are any. -/
def finish (p : Program) (id : ModuleId) (faults : List Fault) : Program :=
  let p := p.modify id fun m => { m with faults := m.faults ++ faults, status := .loaded }
  match p.modules[id]? with
  | some m => if m.faults.isEmpty then p else p.propagate [id]
  | none => p

/-- The module of a path: the one that was loaded for it, or else a new one, within a depth of nested loads. -/
def loadPath : Nat → Program → ModulePath → Except LoadError ModuleId × Program
  | depth, p, path =>
    match p.findPath? path with
    | some id => (.ok id, p)
    | none =>
      match p.sources.read path with
      | .error e => (.error e, p)
      | .ok source =>
        match depth with
        | 0 => (.error (.tooDeep path.render), p)
        | depth + 1 =>
          let id := p.modules.size
          let loadInner : Loader := fun p raw =>
            match ModulePath.parse raw with
            | .ok inner => loadPath depth p inner
            | .error cause => (.error (.invalidPath raw cause), p)
          let (p, faults) := resolveEntered loadInner (p.enter path source) id source
          (.ok id, p.finish id faults)

/-- The module of the path that a text names, loaded if it is not. -/
def load (p : Program) (raw : String) : Except LoadError ModuleId × Program :=
  match ModulePath.parse raw with
  | .ok path => p.loadPath (p.sources.limit + 1) path
  | .error cause => (.error (.invalidPath raw cause), p)

end PipeLang.Program
