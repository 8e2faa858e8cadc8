import PipeLang.Arguments
import PipeLang.Export
import PipeLang.Sources
import PipeLang.SyntaxError

/-!
# Faults

Everything that can be wrong with a module before it runs. A fault is a cause with its places; the wording,
the label of each place and the advice are derived from it.
-/

namespace PipeLang

/-- A fault of a module. -/
inductive Fault where
  | malformed (error : SyntaxError)
  /-- An import statement whose module cannot be loaded. -/
  | importFailed (cause : LoadError) (site : Span)
  /-- An import statement whose module has faults of its own. -/
  | dependencyFailed (path : String) (site : Span)
  /-- A name that a module does not export; `loading` when the module was reached through an import cycle. -/
  | unknownExport (name module : String) (loading : Bool) (site : Span)
  | nameCollision (name : String) (site first : Span)
  | duplicateExport (name : String) (site first : Span)
  | notYetDeclared (name : String) (site declared : Span)
  | notInScope (name : String) (site : Span)
  | aliasRequired (path stem : String) (site : Span)
  | nestedExport (site : Span)
  | notAModule (name : String) (site : Span)
  /-- A call of a host function with arguments that do not fit. -/
  | badCall (callee : String) (cause : CallFault) (site : Span)
  | stageRejectsReceiver (stage : String) (site : Span)
  deriving Repr

namespace Fault

/-- The place of a fault. -/
def site : Fault → Span
  | malformed error => error.span
  | importFailed _ site | dependencyFailed _ site | unknownExport _ _ _ site | nameCollision _ site _
  | duplicateExport _ site _ | notYetDeclared _ site _ | notInScope _ site | aliasRequired _ _ site
  | nestedExport site | notAModule _ site | badCall _ _ site | stageRejectsReceiver _ site => site

/-- The wording of a failed import. -/
def importMessage : LoadError → String
  | .invalidPath path cause => "invalid import path `" ++ path ++ "`: " ++ cause.message
  | .unknownProject _ project => "no project resolver for `" ++ project ++ "`"
  | other => other.message

/-- The wording of arguments that do not fit. -/
def callMessage (callee : String) : CallFault → String
  | .arity expected received =>
    "`" ++ callee ++ "` expects " ++ toString expected ++ " argument(s) but receives " ++ toString received
  | .unknownParameter name => "`" ++ callee ++ "` has no parameter named `" ++ name ++ "`"
  | .duplicateArgument name => "argument `" ++ name ++ "` of `" ++ callee ++ "` is supplied more than once"

/-- The wording of a fault. -/
def message : Fault → String
  | malformed error => error.message
  | importFailed cause _ => importMessage cause
  | dependencyFailed path _ => "module `" ++ path ++ "` has errors"
  | unknownExport name module _ _ => "`" ++ name ++ "` is not exported by `" ++ module ++ "`"
  | nameCollision name _ _ => "`" ++ name ++ "` is already bound to something else in this scope"
  | duplicateExport name _ _ => "`" ++ name ++ "` is exported more than once"
  | notYetDeclared name _ _ => "`" ++ name ++ "` is used before it is declared"
  | notInScope name _ => "`" ++ name ++ "` is not in scope"
  | aliasRequired path stem _ => "`" ++ path ++ "` needs an alias because `" ++ stem ++ "` is not an identifier"
  | nestedExport _ => "`export` is only allowed at the top level of a file"
  | notAModule name _ => "`" ++ name ++ "` is not a module"
  | badCall callee cause _ => callMessage callee cause
  | stageRejectsReceiver stage _ => "pipeline stage (" ++ stage ++ ") cannot take a receiver"

/-- What is said at the place of a fault. -/
def label : Fault → String
  | malformed _ => "here"
  | importFailed .. | dependencyFailed .. => "imported here"
  | unknownExport .. => "requested here"
  | nameCollision .. => "second binding"
  | duplicateExport .. => "exported again here"
  | notYetDeclared .. | notInScope .. => "used here"
  | aliasRequired .. => "add `as <name>`"
  | nestedExport _ => "inside a block"
  | notAModule .. => "expected a module"
  | badCall .. => "in this call"
  | stageRejectsReceiver .. => "receives the previous stage"

/-- A second place that explains a fault, and what is said there. -/
def related? : Fault → Option (Span × String)
  | nameCollision _ _ first => some (first, "first bound here")
  | duplicateExport _ _ first => some (first, "first exported here")
  | notYetDeclared _ _ declared => some (declared, "declared here")
  | _ => none

/-- Advice on a fault. -/
def help? : Fault → Option String
  | malformed error => error.help?
  | unknownExport _ module true _ =>
    some ("`" ++ module ++ "` is part of an import cycle; only names it exports before the cyclic import " ++
      "are visible")
  | unknownExport _ _ false _ => some "mark the declaration with `export`"
  | nameCollision .. => some "rename one of the bindings with `as`"
  | notYetDeclared .. => some "names are only visible after their declaration"
  | importFailed (.invalidPath ..) _ => some "import paths are relative to the project root"
  | importFailed (.unknownProject ..) _ => some "map the project in the `[external]` table of kcl.toml"
  | aliasRequired .. => some "write `import \"...\" as name`"
  | stageRejectsReceiver .. => some "only calls, function names and blocks take a receiver"
  | _ => none

/-- Whether a fault only passes on the failure of an imported module. -/
def isPassedOn : Fault → Bool
  | dependencyFailed .. => true
  | _ => false

end Fault

end PipeLang
