import PipeLang.Command

/-!
# What a command looks at

The places of a file tree that a command can look at, as far as they follow from what is known of the tree. A
program that copies these places from the machine's files, until no new ones come up, has all that the
command needs.
-/

namespace PipeLang.Command

/-- The places that following a path passes, its end included. -/
def passed (working : Files.Place) (p : Files.Path) : List Files.Place :=
  let start := if p.isAbsolute then [] else working
  let (_, places) := p.segments.foldl (fun (place, places) segment =>
    let next :=
      if Files.Path.isIdle segment then place
      else if segment = ['.', '.'] then place.dropLast
      else place ++ [String.ofList segment]
    (next, next :: places)) (start, [start])
  places

/-- The modules that the texts in a source might name. -/
def mentioned (source : String) : List ModulePath :=
  match Token.scan source with
  | .error _ => []
  | .ok tokens => tokens.filterMap fun t =>
    match t.kind with
    | .text name => (ModulePath.parse name).toOption
    | _ => none

/-- The modules that an invocation asks for, and that the modules loaded so far mention. -/
def Invocation.modules (i : Invocation) (s : Surroundings) (project : Project) : List ModulePath :=
  match i.sources s project with
  | .error _ => []
  | .ok (sources, name) =>
    let (_, p) := (Program.new sources project.policy .prelude).load name
    (ModulePath.parse name).toOption.toList ++ p.modules.toList.flatMap fun m => mentioned m.source

/-- The places that an invocation can look at. -/
def Invocation.places (i : Invocation) (s : Surroundings) : List Files.Place :=
  let manifests := Project.candidates i.start ++ Project.candidates .current
  let modules :=
    match i.project s with
    | .error _ => []
    | .ok project => project.root :: (i.modules s project).filterMap project.fileOf?
  (i.start :: i.root.toList ++ i.file.toList ++ manifests ++ modules).flatMap (passed s.working)

end PipeLang.Command
