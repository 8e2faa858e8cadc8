import PipeLang.Text.Name

/-!
# Module paths

A module is named by a `/`-separated path below the root of its project, or below the root of another
project when the path begins with `scheme://project/`. Paths are kept in canonical form: no empty, `.` or `..`
segment, and an extension on the last segment.
-/

namespace PipeLang

/-- The part of a path that names another project. -/
structure ExternalProject where
  scheme : String
  project : String
  deriving DecidableEq, Repr

/-- The text `scheme://project`. -/
def ExternalProject.render (e : ExternalProject) : String :=
  e.scheme ++ "://" ++ e.project

/-- A canonical module path. -/
structure ModulePath where
  external : Option ExternalProject
  file : String
  deriving DecidableEq, Repr

/-- Why a text names no module. -/
inductive PathError where
  | badScheme (scheme : String)
  | missingFile
  | emptyProject
  | empty
  | backslash
  | absolute
  | emptySegment
  | dotSegment
  deriving DecidableEq, Repr

/-- The wording of a path error. -/
def PathError.message : PathError → String
  | badScheme scheme => "`" ++ scheme ++ "` is not a valid scheme"
  | missingFile => "external paths look like `scheme://project/file`"
  | emptyProject => "external project name is empty"
  | empty => "import path is empty"
  | backslash => "use `/` as the path separator"
  | absolute => "paths are relative to the project root"
  | emptySegment => "path contains an empty segment"
  | dotSegment => "`.` and `..` segments are not allowed"

namespace ModulePath

/-- The extension that a path gets when it has none. -/
def extension : List Char := ['.', 'k', 'c', 'l']

/-- Whether a dot stands behind the first character of a segment. -/
def hasExtension (segment : List Char) : Bool :=
  segment.tail.contains '.'

/-- What is wrong with a segment, if anything. -/
def segmentError? (segment : List Char) : Option PathError :=
  if segment = [] then
    some .emptySegment
  else if segment = ['.'] || segment = ['.', '.'] then
    some .dotSegment
  else
    none

/-- The canonical form of the part of a path that names a file. -/
def canonicalFile (raw : List Char) : Except PathError (List Char) :=
  if raw = [] then
    .error .empty
  else if raw.contains '\\' then
    .error .backslash
  else if raw.head? = some '/' then
    .error .absolute
  else
    let segments := Text.splitEvery '/' raw
    match segments.findSome? segmentError? with
    | some error => .error error
    | none =>
      if hasExtension (segments.getLastD []) then .ok raw else .ok (raw ++ extension)

/-- The canonical path that a text names. -/
def parse (raw : String) : Except PathError ModulePath :=
  match Text.splitAtFirst [':', '/', '/'] raw.toList with
  | none => do
    return ⟨none, String.ofList (← canonicalFile raw.toList)⟩
  | some (scheme, rest) =>
    if scheme = [] || !scheme.all Char.isAlphanum then
      .error (.badScheme (String.ofList scheme))
    else
      match Text.splitAtFirst ['/'] rest with
      | none => .error .missingFile
      | some (project, file) =>
        if project = [] then
          .error .emptyProject
        else do
          let file ← canonicalFile file
          return ⟨some ⟨String.ofList scheme, String.ofList project⟩, String.ofList file⟩

/-- The text of a path. -/
def render (p : ModulePath) : String :=
  match p.external with
  | some e => e.render ++ "/" ++ p.file
  | none => p.file

/-- The last segment of a path. -/
def lastSegment (p : ModulePath) : List Char :=
  (Text.splitEvery '/' p.file.toList).getLastD []

/-- A segment up to its last dot, unless that dot begins the segment or there is none. -/
def withoutExtension (segment : List Char) : List Char :=
  match segment.reverse.dropWhile (· != '.') with
  | _ :: before => if before = [] then segment else before.reverse
  | [] => segment

/-- The last segment without its extension. -/
def stem (p : ModulePath) : String :=
  String.ofList (withoutExtension p.lastSegment)

/-- The name that importing the path binds, if the stem has the shape of a name. -/
def bindingName? (p : ModulePath) : Option String :=
  if Text.isName p.stem.toList then some p.stem else none

end ModulePath

end PipeLang
