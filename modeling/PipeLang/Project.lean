import PipeLang.Files.Tree
import PipeLang.Project.Manifest

/-!
# Projects

A project is a directory of modules with its settings. The manifest of a file is looked for in the directory
of the file and then in the directories above it, as far as the spelling of the path leads. Without a manifest
the directory of the file is a project of its own.
-/

namespace PipeLang

/-- A project. -/
structure Project where
  root : Files.Path
  name : Option String
  main : Option String
  policy : GlobPolicy
  /-- Directories of other projects under `scheme://project`, in the order of the keys. -/
  external : List (String × Files.Path)
  /-- The manifest that the settings come from. -/
  manifest : Option Files.Path

/-- Why the settings of a project cannot be had. -/
inductive ManifestError where
  | unreadable (path : Files.Path) (cause : Files.Trouble)
  | flawed (path : Files.Path) (cause : Manifest.Flaw)

namespace ManifestError

/-- What failed, without the reason. -/
def subject : ManifestError → String
  | unreadable path _ => "failed to read " ++ path.render
  | flawed path (.badExternalKey _) => "invalid manifest " ++ path.render
  | flawed path _ => "failed to parse " ++ path.render

/-- The reason. -/
def reason : ManifestError → String
  | unreadable _ cause => cause.message
  | flawed _ cause => cause.message

/-- The wording of the error. -/
def message (e : ManifestError) : String :=
  e.subject ++ ": " ++ e.reason

end ManifestError

namespace Project

/-- The name of a manifest. -/
def manifestFile : Files.Path := .ofString "kcl.toml"

/-- The project of a directory without a manifest. -/
def ofRoot (root : Files.Path) : Project :=
  ⟨root, none, none, .eager, [], none⟩

/-- The directory at which a search that starts at a path begins: the path if it leads to a directory, else
its parent. -/
def startDirectory (t : Files.Tree) (working : Files.Place) (start : Files.Path) : Files.Path :=
  if t.isDirectory working start then
    start
  else
    match start.parent? with
    | some parent => if parent.chars.isEmpty then .current else parent
    | none => .current

/-- The paths at which a manifest is looked for, in order. -/
def candidates (directory : Files.Path) : List Files.Path :=
  (directory :: directory.ancestors).map fun d => d.join manifestFile

/-- The first manifest on the way up from a path. -/
def findManifest (t : Files.Tree) (working : Files.Place) (start : Files.Path) : Option Files.Path :=
  (candidates (startDirectory t working start)).find? fun path => t.reaches working path

/-- The project of a manifest; it lies in the directory of the manifest, and other projects are named from there. -/
def load (t : Files.Tree) (working : Files.Place) (path : Files.Path) : Except ManifestError Project := do
  let text ← (t.readText working path).mapError (.unreadable path)
  let settings ← (Manifest.parse text).mapError (.flawed path)
  let root := path.parent?.getD .current
  return ⟨root, settings.name, settings.main, settings.policy,
    settings.external.map fun (key, directory) => (key, root.join (.ofString directory)), some path⟩

/-- The project that a path belongs to. -/
def discover (t : Files.Tree) (working : Files.Place) (start : Files.Path) : Except ManifestError Project :=
  match findManifest t working start with
  | some path => load t working path
  | none => .ok (ofRoot (startDirectory t working start))

/-- Reads a text out of a tree. -/
def readFrom (t : Files.Tree) (working : Files.Place) (path : Files.Path) : Except ReadFailure String :=
  (t.readText working path).mapError fun
    | .missing => .notFound
    | other => .failed other.message

/-- The file of a module of a project, or of a project that it names. -/
def fileOf? (p : Project) (m : ModulePath) : Option Files.Path :=
  let file := Files.Path.ofString m.file
  match m.external with
  | none => some (p.root.join file)
  | some external => (p.external.lookup external.render).map fun directory => directory.join file

/-- The texts of the modules of a project, and of the projects that it names. -/
def sources (p : Project) (t : Files.Tree) (working : Files.Place) : Sources where
  files m := readFrom t working (p.root.join (.ofString m.file))
  projects m := (p.fileOf? m).map (readFrom t working)
  limit := t.entries.length * (p.external.length + 1)

end Project

end PipeLang
