import PipeLang.ModulePath

/-!
# Sources

Where the texts of modules come from. Texts kept in memory are stored under canonical paths; they may stand
alone or shadow other sources. Paths into other projects are answered by those projects alone.
-/

namespace PipeLang

/-- Why a text cannot be read. -/
inductive ReadFailure where
  | notFound
  /-- Anything else, in the words of the storage. -/
  | failed (message : String)
  deriving DecidableEq, Repr

/-- Why a module cannot be loaded. -/
inductive LoadError where
  | invalidPath (path : String) (cause : PathError)
  | notFound (path : String)
  | unknownProject (path project : String)
  | unreadable (path message : String)
  /-- More modules are nested in one another than the sources claim to have; sources that keep to their limit
  never cause it. -/
  | tooDeep (path : String)
  deriving DecidableEq, Repr

/-- The wording of a failed load. -/
def LoadError.message : LoadError → String
  | invalidPath path cause => "invalid module path `" ++ path ++ "`: " ++ cause.message
  | notFound path => "module `" ++ path ++ "` not found"
  | unknownProject path project => "no project resolver for `" ++ project ++ "` (needed by `" ++ path ++ "`)"
  | unreadable path message => "failed to read `" ++ path ++ "`: " ++ message
  | tooDeep path => "imports of `" ++ path ++ "` are nested too deeply"

/-- Texts kept in memory, the latest first, under the texts of canonical paths. -/
structure Texts where
  entries : List (String × String)

namespace Texts

/-- No texts. -/
def empty : Texts := ⟨[]⟩

/-- The text under which a path is kept: its canonical form if it has one. -/
def key (path : String) : String :=
  match ModulePath.parse path with
  | .ok p => p.render
  | .error _ => path

/-- Keeps a text; an earlier text under the same canonical path is forgotten. -/
def insert (t : Texts) (path text : String) : Texts :=
  ⟨(key path, text) :: t.entries⟩

/-- Texts inserted one after another. -/
def ofList (files : List (String × String)) : Texts :=
  files.foldl (fun t (path, text) => t.insert path text) empty

/-- The text kept for a path. -/
def get? (t : Texts) (p : ModulePath) : Option String :=
  t.entries.lookup p.render

end Texts

/-- A provider of module texts. -/
structure Sources where
  /-- Answers for paths inside the project. -/
  files : ModulePath → Except ReadFailure String
  /-- Answers for paths into other projects; `none` for a project that is not known. -/
  projects : ModulePath → Option (Except ReadFailure String)
  /-- No more than this many paths can be read. -/
  limit : Nat

namespace Sources

/-- The text of a module. -/
def read (s : Sources) (p : ModulePath) : Except LoadError String :=
  let answer :=
    match p.external with
    | none => some (s.files p)
    | some _ => s.projects p
  match answer, p.external with
  | some (.ok text), _ => .ok text
  | some (.error .notFound), _ => .error (.notFound p.render)
  | some (.error (.failed message)), _ => .error (.unreadable p.render message)
  | none, some e => .error (.unknownProject p.render e.render)
  | none, none => .error (.notFound p.render)

/-- Texts in memory, without other projects. -/
def ofTexts (t : Texts) : Sources where
  files p := match t.get? p with
    | some text => .ok text
    | none => .error .notFound
  projects _ := none
  limit := t.entries.length

/-- Texts in memory in front of other sources. -/
def layered (top : Texts) (base : Sources) : Sources where
  files p := match top.get? p with
    | some text => .ok text
    | none => base.files p
  projects := base.projects
  limit := top.entries.length + base.limit

/-- Sources in which reading some paths fails. -/
def withBroken (broken : List (String × String)) (base : Sources) : Sources where
  files p := match broken.lookup p.render with
    | some message => .error (.failed message)
    | none => base.files p
  projects := base.projects
  limit := base.limit

/-- Sources with other projects, each a list of files and their texts. -/
def withProjects (others : List (String × List (String × String))) (base : Sources) : Sources where
  files := base.files
  projects p := do
    let external ← p.external
    let texts ← others.lookup external.render
    return match texts.lookup p.file with
      | some text => .ok text
      | none => .error .notFound
  limit := base.limit + (others.flatMap Prod.snd).length

end Sources

end PipeLang
