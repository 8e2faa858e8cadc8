import PipeLang.Command.Line
import PipeLang.Entry
import PipeLang.Load
import PipeLang.Project

/-!
# The command

Checks a module or runs its entry points. The file may be named, or be the main module of the project, or be
the text that is piped in, which then shadows the module `stdin.kcl` of the project. What the command prints, what
it complains about and the status it ends with are a function of the command line, the files and the input.
-/

namespace PipeLang.Command

/-- What a command can see. -/
structure Surroundings where
  tree : Files.Tree
  working : Files.Place
  /-- What is piped in. -/
  input : ByteArray
  /-- Whether nothing is piped in, because someone types. -/
  interactive : Bool

/-- Why a command fails. -/
inductive Complaint where
  | usage
  | manifest (error : ManifestError)
  | inaccessible (path : Files.Path) (cause : Files.Trouble)
  | outsideRoot (file root : Files.Place)
  | unreadableInput (cause : Files.Trouble)
  | nothingToLoad
  | load (error : LoadError)
  | runtime (error : RuntimeError)
  /-- The program was still running at the bound on nested evaluation. -/
  | endless
  /-- The modules have faults, one text for each. -/
  | faultyCheck (faults : List String)
  /-- The modules have faults, so that nothing is run. -/
  | faultyRun (faults : List String)

/-- The form of a command line. -/
def usage : String :=
  "Usage: kcl [--root DIR] check [FILE]\n       kcl [--root DIR] run [FILE] [--function NAME]... " ++
    "[--arg [NAME=]VALUE]..."

/-- The wording of a complaint. -/
def Complaint.message : Complaint → String
  | usage => Command.usage
  | manifest error => "Manifest error: " ++ error.message
  | inaccessible path cause => "Failed to access " ++ path.render ++ ": " ++ cause.message
  | outsideRoot file root => file.render ++ " is outside the project root " ++ root.render
  | unreadableInput cause => "Failed to read stdin: " ++ cause.message
  | nothingToLoad => "No file given, no `main` in kcl.toml and nothing piped to stdin"
  | load error => "Load error: " ++ error.message
  | runtime error => "Runtime error: " ++ error.message
  | endless => "Runtime error: evaluation is nested too deeply"
  | faultyCheck faults => "\n".intercalate (faults ++ [toString faults.length ++ " error(s)"])
  | faultyRun faults => "\n".intercalate faults

/-- The status with which a command ends when it complains. -/
def Complaint.status : Complaint → Nat
  | usage => 2
  | _ => 1

/-- What a command prints, and what it complains about. -/
structure Report where
  output : String
  complaint : Option Complaint

/-- The status with which a command ends. -/
def Report.status (r : Report) : Nat :=
  match r.complaint with
  | none => 0
  | some complaint => complaint.status

/-- The number of the line of a text in which an offset lies. -/
def lineNumber (source : String) (offset : Nat) : Nat :=
  let (_, number) := source.toList.foldl (fun (position, number) c =>
    (position + c.utf8Size, if c = '\n' && position < offset then number + 1 else number)) (0, 1)
  number

/-- A fault of a module as a text. -/
def describe (m : LoadedModule) (f : Fault) : String :=
  let place := m.path.render ++ ":" ++ toString (lineNumber m.source f.site.start)
  match f.help? with
  | some help => place ++ ": " ++ f.message ++ " (help: " ++ help ++ ")"
  | none => place ++ ": " ++ f.message

/-- The faults of all modules of a program as texts. -/
def faultTexts (p : Program) : List String :=
  p.modules.toList.flatMap fun m => m.faults.map (describe m)

/-- The name of the module that is piped in. -/
def inputModule : String := "stdin.kcl"

/-- The name of a file as a module of the project with a root. -/
def moduleName (s : Surroundings) (root file : Files.Path) : Except Complaint String := do
  let root ← (s.tree.locate s.working root).mapError (.inaccessible root)
  let file ← (s.tree.locate s.working file).mapError (.inaccessible file)
  if root.isPrefixOf file then
    return "/".intercalate (file.drop root.length)
  else
    throw (.outsideRoot file root)

/-- Whether a file stands for what is piped in. -/
def isInput (file : Files.Path) : Bool :=
  file == .ofString "-"

/-- The file that an invocation names, unless it stands for what is piped in. -/
def Invocation.namedFile (i : Invocation) : Option Files.Path :=
  i.file.filter fun file => !isInput file

/-- Where the search for the manifest starts: at the file, or the root, or in the working directory. -/
def Invocation.start (i : Invocation) : Files.Path :=
  (i.namedFile <|> i.root).getD .current

/-- The project of an invocation. A root that is given takes the place of the project's own. -/
def Invocation.project (i : Invocation) (s : Surroundings) : Except ManifestError Project := do
  let project ← Project.discover s.tree s.working i.start
  return { project with root := i.root.getD project.root }

/-- Whether an invocation reads what is piped in: it says so, or nothing else is named. -/
def Invocation.readsInput (i : Invocation) (project : Project) (interactive : Bool) : Bool :=
  i.namedFile.isNone && (i.file.isSome || (project.main.isNone && !interactive))

/-- The sources of an invocation and the module to load from them. -/
def Invocation.sources (i : Invocation) (s : Surroundings) (project : Project) :
    Except Complaint (Sources × String) := do
  let files := project.sources s.tree s.working
  match i.namedFile with
  | some file => return (files, ← moduleName s project.root file)
  | none =>
    if i.readsInput project s.interactive then
      match String.fromUTF8? s.input with
      | some text => return (Sources.layered (.ofList [(inputModule, text)]) files, inputModule)
      | none => throw (.unreadableInput .notText)
    else
      match project.main with
      | some main => return (files, main)
      | none => throw .nothingToLoad

/-- Loads the module of an invocation. -/
def Invocation.load (i : Invocation) (s : Surroundings) : Except Complaint (Program × ModuleId) := do
  let project ← (i.project s).mapError .manifest
  let (sources, name) ← i.sources s project
  match (Program.new sources project.policy .prelude).load name with
  | (.ok id, p) => return (p, id)
  | (.error e, _) => throw (.load e)

/-- Loads a module and reports how large it is. -/
def check (i : Invocation) (s : Surroundings) : Except Complaint String := do
  let (p, id) ← i.load s
  if p.faultCount > 0 then
    throw (.faultyCheck (faultTexts p))
  match p.modules[id]? with
  | some m =>
    return m.path.render ++ ": " ++ toString p.modules.size ++ " module(s), " ++
      toString m.exports.entries.length ++ " export(s)\n"
  | none => return ""

/-- The line that reports a result. -/
def resultLine (result : String × Value) : String :=
  result.1 ++ " = " ++ result.2.render ++ "\n"

/-- Runs the entry points of a module and reports their results. Arguments are read before the module. -/
def run (i : Invocation) (s : Surroundings) (functions arguments : List String) : Except Complaint String := do
  let args ← (arguments.mapM EntryArgument.parse).mapError .runtime
  let (p, id) ← i.load s
  if p.faultCount > 0 then
    throw (.faultyRun (faultTexts p))
  let entry := if functions.isEmpty then Entry.main else Entry.functions functions
  match (entry.run p Query.defaultFuel id args).run .new with
  | .ok results _ => return String.join (results.map resultLine)
  | .error (.error e) _ => throw (.runtime e)
  | .error .outOfFuel _ => throw .endless

/-- Does what an invocation asks for. -/
def Invocation.perform (i : Invocation) (s : Surroundings) : Except Complaint String :=
  match i.task with
  | .check => check i s
  | .run functions arguments => run i s functions arguments

/-- The version that the command reports. -/
def version : String := "kcl 0.1.0"

/-- The report of a command line. -/
def report (words : List String) (s : Surroundings) : Report :=
  match Invocation.parse words with
  | .error .usage => ⟨"", some .usage⟩
  | .error .version => ⟨version ++ "\n", none⟩
  | .error .help => ⟨usage ++ "\n", none⟩
  | .ok invocation =>
    match invocation.perform s with
    | .ok output => ⟨output, none⟩
    | .error complaint => ⟨"", some complaint⟩

end PipeLang.Command
