import PipeLang.Files.Path

/-!
# Command lines

What the words of a command line ask for: `check [FILE]` or `run [FILE]`, with `--root DIR` on either side of
the subcommand, and for `run` any number of `--function NAME` and `--arg VALUE`. Words are read from left to
right, and the first that does not fit decides. The value of an option stands behind `=` or is the next word; a word that
begins with a hyphen is a value for `--arg` alone, except that a single hyphen is a value everywhere.
-/

namespace PipeLang.Command

/-- What to do with a module. -/
inductive Task where
  | check
  | run (functions arguments : List String)
  deriving DecidableEq, Repr

/-- What a command line asks for. -/
structure Invocation where
  root : Option Files.Path
  file : Option Files.Path
  task : Task
  deriving DecidableEq, Repr

/-- Why a command line asks for no work. -/
inductive Refusal where
  /-- It does not have the form of one. -/
  | usage
  | version
  | help
  deriving DecidableEq, Repr

/-- The form of a word. -/
inductive Word where
  | value
  /-- Two hyphens; every word behind them is a value. -/
  | separator
  | long (name : String) (attached : Option String)
  | short (flag : Char)

/-- The form of a word. -/
def Word.ofString (word : String) : Word :=
  match word.toList with
  | ['-', '-'] => .separator
  | '-' :: '-' :: body =>
    match Text.splitAtFirst ['='] body with
    | some (name, attached) => .long (String.ofList name) (some (String.ofList attached))
    | none => .long (String.ofList body) none
  | '-' :: flag :: _ => .short flag
  | _ => .value

/-- Whether a word can be the value of an option. -/
def Word.isValueOf (option word : String) : Bool :=
  match Word.ofString word with
  | .value => true
  | _ => option == "arg"

/-- The values that have been read. -/
structure Line where
  root : Option String
  file : Option String
  functions : List String
  arguments : List String

namespace Line

/-- A line of which nothing has been read. -/
def empty : Line := ⟨none, none, [], []⟩

/-- Gives an option a value. A root is given once, and is not empty. -/
def give (line : Line) (option value : String) : Except Refusal Line :=
  match option with
  | "root" =>
    if line.root.isSome || value.isEmpty then .error .usage else .ok { line with root := some value }
  | "function" => .ok { line with functions := line.functions ++ [value] }
  | "arg" => .ok { line with arguments := line.arguments ++ [value] }
  | _ => .error .usage

/-- Takes a word as the file, of which there is one, with a name. -/
def takeFile (line : Line) (word : String) : Except Refusal Line :=
  if line.file.isSome || word.isEmpty then .error .usage else .ok { line with file := some word }

/-- Reads the words behind a subcommand with some options; one of them may still wait for its value. -/
def read (options : List String) (line : Line) : Option String → List String → Except Refusal Line
  | none, [] => .ok line
  | some _, [] => .error .usage
  | some option, word :: rest =>
    if Word.isValueOf option word then do
      let line ← line.give option word
      line.read options none rest
    else
      .error .usage
  | none, word :: rest =>
    match Word.ofString word with
    | .value => do
      let line ← line.takeFile word
      line.read options none rest
    | .separator => rest.foldlM takeFile line
    | .short flag => .error (if flag = 'h' then .help else .usage)
    | .long name attached =>
      if name = "help" && attached.isNone then
        .error .help
      else if !options.contains name then
        .error .usage
      else
        match attached with
        | some value => do
          let line ← line.give name value
          line.read options none rest
        | none => line.read options (some name) rest

end Line

/-- What a subcommand and the words behind it ask for; the nearest root counts. -/
def Invocation.ofSubcommand (root : Option String) (name : String) (words : List String) :
    Except Refusal Invocation :=
  match name with
  | "check" => do
    let line ← Line.empty.read ["root"] none words
    return ⟨(line.root <|> root).map .ofString, line.file.map .ofString, .check⟩
  | "run" => do
    let line ← Line.empty.read ["root", "function", "arg"] none words
    return ⟨(line.root <|> root).map .ofString, line.file.map .ofString, .run line.functions line.arguments⟩
  | "help" =>
    match words with
    | [] | ["check"] | ["run"] | ["help"] => .error .help
    | _ => .error .usage
  | _ => .error .usage

/-- Reads the words of a command line up to its subcommand; the root may have been given, or still wait for its
value. -/
def Invocation.read (line : Line) : Bool → List String → Except Refusal Invocation
  | _, [] => .error .usage
  | true, word :: rest =>
    if Word.isValueOf "root" word then do
      let line ← line.give "root" word
      read line false rest
    else
      .error .usage
  | false, word :: rest =>
    match Word.ofString word with
    | .value => ofSubcommand line.root word rest
    | .separator => .error .usage
    | .short flag => .error (if flag = 'h' then .help else if flag = 'V' then .version else .usage)
    | .long "help" none => .error .help
    | .long "version" none => .error .version
    | .long "root" none => read line true rest
    | .long "root" (some value) => do
      let line ← line.give "root" value
      read line false rest
    | .long .. => .error .usage

/-- What the words of a command line ask for. -/
def Invocation.parse (words : List String) : Except Refusal Invocation :=
  Invocation.read .empty false words

end PipeLang.Command
