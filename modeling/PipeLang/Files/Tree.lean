import PipeLang.Files.Path

/-!
# File trees

A tree of directories and files, kept in memory. A place in it is the list of names that lead there from the
root. A path is followed segment by segment, and every place that it passes has to be a directory; a tree
has no links, so the place that a path leads to is the only spelling-free name of what stands there.
-/

namespace PipeLang.Files

/-- A place in a tree: the names that lead to it from the root. -/
abbrev Place := List String

/-- The absolute path of a place. -/
def Place.render : Place → String
  | [] => "/"
  | names => String.join (names.map ("/" ++ ·))

/-- What stands at a place. -/
inductive Node where
  | directory
  | file (content : ByteArray)

/-- Whether a directory stands at a place. -/
def Node.isDirectory : Node → Bool
  | directory => true
  | file _ => false

/-- Why a path cannot be followed or read. -/
inductive Trouble where
  | missing
  | notADirectory
  | isADirectory
  | nameTooLong
  | zeroCharacter
  | notText
  deriving DecidableEq, Repr

/-- The wording of a trouble. -/
def Trouble.message : Trouble → String
  | missing => "No such file or directory (os error 2)"
  | notADirectory => "Not a directory (os error 20)"
  | isADirectory => "Is a directory (os error 21)"
  | nameTooLong => "File name too long (os error 36)"
  | zeroCharacter => "file name contained an unexpected NUL byte"
  | notText => "stream did not contain valid UTF-8"

/-- A file tree, the latest entry of a place first. What leads to an entry is a directory. -/
structure Tree where
  entries : List (Place × Node)

namespace Tree

/-- A tree with nothing in it. -/
def empty : Tree := ⟨[]⟩

/-- Puts a file or a directory at a place. -/
def insert (t : Tree) (place : Place) (node : Node) : Tree :=
  ⟨(place, node) :: t.entries⟩

/-- What stands at a place. -/
def node? (t : Tree) (place : Place) : Option Node :=
  match t.entries.lookup place with
  | some node => some node
  | none => if place = [] || t.entries.any (fun e => place.isPrefixOf e.1) then some .directory else none

/-- The greatest number of bytes in a name. -/
def nameLimit : Nat := 255

/-- Goes from a directory to the place that a segment names. -/
def step (t : Tree) (place : Place) (segment : List Char) : Except Trouble Place :=
  match t.node? place with
  | none => .error .missing
  | some (.file _) => .error .notADirectory
  | some .directory =>
    let name := String.ofList segment
    if Path.isIdle segment then
      .ok place
    else if segment = ['.', '.'] then
      .ok place.dropLast
    else if name.utf8ByteSize > nameLimit then
      .error .nameTooLong
    else if (t.node? (place ++ [name])).isSome then
      .ok (place ++ [name])
    else
      .error .missing

/-- The place that a path leads to from a working directory. -/
def locate (t : Tree) (working : Place) (p : Path) : Except Trouble Place :=
  if p.chars.contains '\x00' then
    .error .zeroCharacter
  else if p.chars.isEmpty then
    .error .missing
  else
    p.segments.foldlM t.step (if p.isAbsolute then [] else working)

/-- Whether a path leads anywhere. -/
def reaches (t : Tree) (working : Place) (p : Path) : Bool :=
  (t.locate working p).toBool

/-- Whether a path leads to a directory. -/
def isDirectory (t : Tree) (working : Place) (p : Path) : Bool :=
  match t.locate working p with
  | .ok place => (t.node? place).any Node.isDirectory
  | .error _ => false

/-- The text of the file that a path leads to. -/
def readText (t : Tree) (working : Place) (p : Path) : Except Trouble String := do
  match t.node? (← t.locate working p) with
  | some (.file content) =>
    match String.fromUTF8? content with
    | some text => return text
    | none => throw .notText
  | some .directory => throw .isADirectory
  | none => throw .missing

end Tree

end PipeLang.Files
