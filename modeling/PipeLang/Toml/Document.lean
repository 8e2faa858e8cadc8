import PipeLang.Toml.Scalar

/-!
# TOML documents

A document is a sequence of statements, each at the start of a line: a key with a value, a header that opens
a table, or a header in double brackets that adds a table to an array. Keys are found below the table that
was opened last. Values nest to a bounded depth, and keys have a bounded number of parts.
-/

namespace PipeLang.Toml

/-- A statement of a document. -/
inductive Statement where
  | empty
  | define (key : String × List String) (value : Toml)
  | openTable (key : String × List String)
  | pushTable (key : String × List String)

namespace Reading

/-- Arrays and tables in braces stand in at most this many others. -/
def depthLimit : Nat := 79

/-- Characters that separate within a line. -/
def blanks : Reading Unit := do
  let _ ← takeWhile isBlank

/-- A comment, up to the end of its line. -/
def comment : Reading Unit := do
  word ['#']
  let _ ← takeWhile isPlain

/-- Reads as often as it succeeds and takes something, at most `count` times. -/
def many {α : Type} (item : Reading α) : Nat → Reading (List α)
  | 0 => return []
  | count + 1 => do
    match ← perhaps item with
    | some x => return x :: (← many item count)
    | none => return []

/-- As many as the text can hold. -/
def all {α : Type} (item : Reading α) : Reading (List α) := do
  many item (← get).length

/-- Blanks, ends of lines and comments. -/
def gap : Reading Unit := do
  let _ ← all (either (do let _ ← char isBlank) (either lineEnd (do comment; lineEnd)))

/-- Items with commas between them; there may be none. -/
def separated {α : Type} (item : Reading α) : Reading (List α) := do
  match ← perhaps item with
  | none => return []
  | some first =>
    return first :: (← all do
      word [',']
      item)

/-- Whether a character may stand in a key without quotes. -/
def isKeyChar (c : Char) : Bool :=
  c.isAlphanum || c == '_' || c == '-'

/-- One part of a key. -/
def keyPart : Reading String := do
  blanks
  let part ← either basicString <| either literalString do
    let first ← char isKeyChar
    return String.ofList (first :: (← takeWhile isKeyChar))
  blanks
  return part

/-- A key: parts with dots between them. -/
def key : Reading (String × List String) := do
  let first ← keyPart
  let rest ← all do
    word ['.']
    keyPart
  if rest.length < depthLimit then return (first, rest) else refuse

/-- A key and the value that it gets. -/
def pair (value : Reading Toml) : Reading ((String × List String) × Toml) := do
  let names ← key
  word ['=']
  blanks
  return (names, ← value)

/-- An array. -/
def arrayOf (value : Reading Toml) : Reading Toml := do
  word ['[']
  let items ← separated do
    gap
    let item ← value
    gap
    return item
  if !items.isEmpty then
    let _ ← perhaps (word [','])
  gap
  word [']']
  return .array false items

/-- A table in braces. -/
def tableOf (value : Reading Toml) : Reading Toml := do
  word ['\x7b']
  let pairs ← separated do
    let read ← pair value
    blanks
    return read
  blanks
  word ['\x7d']
  let entries : Option Entries :=
    pairs.foldlM (fun es ((first, rest), v) => Entries.define true v first rest es) []
  match entries with
  | some es => return .table .closed es
  | none => refuse

/-- A value in which others nest to a depth. -/
def value : Nat → Reading Toml
  | 0 => scalar
  | depth + 1 => either scalar (either (arrayOf (value depth)) (tableOf (value depth)))

/-- What may stand behind a statement on its line, and the end of the line or of the text. -/
def trailing : Reading Unit := do
  blanks
  let _ ← perhaps comment
  match ← get with
  | [] => return
  | _ => lineEnd

/-- A header between brackets. -/
def header (opening closing : List Char) : Reading (String × List String) := do
  word opening
  let names ← key
  word closing
  trailing
  return names

/-- A statement, up to the end of its line. -/
def statement : Reading Statement := do
  blanks
  match ← get with
  | [] => return .empty
  | '[' :: '[' :: _ => return .pushTable (← header ['[', '['] [']', ']'])
  | '[' :: _ => return .openTable (← header ['['] [']'])
  | '#' :: _ | '\r' :: _ | '\n' :: _ => do
    trailing
    return .empty
  | _ =>
    let (names, v) ← pair (value depthLimit)
    trailing
    return .define names v

end Reading

/-- The keys in front of the last one, and the last one. -/
def splitLast (first : String) : List String → List String × String
  | [] => ([], first)
  | next :: rest =>
    let (before, last) := splitLast next rest
    (first :: before, last)

/-- A document as read so far: its table, and the keys of the table that was opened last. -/
structure Document where
  root : Entries
  opened : List String

namespace Document

/-- What a statement does to a document; nothing if it contradicts an earlier one. -/
def apply (d : Document) : Statement → Option Document
  | .empty => some d
  | .define (first, rest) v => do
    return { d with root := ← d.root.within (Entries.define true v first rest) d.opened }
  | .openTable (first, rest) => do
    let (before, last) := splitLast first rest
    return ⟨← d.root.within (Entries.openTable last) before, first :: rest⟩
  | .pushTable (first, rest) => do
    let (before, last) := splitLast first rest
    return ⟨← d.root.within (Entries.pushTable last) before, first :: rest⟩

/-- Reads the statements of a text, at most `count`; the answer is what is left of it if a statement cannot be
read. -/
def read : Nat → Document → List Char → Except (List Char) Document
  | _, d, [] => .ok d
  | 0, _, cs => .error cs
  | count + 1, d, cs =>
    match Reading.statement cs with
    | none => .error cs
    | some (s, rest) =>
      match d.apply s with
      | none => .error cs
      | some d => read count d rest

end Document

/-- The number of the line on which the last characters of a text begin. -/
def lineOf (whole rest : List Char) : Nat :=
  (whole.take (whole.length - rest.length)).count '\n' + 1

/-- The entries of the document that a text spells, or the number of a line that cannot be read. A byte order
mark at its start counts for nothing. -/
def parse (text : String) : Except Nat Entries :=
  let cs := text.toList
  let body := if cs.head? = some '\uFEFF' then cs.tail else cs
  match Document.read (body.length + 1) ⟨[], []⟩ body with
  | .ok d => .ok d.root
  | .error rest => .error (lineOf body rest)

end PipeLang.Toml
