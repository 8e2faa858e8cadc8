import PipeLang.Expr
import PipeLang.SyntaxError

/-!
# Cursors and readers

A reader takes tokens off the front of what is unread and yields a piece of syntax, or refuses at a token.
The last unread token is the end of the text, which no reader takes.
-/

namespace PipeLang

/-- The unread tokens, and where the last read token ends. -/
structure Cursor where
  rest : List Token
  readTo : Nat

namespace Cursor

/-- The next unread token. -/
def next (c : Cursor) : Token :=
  match c.rest with
  | t :: _ => t
  | [] => ⟨.finish, ⟨c.readTo, c.readTo⟩, true⟩

/-- The unread token after the next one. -/
def second? (c : Cursor) : Option Token :=
  c.rest[1]?

/-- The cursor behind the next token. -/
def advance (c : Cursor) : Cursor :=
  match c.rest with
  | t :: rest => ⟨rest, t.span.stop⟩
  | [] => c

/-- Whether nothing is unread but the end of the text. -/
def atEnd (c : Cursor) : Bool :=
  c.next.isFinish

/-- Whether the next token is a mark. -/
def isAt (c : Cursor) (m : Mark) : Bool :=
  c.next.isMark m

/-- Whether a name and then `=` come next. -/
def startsBinding (c : Cursor) : Bool :=
  c.next.name?.isSome && c.second?.any fun t => t.isMark .eq

end Cursor

/-- Why reading stopped, and what was unread then; the next token is the one refused. -/
structure Refusal where
  cause : SyntaxError.Cause
  cursor : Cursor

/-- A refusal as an error at the refused token. -/
def Refusal.error (r : Refusal) : SyntaxError :=
  ⟨r.cause, r.cursor.next.span⟩

/-- Reads a piece of syntax off the unread tokens. -/
abbrev Reader (α : Type) := StateT Cursor (Except Refusal) α

namespace Reader

/-- Refuses the next token. -/
def refuse {α : Type} (cause : SyntaxError.Cause) : Reader α := do
  throw ⟨cause, ← get⟩

/-- Whether the next token is a mark. -/
def isAt (m : Mark) : Reader Bool :=
  return (← get).isAt m

/-- Takes the next token. -/
def take : Reader Token := do
  let cursor ← get
  set cursor.advance
  return cursor.next

/-- Takes the next token if it is a mark; says whether it was. -/
def takeIf (m : Mark) : Reader Bool := do
  if ← isAt m then
    let _ ← take
    return true
  else
    return false

/-- Takes a mark that must come next. -/
def expect (m : Mark) : Reader Token := do
  if ← isAt m then take else refuse (.expectedMark m)

/-- Takes a name that must come next. -/
def ident (otherwise : SyntaxError.Cause) : Reader Ident := do
  match (← get).next.name? with
  | some name => return ⟨name, (← take).span⟩
  | none => refuse otherwise

/-- Takes a string literal that must come next. -/
def text (otherwise : SyntaxError.Cause) : Reader (String × Span) := do
  match (← get).next.kind with
  | .text value => return (value, (← take).span)
  | _ => refuse otherwise

/-- Where the next token starts. -/
def here : Reader Nat :=
  return (← get).next.span.start

/-- Where the last read token ends. -/
def readTo : Reader Nat :=
  return (← get).readTo

end Reader

end PipeLang
