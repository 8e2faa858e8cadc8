import PipeLang.Span

/-!
# Tokens

A token is a mark with a fixed spelling, a name, a literal, or the end of the text. Marks are listed in the
order in which they are tried, so that a longer symbol comes before any symbol it begins with.
-/

namespace PipeLang

/-- A token whose spelling is fixed: a keyword or a symbol. -/
inductive Mark where
  | kwImport | kwExport | kwFrom | kwAs | kwSelf | kwFor | kwIf | kwElse | kwTrue | kwFalse
  | pipe | arrow | fatArrow | andAnd | orOr | bangEq | eqEq | ltEq | gtEq | dotDotEq | dotDot | colonColon
  | bang | eq | lt | gt | plus | minus | star | slash | percent | comma | colon | semicolon
  | leftParen | rightParen | leftBrace | rightBrace | leftBracket | rightBracket
  deriving DecidableEq, Repr

namespace Mark

/-- The spelling of a mark. -/
def spelling : Mark → String
  | kwImport => "import" | kwExport => "export" | kwFrom => "from" | kwAs => "as" | kwSelf => "self"
  | kwFor => "for" | kwIf => "if" | kwElse => "else" | kwTrue => "true" | kwFalse => "false"
  | pipe => "|>" | arrow => "->" | fatArrow => "=>" | andAnd => "&&" | orOr => "||"
  | bangEq => "!=" | eqEq => "==" | ltEq => "<=" | gtEq => ">="
  | dotDotEq => "..=" | dotDot => ".." | colonColon => "::"
  | bang => "!" | eq => "=" | lt => "<" | gt => ">" | plus => "+" | minus => "-" | star => "*"
  | slash => "/" | percent => "%" | comma => "," | colon => ":" | semicolon => ";"
  | leftParen => "(" | rightParen => ")" | leftBrace => "\x7b" | rightBrace => "\x7d"
  | leftBracket => "[" | rightBracket => "]"

/-- The marks with the shape of a name. -/
def keywords : List Mark :=
  [kwImport, kwExport, kwFrom, kwAs, kwSelf, kwFor, kwIf, kwElse, kwTrue, kwFalse]

/-- All other marks, the longer before the shorter. -/
def symbols : List Mark :=
  [pipe, arrow, fatArrow, andAnd, orOr, bangEq, eqEq, ltEq, gtEq, dotDotEq, dotDot, colonColon,
    bang, eq, lt, gt, plus, minus, star, slash, percent, comma, colon, semicolon,
    leftParen, rightParen, leftBrace, rightBrace, leftBracket, rightBracket]

end Mark

/-- What a token is. -/
inductive Token.Kind where
  | identifier (name : String)
  | number (value : Float)
  /-- A string literal, its escapes decoded. -/
  | text (value : String)
  | mark (mark : Mark)
  /-- The end of the source text. -/
  | finish
  deriving Repr

/-- A token in its place. -/
structure Token where
  kind : Token.Kind
  span : Span
  /-- No token comes before this one on its line. -/
  opensLine : Bool
  deriving Repr

namespace Token

/-- Whether a token is the given mark. -/
def isMark (t : Token) (m : Mark) : Bool :=
  match t.kind with
  | .mark n => n = m
  | _ => false

/-- Whether a token is the end of the text. -/
def isFinish (t : Token) : Bool :=
  match t.kind with
  | .finish => true
  | _ => false

/-- The name that an identifier token carries. -/
def name? (t : Token) : Option String :=
  match t.kind with
  | .identifier name => some name
  | _ => none

end Token

end PipeLang
