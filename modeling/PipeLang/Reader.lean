import PipeLang.Reader.Grammar
import PipeLang.Token.Scan

/-!
# Reading modules and expressions

A module is read statement by statement. A refused statement is reported, and reading goes on at the next
line, so that one reading finds the errors of many statements.
-/

namespace PipeLang

namespace Reader

/-- The cursor at the first token that opens a line, or at the end. -/
def skipToLine (readTo : Nat) : List Token → Cursor
  | [] => ⟨[], readTo⟩
  | t :: rest => if t.isFinish || t.opensLine then ⟨t :: rest, readTo⟩ else skipToLine t.span.stop rest

/-- Where reading goes on after a refusal: behind the next token, at the start of a line. -/
def recover (c : Cursor) : Cursor :=
  if c.atEnd then c else
    let behind := c.advance
    skipToLine behind.readTo behind.rest

/-- The statements and the errors found in at most `limit` statements, refusals and semicolons. -/
def moduleParts (depth : Nat) : Nat → Cursor → List Statement × List SyntaxError
  | 0, _ => ([], [])
  | limit + 1, c =>
    if c.atEnd then
      ([], [])
    else if c.isAt .semicolon then
      moduleParts depth limit c.advance
    else
      match (Form.statement.read depth).run c with
      | .ok (first, behind) =>
        let (statements, errors) := moduleParts depth limit behind
        (first :: statements, errors)
      | .error refusal =>
        let (statements, errors) := moduleParts depth limit (recover refusal.cursor)
        (statements, refusal.error :: errors)

end Reader

namespace Module

/-- The module that a list of tokens spells, or every error in it. -/
def ofTokens (length : Nat) (tokens : List Token) : Except (List SyntaxError) Module :=
  match Reader.moduleParts (Form.depthFor tokens.length) (tokens.length + 1) ⟨tokens, 0⟩ with
  | (statements, []) => .ok ⟨statements, ⟨0, length⟩⟩
  | (_, errors) => .error errors

/-- The module that a text spells, or every error in it. -/
def parse (source : String) : Except (List SyntaxError) Module := do
  ofTokens source.utf8ByteSize (← Token.scan source)

end Module

namespace Expr

/-- The expression that a list of tokens spells, up to its end. -/
def ofTokens (tokens : List Token) : Except SyntaxError Expr :=
  match (Form.expression.read (Form.depthFor tokens.length)).run ⟨tokens, 0⟩ with
  | .ok (e, c) => if c.atEnd then .ok e else .error ⟨.trailingInput, c.next.span⟩
  | .error refusal => .error refusal.error

/-- The expression that a text spells, or what is wrong with it. -/
def parse (source : String) : Except (List SyntaxError) Expr := do
  (ofTokens (← Token.scan source)).mapError fun e => [e]

end Expr

end PipeLang
