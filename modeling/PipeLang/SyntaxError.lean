import PipeLang.Token

/-!
# Syntax errors

Every way in which a text fails to be a module or an expression, with the place where it fails.
-/

namespace PipeLang

/-- Why a text is refused. -/
inductive SyntaxError.Cause where
  | unterminatedComment
  | unterminatedText
  | strayCharacter (c : Char)
  | expectedMark (mark : Mark)
  | expectedImportPath
  | expectedAlias
  | expectedImportItem
  | expectedBindingName
  | expectedTag
  | expectedLoopVariable
  | expectedPathSegment
  | expectedParameter
  | expectedType
  | expectedExpression
  | expectedStatementEnd
  | trailingInput
  /-- Nesting beyond the depth that the length of the text allows; no text reaches it. -/
  | nestingTooDeep
  deriving Repr

/-- A refused text, with the place. -/
structure SyntaxError where
  cause : SyntaxError.Cause
  span : Span
  deriving Repr

namespace SyntaxError

/-- The wording of a cause. -/
def Cause.message : Cause → String
  | unterminatedComment => "Unterminated block comment"
  | unterminatedText => "Unterminated string literal"
  | strayCharacter c => "Unexpected character `" ++ c.toString ++ "`"
  | expectedMark mark => "Expected `" ++ mark.spelling ++ "`"
  | expectedImportPath => "Expected import path string"
  | expectedAlias => "Expected alias after `as`"
  | expectedImportItem => "Expected imported name, `self` or `*`"
  | expectedBindingName => "Expected binding name"
  | expectedTag => "Expected tag name after `as`"
  | expectedLoopVariable => "Expected loop variable after `as`"
  | expectedPathSegment => "Expected name after `::`"
  | expectedParameter => "Expected parameter name"
  | expectedType => "Expected type"
  | expectedExpression => "Unexpected token in expression"
  | expectedStatementEnd => "Expected a new line or `;` after statement"
  | trailingInput => "Unexpected input after expression"
  | nestingTooDeep => "Nesting is too deep"

/-- Advice on a cause. -/
def Cause.help? : Cause → Option String
  | expectedStatementEnd => some "put each statement on its own line"
  | _ => none

/-- The wording of an error. -/
def message (e : SyntaxError) : String :=
  e.cause.message

/-- Advice on an error. -/
def help? (e : SyntaxError) : Option String :=
  e.cause.help?

/-- The wording of the first of several errors. -/
def firstMessage : List SyntaxError → String
  | [] => "unknown syntax error"
  | e :: _ => e.message

end SyntaxError

end PipeLang
