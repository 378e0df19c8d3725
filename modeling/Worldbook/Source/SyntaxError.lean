import Worldbook.Source.Statement

/-!
# Syntax errors

One cause and the place where it was found. The first error of a text ends its reading.
-/

namespace Worldbook

inductive SyntaxError.Cause where
  | expectedChar (c : Char)
  | unexpectedChar (c : Char)
  | unexpectedEquals
  | expectedValue
  | expectedName
  | expectedObjectKey
  | unclosed (opening : Char)
  -- numbers and strings
  | expectedNumber
  | expectedExponent
  | invalidNumber (text : String)
  | unterminatedString
  | unterminatedTripleString
  | unterminatedEscape
  | expectedHexDigits
  | invalidCodePoint (hex : String)
  -- blocks
  | unclosedBlock
  | unexpectedEnd
  | expectedBlockName
  | notABlockName (word : String)
  | operatorInBlockHeader (operator : String)
  -- lines
  | expectedKeyword
  | expectedStatement
  | unexpectedOperator (operator : String)
  | unexpectedSecondArrow
  | expectedNumberAfter (operator : String)
  | expectedItems
  | expectedMutationTarget
  | expectedMutationId (target : String)
  | expectedChange
  | inputAfterMutation
  | expectedOrigin
  | expectedVia
  | expectedViaKind
  | expectedViaDirection
  | inputAfterOrigin
  | relUsage (key : String)
  | expectedRelTarget
  | inputAfterComparison
  | axisUsage
  | relationshipKindUsage
  /-- The reader ran out of its step bound, which it is given so that this never happens. -/
  | exhausted
deriving DecidableEq

structure SyntaxError where
  cause : SyntaxError.Cause
  span : Span
deriving DecidableEq

namespace SyntaxError

def Cause.message : Cause → String
  | expectedChar c => "Expected '" ++ c.toString ++ "'"
  | unexpectedChar c => "Unexpected character '" ++ c.toString ++ "'"
  | unexpectedEquals => "Unexpected '='; did you mean '=='?"
  | expectedValue => "Expected a value"
  | expectedName => "Expected an identifier"
  | expectedObjectKey => "Expected an object key"
  | unclosed opening => "Unclosed '" ++ opening.toString ++ "'"
  | expectedNumber => "Expected a number"
  | expectedExponent => "Expected exponent digits"
  | invalidNumber text => "Invalid number: " ++ text
  | unterminatedString => "Unterminated string"
  | unterminatedTripleString => "Unterminated triple-quoted string"
  | unterminatedEscape => "Unterminated escape sequence"
  | expectedHexDigits => "Expected 4 hex digits in \\uXXXX"
  | invalidCodePoint hex => "Invalid unicode code point: \\u" ++ hex
  | unclosedBlock => "Unclosed block; expected 'end'"
  | unexpectedEnd => "Unexpected 'end'"
  | expectedBlockName => "Expected a block name before 'do'"
  | notABlockName word => "'" ++ word ++ "' cannot name a block"
  | operatorInBlockHeader operator => "Unexpected '" ++ operator ++ "' in block header"
  | expectedKeyword => "Expected a keyword at the start of a statement"
  | expectedStatement => "Expected a statement"
  | unexpectedOperator operator => "Unexpected '" ++ operator ++ "'"
  | unexpectedSecondArrow => "Unexpected second '->'"
  | expectedNumberAfter operator => "Expected a number after '" ++ operator ++ "'"
  | expectedItems => "Expected values after 'in'"
  | expectedMutationTarget => "Expected a mutation target after 'mutate'"
  | expectedMutationId target => "Expected an id after 'mutate " ++ target ++ "'"
  | expectedChange => "Expected '+=' or '-='"
  | inputAfterMutation => "Unexpected input after mutation amount"
  | expectedOrigin => "Expected a source after 'from'"
  | expectedVia => "Expected 'via' after the 'from' source"
  | expectedViaKind => "Expected a relationship kind after 'via'"
  | expectedViaDirection => "Expected a direction after the relationship kind"
  | inputAfterOrigin => "Unexpected input after 'from' statement"
  | relUsage key => "Expected '" ++ key ++ " [label] kind source -> target'"
  | expectedRelTarget => "Expected a target after '->'"
  | inputAfterComparison => "Unexpected input after comparison"
  | axisUsage => "Expected 'axis id [\"Name\"] low -> high [\"description\"]'"
  | relationshipKindUsage =>
    "Expected 'relationship_kind kind source -> target [\"description\"]'"
  | exhausted => "The text is nested too deeply"

def message (e : SyntaxError) : String := e.cause.message

end SyntaxError

end Worldbook
