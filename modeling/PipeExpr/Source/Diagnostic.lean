import PipeExpr.Source.Position

/-!
# Diagnostics

What is wrong with a source text. A `Diagnostic` is the record that a caller sees: a stable code, a
message, a place, and the offending and expected text where there are any. Reading a source can give
several of them; `Diagnostics` is that list, in the order of discovery.
-/

namespace PipeExpr

/-- The codes of lexical and syntactic errors. -/
inductive ErrorCode where
  | invalidCharacter | unterminatedString | invalidNumber | invalidEscape
  | unexpectedToken | unexpectedEof | expectedToken
  | unclosedParen | unclosedBracket | unclosedBrace
  | trailingComma | emptyElement
  | invalidProperty | invalidCallTarget | invalidObjectKey
  | emptyPipe | emptyPipeWithAlias
  | aliasInSubexpression | duplicateAlias | invalidAlias | pipeInSubexpression
  | featureDisabled | maxDepthExceeded | emptyExpression
  deriving DecidableEq, Repr, Inhabited

namespace ErrorCode

/-- All codes: the lexical ones first, then the syntactic ones. -/
def all : List ErrorCode :=
  [invalidCharacter, unterminatedString, invalidNumber, invalidEscape,
   unexpectedToken, unexpectedEof, expectedToken,
   unclosedParen, unclosedBracket, unclosedBrace,
   trailingComma, emptyElement,
   invalidProperty, invalidCallTarget, invalidObjectKey,
   emptyPipe, emptyPipeWithAlias,
   aliasInSubexpression, duplicateAlias, invalidAlias, pipeInSubexpression,
   featureDisabled, maxDepthExceeded, emptyExpression]

/-- The text of a code. -/
def text : ErrorCode → String
  | invalidCharacter => "invalid-character"
  | unterminatedString => "unterminated-string"
  | invalidNumber => "invalid-number"
  | invalidEscape => "invalid-escape"
  | unexpectedToken => "unexpected-token"
  | unexpectedEof => "unexpected-eof"
  | expectedToken => "expected-token"
  | unclosedParen => "unclosed-paren"
  | unclosedBracket => "unclosed-bracket"
  | unclosedBrace => "unclosed-brace"
  | trailingComma => "trailing-comma"
  | emptyElement => "empty-element"
  | invalidProperty => "invalid-property"
  | invalidCallTarget => "invalid-call-target"
  | invalidObjectKey => "invalid-object-key"
  | emptyPipe => "empty-pipe"
  | emptyPipeWithAlias => "empty-pipe-with-alias"
  | aliasInSubexpression => "alias-in-subexpression"
  | duplicateAlias => "duplicate-alias"
  | invalidAlias => "invalid-alias"
  | pipeInSubexpression => "pipe-in-subexpression"
  | featureDisabled => "feature-disabled"
  | maxDepthExceeded => "max-depth-exceeded"
  | emptyExpression => "empty-expression"

/-- The code with a given text. -/
def ofText? (s : String) : Option ErrorCode := all.find? (·.text = s)

/-- Lexical errors stop the scanning of a source. -/
def isLexical : ErrorCode → Bool
  | invalidCharacter | unterminatedString | invalidNumber | invalidEscape => true
  | _ => false

end ErrorCode

/-- One error in a source text. -/
structure Diagnostic where
  /-- The kind of error. -/
  code : ErrorCode
  /-- What is wrong, in words. -/
  message : String
  /-- Where it is. -/
  position : Position
  /-- The offending text, if there is one. -/
  token : Option String := none
  /-- What was looked for, if that is known. -/
  expected : Option String := none
  deriving DecidableEq, Repr, Inhabited

/-- A diagnostic in one line. -/
def Diagnostic.display (d : Diagnostic) : String :=
  d.code.text ++ " at " ++ d.position.text ++ ": " ++ d.message

/-- All errors found in one reading, in the order of discovery. -/
abbrev Diagnostics := List Diagnostic

namespace Diagnostics

/-- The errors as text: one alone in a line, several under a heading. -/
def display : Diagnostics → String
  | [] => "no parse errors"
  | [d] => d.display
  | ds =>
    ds.foldl (fun out d => out ++ "\n  " ++ d.display) (toString ds.length ++ " parse errors:")

/-- Whether an error with a given code is among them. -/
def hasCode (ds : Diagnostics) (code : ErrorCode) : Bool := ds.any (·.code == code)

/-- How many of them are lexical. -/
def lexicalCount (ds : Diagnostics) : Nat := ds.countP (·.code.isLexical)

end Diagnostics

end PipeExpr
