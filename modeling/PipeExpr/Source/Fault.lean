import PipeExpr.Source.Diagnostic
import PipeExpr.Source.Token

/-!
# Causes of errors in a source text

The scanner and the reader of expressions speak of causes: a `Fault` says what went wrong and
carries the text or token concerned. Its code, its wording and the other parts of a diagnostic are
functions of the cause, so each wording stands in one place.
-/

namespace PipeExpr

/-- Constructs that have to be closed. -/
inductive Bracket where
  | paren | square | brace
  /-- The question mark of a conditional, which a colon completes. -/
  | question
  deriving DecidableEq, Repr, Inhabited

namespace Bracket

/-- The symbol that closes a construct. -/
def closing : Bracket → Symbol
  | paren => .rightParen
  | square => .rightBracket
  | brace => .rightBrace
  | question => .colon

/-- The symbol that opens it. -/
def opening : Bracket → Symbol
  | paren => .leftParen
  | square => .leftBracket
  | brace => .leftBrace
  | question => .question

/-- The code of the error that it is never closed. -/
def unclosedCode : Bracket → ErrorCode
  | paren => .unclosedParen
  | square => .unclosedBracket
  | brace => .unclosedBrace
  | question => .expectedToken

end Bracket

/-- The parts of the language that options switch off. -/
inductive Feature where
  | pipes | nullish | chaining
  deriving DecidableEq, Repr

/-- The name of a feature in messages. -/
def Feature.name : Feature → String
  | pipes => "pipe syntax"
  | nullish => "nullish coalescing"
  | chaining => "optional chaining"

/-- What is wrong with a source text. -/
inductive Fault where
  /-- No token starts with this character. -/
  | invalidCharacter (c : Char)
  /-- A single equals sign. -/
  | strayEquals
  | unterminatedString (quote : Char) (raw : Bool)
  /-- A number that is too large for a double. -/
  | numberOutOfRange (lexeme : String)
  /-- Characters cut off as a number that spell none. -/
  | malformedNumber (lexeme : String)
  /-- A backslash in front of a character that is no escape. -/
  | invalidEscape (c : Char)
  /-- Not four hexadecimal digits, or a surrogate without its partner. -/
  | invalidUnicodeEscape
  /-- Something else was expected where a token stands. -/
  | unexpected (token : Token) (expected : String)
  /-- As `unexpected`, with a code of its own unless the source ends there. -/
  | unexpectedAs (code : ErrorCode) (token : Token) (expected : String)
  | neverClosed (bracket : Bracket) (opened : Position)
  /-- An alias inside brackets. -/
  | innerAlias
  /-- A pipe marker inside brackets. -/
  | innerPipe (lexeme : String)
  | trailingComma (bracket : Bracket)
  /-- Nothing between two commas. -/
  | emptyElement
  /-- Nothing between the brackets of an index. -/
  | emptyIndex
  /-- Nothing between parentheses. -/
  | emptyParens
  | invalidCallTarget
  | invalidObjectKey (token : Token)
  /-- A pipe segment without an expression. -/
  | emptyPipe (handler : String)
  /-- A pipe segment with an alias in place of an expression. -/
  | emptyPipeWithAlias (handler : String)
  | duplicateAlias (name : String)
  /-- An alias without the dollar sign. -/
  | invalidAlias (name : String)
  | featureDisabled (feature : Feature) (lexeme : String)
  | maxDepthExceeded (limit : Nat)
  /-- A source without tokens. -/
  | emptyExpression
  deriving Inhabited

namespace Fault

/-- The code for an unexpected token. -/
def unexpectedCode (token : Token) : ErrorCode :=
  if token.kind.isEof then .unexpectedEof else .unexpectedToken

/-- The kind of error that a cause is. -/
def code : Fault → ErrorCode
  | invalidCharacter _ | strayEquals => .invalidCharacter
  | unterminatedString .. => .unterminatedString
  | numberOutOfRange _ | malformedNumber _ => .invalidNumber
  | invalidEscape _ | invalidUnicodeEscape => .invalidEscape
  | unexpected token _ => unexpectedCode token
  | unexpectedAs code token _ => if token.kind.isEof then .unexpectedEof else code
  | neverClosed bracket _ => bracket.unclosedCode
  | innerAlias => .aliasInSubexpression
  | innerPipe _ => .pipeInSubexpression
  | trailingComma _ => .trailingComma
  | emptyElement | emptyIndex => .emptyElement
  | emptyParens => .unexpectedToken
  | invalidCallTarget => .invalidCallTarget
  | invalidObjectKey _ => .invalidObjectKey
  | emptyPipe _ => .emptyPipe
  | emptyPipeWithAlias _ => .emptyPipeWithAlias
  | duplicateAlias _ => .duplicateAlias
  | invalidAlias _ => .invalidAlias
  | featureDisabled .. => .featureDisabled
  | maxDepthExceeded _ => .maxDepthExceeded
  | emptyExpression => .emptyExpression

/-- The wording for an unexpected token. -/
def unexpectedMessage (token : Token) (expected : String) : String :=
  match token.kind with
  | .eof => "unexpected end of input, expected " ++ expected
  | .symbol .plusPlus | .symbol .minusMinus =>
    "'" ++ token.lexeme ++ "' is not a supported operator"
  | kind => "unexpected " ++ kind.describe ++ ", expected " ++ expected

/-- The wording of a cause. -/
def message : Fault → String
  | invalidCharacter c => "invalid character '" ++ Text.quotedChar c ++ "'"
  | strayEquals => "unexpected '=' (did you mean '=='?)"
  | unterminatedString quote raw =>
    "unterminated " ++ (if raw then "raw " else "") ++ "string: missing closing " ++
      String.singleton quote
  | numberOutOfRange lexeme => "number literal '" ++ lexeme ++ "' is out of range"
  | malformedNumber lexeme => "invalid number literal '" ++ lexeme ++ "'"
  | invalidEscape c => "invalid escape sequence '\\" ++ String.singleton c ++ "'"
  | invalidUnicodeEscape => "invalid unicode escape sequence"
  | unexpected token expected | unexpectedAs _ token expected => unexpectedMessage token expected
  | neverClosed bracket opened =>
    "'" ++ bracket.opening.spelling ++ "' opened at " ++ opened.text ++ " is never closed"
  | innerAlias => "'as' aliases are only allowed at the end of a top-level pipe segment"
  | innerPipe _ => "pipes are only allowed at the top level of an expression"
  | trailingComma bracket => "trailing comma before '" ++ bracket.closing.spelling ++ "'"
  | emptyElement => "empty element in list"
  | emptyIndex => "index expression is empty"
  | emptyParens => "empty parentheses"
  | invalidCallTarget => "only a function name can be called"
  | invalidObjectKey token => token.kind.describe ++ " cannot be used as an object key"
  | emptyPipe handler => "pipe segment '" ++ handler ++ "' has no expression"
  | emptyPipeWithAlias handler =>
    "pipe segment '" ++ handler ++ "' has an alias but no expression"
  | duplicateAlias name => "pipe segment is already aliased as '" ++ name ++ "'"
  | invalidAlias name => "alias '" ++ name ++ "' must start with '$'"
  | featureDisabled feature _ => feature.name ++ " is disabled by the parser options"
  | maxDepthExceeded limit => s!"expression nesting exceeds the maximum depth of {limit}"
  | emptyExpression => "expression is empty"

/-- The source text of a token, if it has any. -/
def tokenText (token : Token) : Option String :=
  if token.kind.isEof then none else some token.lexeme

/-- The offending text of a cause. -/
def token? : Fault → Option String
  | invalidCharacter c => some (String.singleton c)
  | strayEquals => some "="
  | numberOutOfRange lexeme | malformedNumber lexeme => some lexeme
  | invalidEscape c => some (String.ofList ['\\', c])
  | unexpected token _ | unexpectedAs _ token _ => tokenText token
  | innerAlias | emptyPipeWithAlias _ | duplicateAlias _ => some "as"
  | innerPipe lexeme => some lexeme
  | trailingComma _ | emptyElement => some ","
  | emptyIndex => some "]"
  | emptyParens => some ")"
  | invalidCallTarget => some "("
  | invalidObjectKey token => some token.lexeme
  | invalidAlias name => some name
  | featureDisabled _ lexeme => some lexeme
  | unterminatedString .. | invalidUnicodeEscape | neverClosed .. | emptyPipe _
  | maxDepthExceeded _ | emptyExpression => none

/-- What was looked for where a cause was found. -/
def expected? : Fault → Option String
  | strayEquals => some "=="
  | unterminatedString quote _ => some (String.singleton quote)
  | unexpected _ expected | unexpectedAs _ _ expected => some expected
  | neverClosed bracket _ => some bracket.closing.spelling
  | emptyParens => some "expression"
  | invalidObjectKey _ => some "string or identifier"
  | invalidAlias _ => some "$name"
  | _ => none

/-- The diagnostic for a cause found at a place. -/
def report (f : Fault) (position : Position) : Diagnostic :=
  ⟨f.code, f.message, position, f.token?, f.expected?⟩

end Fault

end PipeExpr
