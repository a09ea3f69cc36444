import PipeExpr.Number.Text
import PipeExpr.Source.Position
import PipeExpr.Text.Quoted

/-!
# Tokens

The words of the expression language. A token is a literal, a name, a pipe marker, or one of the
symbols with a fixed spelling; it keeps its source text and its place.
-/

namespace PipeExpr

/-- Tokens with a fixed spelling. -/
inductive Symbol where
  /-- The keyword that introduces a pipe alias. -/
  | as
  | plus | minus | star | slash | percent
  /-- Power, in its first spelling. -/
  | caret
  /-- Power, in its second spelling. -/
  | starStar
  /-- Never part of an expression. -/
  | plusPlus
  /-- Two hyphens without an operand behind them, never part of an expression. -/
  | minusMinus
  | ampersand | ampAmp | bar | barBar
  /-- Exclusive or between operands, complement before one. -/
  | tilde
  | bang
  | ltLt | gtGt
  | eqEq | bangEq | ltGt
  | lt | gt | ltEq | gtEq
  | question | questionQuestion | questionDot | questionBracket
  | dot | comma | colon
  | leftParen | rightParen | leftBracket | rightBracket | leftBrace | rightBrace
  deriving DecidableEq, Repr, Inhabited

namespace Symbol

/-- The characters of a symbol. -/
def chars : Symbol → List Char
  | as => ['a', 's']
  | plus => ['+'] | minus => ['-'] | star => ['*'] | slash => ['/'] | percent => ['%']
  | caret => ['^'] | starStar => ['*', '*']
  | plusPlus => ['+', '+'] | minusMinus => ['-', '-']
  | ampersand => ['&'] | ampAmp => ['&', '&'] | bar => ['|'] | barBar => ['|', '|']
  | tilde => ['~'] | bang => ['!']
  | ltLt => ['<', '<'] | gtGt => ['>', '>']
  | eqEq => ['=', '='] | bangEq => ['!', '='] | ltGt => ['<', '>']
  | lt => ['<'] | gt => ['>'] | ltEq => ['<', '='] | gtEq => ['>', '=']
  | question => ['?'] | questionQuestion => ['?', '?']
  | questionDot => ['?', '.'] | questionBracket => ['?', '[']
  | dot => ['.'] | comma => [','] | colon => [':']
  | leftParen => ['('] | rightParen => [')']
  | leftBracket => ['['] | rightBracket => [']']
  | leftBrace => ['\x7b'] | rightBrace => ['\x7d']

/-- The spelling of a symbol. -/
def spelling (s : Symbol) : String := String.ofList s.chars

/-- The symbols made of punctuation, longer ones first: of the symbols with which a text starts, the
first in this list is the longest. -/
def punctuation : List Symbol :=
  [starStar, plusPlus, minusMinus, ampAmp, barBar, ltLt, gtGt, eqEq, bangEq, ltGt, ltEq, gtEq,
   questionQuestion, questionDot, questionBracket,
   plus, minus, star, slash, percent, caret, ampersand, bar, tilde, bang, lt, gt, question,
   dot, comma, colon, leftParen, rightParen, leftBracket, rightBracket, leftBrace, rightBrace]

/-- The longest symbol of punctuation with which a text starts. -/
def longest? (cs : List Char) : Option Symbol := punctuation.find? (·.chars.isPrefixOf cs)

end Symbol

/-- What a token is. Literals carry their decoded value. -/
inductive TokenKind where
  | number (x : Float)
  | string (s : String)
  | boolean (b : Bool)
  | null
  /-- A name, pipe locals such as `$item` included. -/
  | identifier (name : String)
  | symbol (s : Symbol)
  /-- A pipe marker: without a name `|:`, with a name `|map:`. -/
  | pipe (name : Option String)
  /-- The end of the source. -/
  | eof
  deriving Inhabited

namespace TokenKind

/-- What a token is, as diagnostics show it. -/
def describe : TokenKind → String
  | number x => "number " ++ Double.plainText x
  | string s => "string " ++ Text.quoted s
  | boolean b => if b then "true" else "false"
  | null => "null"
  | identifier name => "identifier '" ++ name ++ "'"
  | symbol s => "'" ++ s.spelling ++ "'"
  | pipe none => "'|:'"
  | pipe (some name) => "'|" ++ name ++ ":'"
  | eof => "end of input"

/-- Whether a token is a given symbol. -/
def isSymbol (k : TokenKind) (s : Symbol) : Bool :=
  match k with
  | symbol t => t == s
  | _ => false

/-- Whether a token is the end of the source. -/
def isEof : TokenKind → Bool
  | eof => true
  | _ => false

/-- Whether a token is a pipe marker. -/
def isPipe : TokenKind → Bool
  | pipe _ => true
  | _ => false

end TokenKind

/-- A token in its place. -/
structure Token where
  /-- What the token is. -/
  kind : TokenKind
  /-- Its source text. -/
  lexeme : String
  /-- The place of its first character. -/
  position : Position
  /-- Whether it is a text literal between single quotes. -/
  singleQuoted : Bool := false
  /-- Whether it is a raw text literal. -/
  raw : Bool := false
  deriving Inhabited

namespace Token

/-- The end of the source at a place. -/
def eof (position : Position) : Token := ⟨.eof, "", position, false, false⟩

end Token

end PipeExpr
