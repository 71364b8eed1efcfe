import CToGo.Source.Location

/-!
# Tokens

The vocabulary of the source language: integer literals, identifiers, keywords, operators
and punctuation, and a mark for the end of the file. Keywords that the grammar has no use
for are still reserved, so that they are never taken for identifiers.

* `TokenKind.text`: how a token is spelled; `Keyword.ofWord?` and `Symbol.read?` invert the
  two tables.
-/

namespace CToGo.Source

/-- The reserved words. -/
inductive Keyword where
  | kwInt | kwChar | kwVoid | kwIf | kwElse | kwReturn | kwWhile
  | kwFor | kwDo | kwBreak | kwContinue | kwSwitch | kwCase | kwDefault
  | kwStruct | kwUnion | kwEnum | kwTypedef | kwSizeof
  | kwStatic | kwExtern | kwConst
  | kwUnsigned | kwSigned | kwShort | kwLong | kwFloat | kwDouble | kwGoto
deriving DecidableEq, Inhabited, Repr

namespace Keyword

def text : Keyword → String
  | kwInt => "int"
  | kwChar => "char"
  | kwVoid => "void"
  | kwIf => "if"
  | kwElse => "else"
  | kwReturn => "return"
  | kwWhile => "while"
  | kwFor => "for"
  | kwDo => "do"
  | kwBreak => "break"
  | kwContinue => "continue"
  | kwSwitch => "switch"
  | kwCase => "case"
  | kwDefault => "default"
  | kwStruct => "struct"
  | kwUnion => "union"
  | kwEnum => "enum"
  | kwTypedef => "typedef"
  | kwSizeof => "sizeof"
  | kwStatic => "static"
  | kwExtern => "extern"
  | kwConst => "const"
  | kwUnsigned => "unsigned"
  | kwSigned => "signed"
  | kwShort => "short"
  | kwLong => "long"
  | kwFloat => "float"
  | kwDouble => "double"
  | kwGoto => "goto"

def all : List Keyword :=
  [kwInt, kwChar, kwVoid, kwIf, kwElse, kwReturn, kwWhile,
    kwFor, kwDo, kwBreak, kwContinue, kwSwitch, kwCase, kwDefault,
    kwStruct, kwUnion, kwEnum, kwTypedef, kwSizeof,
    kwStatic, kwExtern, kwConst,
    kwUnsigned, kwSigned, kwShort, kwLong, kwFloat, kwDouble, kwGoto]

theorem mem_all (k : Keyword) : k ∈ all := by
  cases k <;> decide

/-- The keyword spelled `word`. -/
def ofWord? (word : String) : Option Keyword := all.find? (·.text == word)

theorem ofWord?_text (k : Keyword) : ofWord? k.text = some k := by
  cases k <;> decide

theorem text_of_ofWord? {word : String} {k : Keyword} (h : ofWord? word = some k) :
    k.text = word := by
  simpa using List.find?_some h

def isTypeSpecifier : Keyword → Bool
  | kwInt | kwChar | kwVoid => true
  | _ => false

end Keyword

/-- Operators and punctuation. -/
inductive Symbol where
  | plus | minus | star | slash | percent | equal | less | greater
  | plusPlus | minusMinus
  | lessEqual | greaterEqual | equalEqual | bangEqual
  | plusEqual | minusEqual | starEqual | slashEqual | percentEqual
  | leftParen | rightParen | leftBrace | rightBrace | leftBracket | rightBracket
  | semicolon | comma
deriving DecidableEq, Inhabited, Repr

namespace Symbol

def text : Symbol → String
  | plus => "+"
  | minus => "-"
  | star => "*"
  | slash => "/"
  | percent => "%"
  | equal => "="
  | less => "<"
  | greater => ">"
  | plusPlus => "++"
  | minusMinus => "--"
  | lessEqual => "<="
  | greaterEqual => ">="
  | equalEqual => "=="
  | bangEqual => "!="
  | plusEqual => "+="
  | minusEqual => "-="
  | starEqual => "*="
  | slashEqual => "/="
  | percentEqual => "%="
  | leftParen => "("
  | rightParen => ")"
  | leftBrace => "\x7b"
  | rightBrace => "\x7d"
  | leftBracket => "["
  | rightBracket => "]"
  | semicolon => ";"
  | comma => ","

/-- The number of characters of a symbol, one or two. -/
def width : Symbol → Nat
  | plusPlus | minusMinus | lessEqual | greaterEqual | equalEqual | bangEqual
  | plusEqual | minusEqual | starEqual | slashEqual | percentEqual => 2
  | _ => 1

theorem width_pos (s : Symbol) : 0 < s.width := by
  cases s <;> decide

theorem length_text (s : Symbol) : s.text.length = s.width := by
  cases s <;> decide

/-- The longest symbol that the text begins with. An exclamation mark alone is none. -/
def read? : List Char → Option Symbol
  | '+' :: '+' :: _ => some plusPlus
  | '+' :: '=' :: _ => some plusEqual
  | '+' :: _ => some plus
  | '-' :: '-' :: _ => some minusMinus
  | '-' :: '=' :: _ => some minusEqual
  | '-' :: _ => some minus
  | '*' :: '=' :: _ => some starEqual
  | '*' :: _ => some star
  | '/' :: '=' :: _ => some slashEqual
  | '/' :: _ => some slash
  | '%' :: '=' :: _ => some percentEqual
  | '%' :: _ => some percent
  | '=' :: '=' :: _ => some equalEqual
  | '=' :: _ => some equal
  | '<' :: '=' :: _ => some lessEqual
  | '<' :: _ => some less
  | '>' :: '=' :: _ => some greaterEqual
  | '>' :: _ => some greater
  | '!' :: '=' :: _ => some bangEqual
  | '(' :: _ => some leftParen
  | ')' :: _ => some rightParen
  | '\x7b' :: _ => some leftBrace
  | '\x7d' :: _ => some rightBrace
  | '[' :: _ => some leftBracket
  | ']' :: _ => some rightBracket
  | ';' :: _ => some semicolon
  | ',' :: _ => some comma
  | _ => none

end Symbol

/-- What a token is, without the place where it stands. -/
inductive TokenKind where
  /-- An integer literal with its value. -/
  | literal (value : Int)
  /-- A name that is no keyword. -/
  | identifier (name : String)
  | keyword (word : Keyword)
  | symbol (mark : Symbol)
  | endOfFile
deriving DecidableEq, Inhabited, Repr

namespace TokenKind

/-- The text of a token in messages; for all but the end of the file, its spelling. -/
def text : TokenKind → String
  | literal value => toString value
  | identifier name => name
  | keyword word => word.text
  | symbol mark => mark.text
  | endOfFile => "end of file"

/-- A word is a keyword if it is reserved, and else an identifier. -/
def ofWord (word : String) : TokenKind :=
  match Keyword.ofWord? word with
  | some k => keyword k
  | none => identifier word

def isTypeSpecifier : TokenKind → Bool
  | keyword word => word.isTypeSpecifier
  | _ => false

end TokenKind

/-- A token and the stretch of text that it was read from. -/
structure Token where
  kind : TokenKind
  span : Span
deriving DecidableEq, Inhabited, Repr

/-- The display form of a token: its text and where it begins. -/
def Token.text (t : Token) : String := t.kind.text ++ " at " ++ t.span.start.text

end CToGo.Source
