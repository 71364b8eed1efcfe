import CToGo.Diagnostic
import CToGo.Source.Token
import CToGo.Source.Tree

/-!
# Token streams

The state of a parser is the list of tokens still to be read, together with a budget for
nesting. A parser that fails leaves the stream as it was when the failure was noticed; it
never gives back a token.

* `GrammarError`: what was expected, and what stood there instead.
* `expect`, `accept`, `identifier`, `spend`: the steps that parsers are made of.
* `many`: as long as the stream shows the beginning of an item, one more item.
-/

namespace CToGo.Source.Parser

/-! ## Errors -/

/-- What the grammar asks for at a place. -/
inductive Expectation where
  /-- The given token, as part of the named construct. -/
  | token (kind : TokenKind) (context : String)
  /-- Any identifier, as part of the named construct. -/
  | identifier (context : String)
  | typeSpecifier
  | expression
  /-- Something that can be assigned to. -/
  | assignmentTarget
  /-- Something that the operator in front of it can step. -/
  | operandAfter (op : UnaryOp)
  /-- Something that the operator behind it can step. -/
  | operandBefore (op : UnaryOp)
  /-- The name of a function, in front of its arguments. -/
  | functionName
deriving DecidableEq, Inhabited, Repr

def Expectation.text : Expectation → String
  | token kind context => kind.text ++ " in " ++ context
  | identifier context => "identifier in " ++ context
  | typeSpecifier => "type specifier"
  | expression => "expression"
  | assignmentTarget => "identifier as assignment target"
  | operandAfter op => "identifier after " ++ op.text
  | operandBefore op => "identifier before " ++ op.text
  | functionName => "function name before ("

/-- Why a stream of tokens is no program. -/
inductive GrammarError where
  /-- Another token stands where something was expected. -/
  | unexpectedToken (expected : Expectation) (token : Token)
  /-- The file ends where something was expected. -/
  | unexpectedEnd (expected : Expectation) (location : Location)
  /-- An expression of the described form stands where only an identifier may. -/
  | unsuitable (expected : Expectation) (description : String) (location : Location)
  /-- The nesting budget is used up. -/
  | tooDeep (location : Location)
deriving DecidableEq, Inhabited, Repr

namespace GrammarError

/-- The wording of an error where it was noticed. -/
def message : GrammarError → String
  | unexpectedToken expected token => "expected " ++ expected.text ++ ", found " ++ token.text
  | unexpectedEnd expected _ => "unexpected end of file, expected " ++ expected.text
  | unsuitable expected description _ =>
    "expected " ++ expected.text ++ ", found " ++ description
  | tooDeep _ => "expected less deeply nested code, found nesting too deep"

/-- What the user is told of an error. -/
def toDiagnostic : GrammarError → Diagnostic
  | unexpectedToken expected token =>
    .grammar expected.text token.kind.text token.span.start
  | unexpectedEnd expected location => .grammar expected.text "end of file" location
  | unsuitable expected description location => .grammar expected.text description location
  | tooDeep location => .grammar "less deeply nested code" "nesting too deep" location

end GrammarError

/-! ## Streams -/

/-- The nesting budget of a fresh stream. Whatever deepens the tree is paid from it, so it
bounds the depth of the trees that parsers build. -/
def maxNesting : Nat := 256

/-- What a parenthesised expression, a list of arguments, a block or a body without braces
costs. -/
def groupCost : Nat := 4

/-- What an operator costs, and an alternative that is a branch itself. -/
def operatorCost : Nat := 1

/-- The tokens still to be read and what a parser has to remember. -/
structure Stream where
  tokens : List Token
  /-- The end of the token read last. -/
  lastEnd : Location
  /-- Where the file ends, for a stream without a token that says so. -/
  ending : Location
  /-- What is left of the nesting budget. -/
  budget : Nat
deriving DecidableEq, Inhabited, Repr

namespace Stream

/-- A fresh stream over a list of tokens. -/
def ofTokens (tokens : List Token) : Stream where
  tokens := tokens
  lastEnd := (tokens.head?.map (·.span.start)).getD .unknown
  ending := (tokens.getLast?.map (·.span.stop)).getD .unknown
  budget := maxNesting

/-- The kind of the next token. -/
def peek? (s : Stream) : Option TokenKind := s.tokens.head?.map (·.kind)

/-- Whether the next token is of the given kind. Where no token is left, the file ends. -/
def isAt (s : Stream) (kind : TokenKind) : Bool := s.peek?.getD .endOfFile == kind

/-- Where the next token begins. -/
def location (s : Stream) : Location :=
  match s.tokens with
  | [] => s.ending
  | t :: _ => t.span.start

/-- The stream behind its next token. -/
def tail (s : Stream) : Stream :=
  match s.tokens with
  | [] => s
  | t :: rest => { s with tokens := rest, lastEnd := t.span.stop }

/-- The error of a parser that finds something else than it expects. -/
def unexpected (s : Stream) (expected : Expectation) : GrammarError :=
  match s.tokens with
  | [] => .unexpectedEnd expected s.location
  | t :: _ =>
    if t.kind = .endOfFile then .unexpectedEnd expected s.location
    else .unexpectedToken expected t

end Stream

/-! ## Steps -/

end Parser

/-- A computation that reads from a stream of tokens and may fail. -/
abbrev Parser := EStateM Parser.GrammarError Parser.Stream

namespace Parser

/-- The kind of the next token. -/
def peek? : Parser (Option TokenKind) := return (← get).peek?

/-- Whether the next token is of the given kind. -/
def isAt (kind : TokenKind) : Parser Bool := return (← get).isAt kind

/-- Where the next token begins. -/
def here : Parser Location := return (← get).location

/-- The span from `start` to the end of the token read last. -/
def spanFrom (start : Location) : Parser Span := return ⟨start, (← get).lastEnd⟩

/-- Reads one token. -/
def advance : Parser Unit := modify Stream.tail

/-- Fails because something else was expected. -/
def unexpected {α : Type} (expected : Expectation) : Parser α := do
  throw ((← get).unexpected expected)

/-- Pays for nesting; fails if the budget is too small. -/
def spend (cost : Nat) : Parser Unit := do
  let s ← get
  if s.budget < cost then throw (.tooDeep s.location)
  set { s with budget := s.budget - cost }

/-- Runs a parser and, if it succeeds, gives back what it spent. -/
def refunding {α : Type} (p : Parser α) : Parser α := do
  let before := (← get).budget
  let a ← p
  modify fun s => { s with budget := before }
  return a

/-- Reads a token of the given kind if it is next, and says whether it was. -/
def accept (kind : TokenKind) : Parser Bool := do
  if ← isAt kind then
    advance
    return true
  else
    return false

/-- Reads a token of the given kind, which must be next. -/
def expect (kind : TokenKind) (context : String) : Parser Unit := do
  if ← isAt kind then advance else unexpected (.token kind context)

/-- Reads a symbol, which must be next. -/
def expectSymbol (mark : Symbol) (context : String) : Parser Unit :=
  expect (.symbol mark) context

/-- Reads an identifier, which must be next. -/
def identifier (context : String) : Parser String := do
  match ← peek? with
  | some (.identifier name) =>
    advance
    return name
  | _ => unexpected (.identifier context)

/-! ## Repetition -/

/-- Reads items as long as `next?` sees the beginning of one, but at most one for each token
in `bound`. -/
def manyWithin {α β : Type} (next? : Stream → Option β) (item : β → Parser α) :
    List Token → Parser (List α)
  | [] => return []
  | _ :: bound => do
    match next? (← get) with
    | none => return []
    | some b =>
      let a ← item b
      let rest ← manyWithin next? item bound
      return a :: rest

/-- Reads items as long as `next?` sees the beginning of one. Since an item consists of at
least one token, there are never more items than tokens. -/
def many {α β : Type} (next? : Stream → Option β) (item : β → Parser α) :
    Parser (List α) := do
  manyWithin next? item (← get).tokens

/-- Reads items as long as `more` holds. -/
def manyWhile {α : Type} (more : Stream → Bool) (item : Parser α) : Parser (List α) :=
  many (fun s => if more s then some () else none) fun _ => item

/-- Reads one item, and one more after each comma. -/
def commaSeparated {α : Type} (item : Parser α) : Parser (List α) := do
  let first ← item
  let rest ← manyWhile (·.isAt (.symbol .comma)) do
    advance
    item
  return first :: rest

end Parser

end CToGo.Source
