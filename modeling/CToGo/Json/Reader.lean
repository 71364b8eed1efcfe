import CToGo.Json.Value

/-!
# Reading JSON

A text is cut into pieces first: punctuation and values without parts. The pieces are then
read one by one, with a stack of the arrays and objects that are still open, so that no
depth of nesting is too much.

* `pieces?`: the pieces of a text.
* `read?`: the value that a text stands for; nothing but blanks may follow it.
-/

namespace CToGo.Json

/-! ## Pieces -/

/-- A piece of a text. -/
inductive Piece where
  | leftBracket | rightBracket | leftBrace | rightBrace | colon | comma
  /-- A value without parts. -/
  | atom (v : Value)
deriving Inhabited, Repr

/-- Whether the character may stand between pieces. -/
def isSpace (c : Char) : Bool := c == ' ' || c == '\t' || c == '\n' || c == '\r'

/-- The piece that a punctuation character is. -/
def punctuation? : Char → Option Piece
  | '[' => some .leftBracket
  | ']' => some .rightBracket
  | '\x7b' => some .leftBrace
  | '\x7d' => some .rightBrace
  | ':' => some .colon
  | ',' => some .comma
  | _ => none

/-- The rest of a string behind its opening quote: what is written up to the closing quote,
and what follows it. Escapes must be complete and control characters escaped. -/
def stringRest? : List Char → Option (List Char × List Char)
  | [] => none
  | '"' :: rest => some ([], rest)
  | '\\' :: 'u' :: a :: b :: c :: d :: rest => do
    let _ ← unit? a b c d
    let (literal, rest) ← stringRest? rest
    return ('\\' :: 'u' :: a :: b :: c :: d :: literal, rest)
  | '\\' :: letter :: rest => do
    let _ ← shortEscapes.find? (·.2 == letter)
    let (literal, rest) ← stringRest? rest
    return ('\\' :: letter :: literal, rest)
  | c :: rest =>
    if c = '\\' ∨ c.toNat < 0x20 then none
    else do
      let (literal, rest) ← stringRest? rest
      return (c :: literal, rest)

theorem length_of_stringRest? {text literal rest : List Char}
    (h : stringRest? text = some (literal, rest)) : rest.length < text.length := by
  fun_induction stringRest? text generalizing literal rest with
  | case1 => cases h
  | case2 =>
    cases h
    simp
  | case3 a b c d tail ih =>
    simp only [Option.bind_eq_bind, Option.bind_eq_some_iff] at h
    obtain ⟨_, _, ⟨l, r⟩, hr, heq⟩ := h
    cases heq
    have := ih hr
    simp only [List.length_cons]
    omega
  | case4 letter tail _ ih =>
    simp only [Option.bind_eq_bind, Option.bind_eq_some_iff] at h
    obtain ⟨_, _, ⟨l, r⟩, hr, heq⟩ := h
    cases heq
    have := ih hr
    simp only [List.length_cons]
    omega
  | case5 => cases h
  | case6 c tail _ _ _ _ ih =>
    simp only [Option.bind_eq_bind, Option.bind_eq_some_iff] at h
    obtain ⟨⟨l, r⟩, hr, heq⟩ := h
    cases heq
    have := ih hr
    simp only [List.length_cons]
    omega

/-- Whether the character may be part of a number. -/
def isNumberChar (c : Char) : Bool :=
  c.isDigit || c == '-' || c == '+' || c == '.' || c == 'e' || c == 'E'

/-- Whether there is at least one character and all are digits. -/
def areDigits (cs : List Char) : Bool := !cs.isEmpty && cs.all Char.isDigit

/-- Whether the characters are an exponent, or nothing. -/
def isExponent : List Char → Bool
  | [] => true
  | e :: rest =>
    (e == 'e' || e == 'E') &&
      match rest with
      | '+' :: digits => areDigits digits
      | '-' :: digits => areDigits digits
      | digits => areDigits digits

/-- Whether the characters are a fraction and an exponent, or either, or nothing. -/
def isFraction : List Char → Bool
  | '.' :: rest =>
    areDigits (rest.takeWhile Char.isDigit) && isExponent (rest.dropWhile Char.isDigit)
  | rest => isExponent rest

/-- Whether the characters are a number without a sign. No zero may precede other digits. -/
def isMagnitude (cs : List Char) : Bool :=
  let digits := cs.takeWhile Char.isDigit
  areDigits digits && (digits.head? != some '0' || digits.length == 1)
    && isFraction (cs.dropWhile Char.isDigit)

def isNumber : List Char → Bool
  | '-' :: rest => isMagnitude rest
  | cs => isMagnitude cs

/-- The value that a word stands for. -/
def ofWord? : String → Option Value
  | "null" => some .null
  | "true" => some (.bool true)
  | "false" => some (.bool false)
  | _ => none

/-- The value without parts that a run of characters stands for. -/
def ofRun? (cs : List Char) : Option Value :=
  if isNumber cs then some (.number (String.ofList cs)) else ofWord? (String.ofList cs)

/-- Whether the character may be part of a number or a word. -/
def isRunChar (c : Char) : Bool := isNumberChar c || c.isAlpha

/-- The pieces of a text. -/
def pieces? (text : List Char) : Option (List Piece) :=
  match text with
  | [] => some []
  | c :: rest =>
    if isSpace c then pieces? rest
    else if c = '"' then
      match h : stringRest? rest with
      | none => none
      | some (literal, after) =>
        have := length_of_stringRest? h
        (pieces? after).map (.atom (.string (String.ofList literal)) :: ·)
    else
      match punctuation? c with
      | some piece => (pieces? rest).map (piece :: ·)
      | none =>
        have : (rest.dropWhile isRunChar).length < rest.length + 1 :=
          Nat.lt_succ_of_le (List.dropWhile_sublist isRunChar).length_le
        match ofRun? (c :: rest.takeWhile isRunChar) with
        | none => none
        | some v => (pieces? (rest.dropWhile isRunChar)).map (.atom v :: ·)
termination_by text.length

/-! ## Values from pieces -/

/-- An array or object that is still open, with its parts so far in reverse. -/
inductive Frame where
  | array (items : List Value)
  | object (fields : List (String × Value))
  /-- An object that waits for the value of the field `name`. -/
  | field (fields : List (String × Value)) (name : String)
deriving Inhabited, Repr

/-- What may come next. -/
inductive Mode where
  | value
  /-- A value, or the end of the array that was just opened. -/
  | valueOrClose
  | name
  /-- A name, or the end of the object that was just opened. -/
  | nameOrClose
  | colon
  /-- Another part, or the end of the innermost array or object. -/
  | commaOrClose
  /-- Nothing: the value is complete. -/
  | finished (v : Value)
deriving Inhabited, Repr

/-- How far the pieces have been read. -/
structure Reader where
  mode : Mode
  stack : List Frame
deriving Inhabited, Repr

namespace Reader

/-- Nothing has been read. -/
def start : Reader := ⟨.value, []⟩

/-- A value is complete; it becomes part of what encloses it. -/
def complete (v : Value) : List Frame → Option Reader
  | [] => some ⟨.finished v, []⟩
  | .array items :: stack => some ⟨.commaOrClose, .array (v :: items) :: stack⟩
  | .field fields name :: stack => some ⟨.commaOrClose, .object ((name, v) :: fields) :: stack⟩
  | .object _ :: _ => none

/-- A value begins with the given piece. -/
def beginValue (stack : List Frame) : Piece → Option Reader
  | .atom v => complete v stack
  | .leftBracket => some ⟨.valueOrClose, .array [] :: stack⟩
  | .leftBrace => some ⟨.nameOrClose, .object [] :: stack⟩
  | _ => none

/-- A field begins with the given piece, which must be its name. -/
def beginField (stack : List Frame) : Piece → Option Reader
  | .atom (.string name) =>
    match stack with
    | .object fields :: stack => some ⟨.colon, .field fields name :: stack⟩
    | _ => none
  | _ => none

/-- The innermost array or object ends with the given piece. -/
def close (stack : List Frame) : Piece → Option Reader
  | .rightBracket =>
    match stack with
    | .array items :: stack => complete (.array items.reverse) stack
    | _ => none
  | .rightBrace =>
    match stack with
    | .object fields :: stack => complete (.object fields.reverse) stack
    | _ => none
  | _ => none

/-- Reads one piece. -/
def step (r : Reader) (piece : Piece) : Option Reader :=
  match r.mode with
  | .value => beginValue r.stack piece
  | .valueOrClose => (close r.stack piece).or (beginValue r.stack piece)
  | .name => beginField r.stack piece
  | .nameOrClose => (close r.stack piece).or (beginField r.stack piece)
  | .colon =>
    match piece with
    | .colon => some ⟨.value, r.stack⟩
    | _ => none
  | .commaOrClose =>
    match piece, r.stack with
    | .comma, .array _ :: _ => some ⟨.value, r.stack⟩
    | .comma, _ => some ⟨.name, r.stack⟩
    | _, _ => close r.stack piece
  | .finished _ => none

end Reader

/-- The value that a text stands for. -/
def read? (text : String) : Option Value := do
  let pieces ← pieces? text.toList
  let r ← pieces.foldlM Reader.step .start
  match r.mode with
  | .finished v => some v
  | _ => none

end CToGo.Json
