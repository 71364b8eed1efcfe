/-!
# JSON values

Values keep numbers and strings as they are written. The text of a string is worked out
when it is asked for, and a string whose escapes leave a surrogate without its partner has
none.

* `escape`, `unescape?`: from a text to its written form and back.
* `Value.text`: the form without any blanks.
* `Value.pretty`: the form with one item per line.
-/

namespace CToGo.Json

/-! ## Strings -/

/-- The digit of a value below sixteen. -/
def hexDigit (n : Nat) : Char :=
  if n < 10 then Char.ofNat (n + '0'.toNat) else Char.ofNat (n - 10 + 'a'.toNat)

/-- The value of a hexadecimal digit. -/
def hexValue? (c : Char) : Option Nat :=
  if '0' ≤ c ∧ c ≤ '9' then some (c.toNat - '0'.toNat)
  else if 'a' ≤ c ∧ c ≤ 'f' then some (c.toNat - 'a'.toNat + 10)
  else if 'A' ≤ c ∧ c ≤ 'F' then some (c.toNat - 'A'.toNat + 10)
  else none

/-- The value of four hexadecimal digits. -/
def unit? (a b c d : Char) : Option Nat := do
  let high := (← hexValue? a) * 16 + (← hexValue? b)
  let low := (← hexValue? c) * 16 + (← hexValue? d)
  return high * 256 + low

/-- The characters that are escaped by a letter of their own. -/
def shortEscapes : List (Char × Char) :=
  [('"', '"'), ('\\', '\\'), ('/', '/'), ('\x08', 'b'), ('\x0c', 'f'), ('\n', 'n'),
    ('\r', 'r'), ('\t', 't')]

/-- The written form of a character: quotes, backslashes and control characters are
escaped. -/
def escapeChar (c : Char) : List Char :=
  if c = '/' then [c]
  else
    match shortEscapes.lookup c with
    | some letter => ['\\', letter]
    | none =>
      if c.toNat < 0x20 then
        ['\\', 'u', '0', '0', hexDigit (c.toNat / 16), hexDigit (c.toNat % 16)]
      else [c]

/-- The written form of a text, without the quotes around it. -/
def escape (s : String) : String := String.ofList (s.toList.flatMap escapeChar)

/-- Whether the unit is the first half of a character. -/
def isLeadingUnit (u : Nat) : Bool := 0xD800 ≤ u && u ≤ 0xDBFF

/-- Whether the unit is the second half of a character. -/
def isTrailingUnit (u : Nat) : Bool := 0xDC00 ≤ u && u ≤ 0xDFFF

/-- The characters of a written form. A first half must be followed by a second one, which
may not stand elsewhere. -/
def unescapeChars? : List Char → Option (List Char)
  | [] => some []
  | '\\' :: 'u' :: a :: b :: c :: d :: rest => do
    let u ← unit? a b c d
    if isTrailingUnit u then none
    else if isLeadingUnit u then
      match rest with
      | '\\' :: 'u' :: a' :: b' :: c' :: d' :: rest' =>
        let v ← unit? a' b' c' d'
        if isTrailingUnit v then
          let chars ← unescapeChars? rest'
          return Char.ofNat (0x10000 + (u - 0xD800) * 0x400 + (v - 0xDC00)) :: chars
        else none
      | _ => none
    else
      let chars ← unescapeChars? rest
      return Char.ofNat u :: chars
  | '\\' :: letter :: rest => do
    let (c, _) ← shortEscapes.find? (·.2 == letter)
    let chars ← unescapeChars? rest
    return c :: chars
  | c :: rest => do
    let chars ← unescapeChars? rest
    return c :: chars
termination_by structural text => text

/-- The text of a written form. -/
def unescape? (literal : String) : Option String :=
  (unescapeChars? literal.toList).map String.ofList

/-! ## Values -/

/-- The values. -/
inductive Value where
  | null
  | bool (b : Bool)
  /-- A number as it is written. -/
  | number (literal : String)
  /-- A string as it is written, without its quotes. -/
  | string (literal : String)
  | array (items : List Value)
  /-- The fields in the order of the text; their names as they are written. -/
  | object (fields : List (String × Value))
deriving Inhabited, Repr

namespace Value

/-- The value that a text stands for. -/
def ofString (s : String) : Value := string (escape s)

def ofNat (n : Nat) : Value := number (toString n)

/-- The text of a string; other values have none. -/
def string? : Value → Option String
  | string literal => unescape? literal
  | _ => none

end Value

/-- A written form in quotes. -/
def quoted (literal : String) : String := "\"" ++ literal ++ "\""

/-! ## Writing -/

mutual

/-- The form without blanks. -/
def Value.text : Value → String
  | .null => "null"
  | .bool b => if b then "true" else "false"
  | .number literal => literal
  | .string literal => quoted literal
  | .array items => "[" ++ ",".intercalate (itemTexts items) ++ "]"
  | .object fields => "\x7b" ++ ",".intercalate (fieldTexts fields) ++ "\x7d"

def itemTexts : List Value → List String
  | [] => []
  | v :: rest => v.text :: itemTexts rest

def fieldTexts : List (String × Value) → List String
  | [] => []
  | (name, v) :: rest => (quoted name ++ ":" ++ v.text) :: fieldTexts rest

end

/-- The beginning of a line at a level of nesting. -/
def indentation (depth : Nat) : String := String.ofList (List.replicate (2 * depth) ' ')

/-- Lines between two brackets, one level deeper; without lines the brackets meet. -/
def bracketed (depth : Nat) (opening : String) (lines : List String) (closing : String) :
    String :=
  if lines.isEmpty then opening ++ closing
  else
    opening ++ "\n"
      ++ ",\n".intercalate (lines.map fun line => indentation (depth + 1) ++ line)
      ++ "\n" ++ indentation depth ++ closing

mutual

/-- The form with one item per line, for a value that begins at the given depth. -/
def Value.pretty (depth : Nat) : Value → String
  | .array items => bracketed depth "[" (prettyItems (depth + 1) items) "]"
  | .object fields => bracketed depth "\x7b" (prettyFields (depth + 1) fields) "\x7d"
  | .null => "null"
  | .bool b => if b then "true" else "false"
  | .number literal => literal
  | .string literal => quoted literal

def prettyItems (depth : Nat) : List Value → List String
  | [] => []
  | v :: rest => v.pretty depth :: prettyItems depth rest

def prettyFields (depth : Nat) : List (String × Value) → List String
  | [] => []
  | (name, v) :: rest => (quoted name ++ ": " ++ v.pretty depth) :: prettyFields depth rest

end

end CToGo.Json
