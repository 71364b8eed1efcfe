import CToGo.Json.Reader

/-!
# Records

A record is a fixed list of named fields. It is written as an object, in which fields of
other names are of no account, or as an array of its fields in order, of which the last may
be missing.
-/

namespace CToGo.Json

/-- The fields of a record with the given names, as far as the value has them. None if the
value is no record: a field is given twice, a name has no text, or there are too many. -/
def Value.record? (names : List String) : Value → Option (List (String × Value))
  | .object fields => do
    let named ← fields.mapM fun (name, v) => (unescape? name).map (·, v)
    let known := named.filter (·.1 ∈ names)
    if (known.map (·.1)).Nodup then some known else none
  | .array items => if items.length ≤ names.length then some (names.zip items) else none
  | _ => none

/-- A field that holds a text and must be there. -/
def required? (fields : List (String × Value)) (name : String) : Option String := do
  (← fields.lookup name).string?

/-- A field that holds a text, or `default` if it is not there. -/
def textOr? (fields : List (String × Value)) (name default : String) : Option String :=
  match fields.lookup name with
  | some v => v.string?
  | none => some default

/-- A field that holds a text or nothing; it may be left out. -/
def nullable? (fields : List (String × Value)) (name : String) : Option (Option String) :=
  match fields.lookup name with
  | none | some .null => some none
  | some v => v.string?.map some

end CToGo.Json
