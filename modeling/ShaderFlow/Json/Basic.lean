/-!
# Data trees

Values of the exchange format, without their spelling: the reader of the text and its writer are
no concern here. A number is kept as an integer over a power of ten, as its text gives it, so an
integer that is written with a fraction is told apart from one that is not.
-/

namespace ShaderFlow

/-- A value of the exchange format. -/
inductive Json where
  | null
  | bool (value : Bool)
  /-- The number `mantissa / 10 ^ scale`. -/
  | number (mantissa : Int) (scale : Nat)
  | string (value : String)
  | array (items : List Json)
  /-- Named fields, of which the first with a name counts. -/
  | object (fields : List (String × Json))

namespace Json

/-- An integer without a fraction. -/
def ofNat (n : Nat) : Json := number n 0

/-- The field of a record. A record is an object, whose fields are found by name, or an array,
whose fields are found by position. -/
def field? (position : Nat) (name : String) : Json → Option Json
  | object fields => fields.lookup name
  | array items => items[position]?
  | _ => none

/-- Whether the value can be a record of `count` fields: an array may leave fields out at the
end but has no more than that, and an object may have any fields. -/
def isRecord (count : Nat) : Json → Bool
  | object _ => true
  | array items => decide (items.length ≤ count)
  | _ => false

/-- The name and the content of a variant: a bare name has no content, and otherwise the value is
an object with one field. -/
def variant? : Json → Option (String × Option Json)
  | string name => some (name, none)
  | object [(name, content)] => some (name, some content)
  | _ => none

end Json

end ShaderFlow
