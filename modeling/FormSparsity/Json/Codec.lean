import FormSparsity.Json.Parse
import FormSparsity.Json.Render

/-!
Codecs: how the values of a type are written as JSON values and read back. A record is an object
with a field for each of its parts, and is also read from an array of its parts; fields of other
names are passed over. An alternative is the name of its kind, or an object whose only field has
that name and the content of the alternative.
-/
namespace FormSparsity

/-- How the values of a type are written and read. -/
structure Codec (α : Type) where
  encode : α → Json
  decode : Json → Option α

namespace Codec

variable {α : Type}

/-- Writes a value as text. -/
def write (codec : Codec α) (a : α) : String := (codec.encode a).render

/-- Reads a value from text. -/
def read (codec : Codec α) (s : String) : Option α := do codec.decode (← Json.parse? s)

end Codec

namespace Json

/-! ## Writing -/

/-- An integer. -/
def ofInt (n : Int) : Json := .scalar (.number (some n))

/-- A natural number. -/
def ofNat (n : Nat) : Json := ofInt n

/-- A text. -/
def ofString (s : String) : Json := .scalar (.string (some s))

/-- A truth value. -/
def ofBool (b : Bool) : Json := .scalar (.bool b)

/-- A record with named parts. -/
def ofFields (fields : List (String × Json)) : Json :=
  .object (fields.map fun (name, v) => (some name, v))

/-- An alternative with content. -/
def ofVariant (name : String) (content : Json) : Json := ofFields [(name, content)]

/-! ## Reading -/

/-- An integer from `low` to `high`. -/
def int? (low high : Int) : Json → Option Int
  | .scalar (.number (some n)) => if low ≤ n ∧ n ≤ high then some n else none
  | _ => none

/-- A natural number below `bound`. -/
def nat? (bound : Nat) (v : Json) : Option Nat := (v.int? 0 (bound - 1)).map Int.toNat

/-- The text of a string that denotes one. -/
def string? : Json → Option String
  | .scalar (.string text) => text
  | _ => none

/-- A truth value. -/
def bool? : Json → Option Bool
  | .scalar (.bool b) => some b
  | _ => none

/-- The items of an array. -/
def items? : Json → Option (List Json)
  | .array items => some items
  | _ => none

/-- A list of values of one type. -/
def list? {α : Type} (decode : Json → Option α) (v : Json) : Option (List α) := do
  (← v.items?).mapM decode

/-- The value of a key, if there is one. That there are several is a failure. -/
def field? (name : String) (fields : List (Option String × Json)) : Option (Option Json) :=
  match fields.filter (·.1 = some name) with
  | [] => some none
  | [(_, v)] => some (some v)
  | _ => none

/-- The parts of a record, each of which may be missing, but in an array only at the end. -/
def optionalFields? (names : List String) : Json → Option (List (Option Json))
  | .array items =>
    if items.length ≤ names.length then
      some (items.map some ++ List.replicate (names.length - items.length) none)
    else
      none
  | .object fields =>
    if fields.all (·.1.isSome) then names.mapM (field? · fields) else none
  | .scalar _ => none

/-- The parts of a record, none of which may be missing. -/
def fields? (names : List String) (v : Json) : Option (List Json) := do
  (← v.optionalFields? names).mapM id

/-- The name of an alternative and its content, if it is written with one. -/
def variant? : Json → Option (String × Option Json)
  | .scalar (.string text) => text.map (·, none)
  | .object [(name, v)] => name.map (·, some v)
  | _ => none

/-- The name of an alternative without content, which may be written as null. -/
def name? (v : Json) : Option String := do
  match ← v.variant? with
  | (name, none) | (name, some (.scalar .null)) => some name
  | _ => none

end Json

end FormSparsity
