/-!
JSON values and the tokens that they are made of. A number is kept as an integer and a string as a
text, if it denotes one; what denotes none is kept as such, because it may stand where a reader
takes no notice of it.

| here | there |
| --- | --- |
| `Json`, `Token` | the JSON texts in which derivatives, domains and settings are stored |
-/
namespace FormSparsity

/-- A JSON value without parts. -/
inductive Scalar where
  | null
  | bool (b : Bool)
  /-- The integer that a number denotes; none if it is written with fraction or exponent, or is a
  negative zero. -/
  | number (value : Option Int)
  /-- The text of a string; none if it has half of a surrogate pair. -/
  | string (text : Option String)
deriving DecidableEq, Repr, Inhabited

/-- A JSON value. An object keeps all its fields in order, also those with equal keys. -/
inductive Json where
  | scalar (value : Scalar)
  | array (items : List Json)
  | object (fields : List (Option String × Json))
deriving Inhabited

namespace Json

/-- A part of a JSON text. -/
inductive Token where
  | scalar (value : Scalar)
  | leftBracket
  | rightBracket
  | leftBrace
  | rightBrace
  | comma
  | colon
deriving DecidableEq, Repr

mutual

/-- The tokens of a value. -/
def tokens : Json → List Token
  | scalar value => [.scalar value]
  | array items => .leftBracket :: itemTokens items
  | object fields => .leftBrace :: fieldTokens fields

/-- The tokens of the items of an array, up to its end. -/
def itemTokens : List Json → List Token
  | [] => [.rightBracket]
  | [v] => tokens v ++ [.rightBracket]
  | v :: w :: items => tokens v ++ .comma :: itemTokens (w :: items)

/-- The tokens of the fields of an object, up to its end. -/
def fieldTokens : List (Option String × Json) → List Token
  | [] => [.rightBrace]
  | [(key, v)] => .scalar (.string key) :: .colon :: (tokens v ++ [.rightBrace])
  | (key, v) :: field :: fields =>
    .scalar (.string key) :: .colon :: (tokens v ++ .comma :: fieldTokens (field :: fields))

end

end Json

end FormSparsity
