import FormSparsity.Json.Value

/-!
JSON texts without blanks. In strings, quotes, backslashes and control characters are escaped and
everything else stands for itself.
-/
namespace FormSparsity.Json

/-- The digit of a value below sixteen, in lower case. -/
def hexDigit (n : Nat) : Char := Nat.digitChar n

/-- What stands for a character in a string. -/
def escape (c : Char) : List Char :=
  if c = '"' then ['\\', '"']
  else if c = '\\' then ['\\', '\\']
  else if c = '\x08' then ['\\', 'b']
  else if c = '\x0c' then ['\\', 'f']
  else if c = '\n' then ['\\', 'n']
  else if c = '\r' then ['\\', 'r']
  else if c = '\t' then ['\\', 't']
  else if c.toNat < 0x20 then
    ['\\', 'u', '0', '0', hexDigit (c.toNat / 16), hexDigit (c.toNat % 16)]
  else [c]

/-- A text as a string. -/
def quote (s : String) : List Char := '"' :: (s.toList.flatMap escape ++ ['"'])

/-- A value without parts. What denotes nothing is written as null. -/
def scalarText : Scalar → List Char
  | .null | .number none | .string none => "null".toList
  | .bool true => "true".toList
  | .bool false => "false".toList
  | .number (some n) => (toString n).toList
  | .string (some s) => quote s

namespace Token

/-- The text of a token. -/
def text : Token → List Char
  | scalar value => scalarText value
  | leftBracket => ['[']
  | rightBracket => [']']
  | leftBrace => ['\x7b']
  | rightBrace => ['\x7d']
  | comma => [',']
  | colon => [':']

end Token

/-- The text of a value. -/
def render (v : Json) : String := String.ofList (v.tokens.flatMap Token.text)

end FormSparsity.Json
