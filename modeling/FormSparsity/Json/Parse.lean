import FormSparsity.Json.Scan

/-!
Reading JSON texts. Tokens are taken in one at a time; the arrays and objects that are still open
are kept on a stack, the innermost first.
-/
namespace FormSparsity.Json

/-- An array or object that is still open. Its items or fields so far are held last one first. -/
inductive Frame where
  | array (items : List Json)
  /-- An object in which the value of a key is due. -/
  | object (fields : List (Option String × Json)) (key : Option String)

/-- What may come next. -/
inductive State where
  /-- A value. -/
  | value (stack : List Frame)
  /-- A value or the end of the array. -/
  | firstItem (stack : List Frame)
  /-- A comma or the end of the array. -/
  | afterItem (items : List Json) (stack : List Frame)
  /-- A key or the end of the object. -/
  | firstKey (stack : List Frame)
  /-- A key. -/
  | key (fields : List (Option String × Json)) (stack : List Frame)
  /-- A colon. -/
  | colon (fields : List (Option String × Json)) (key : Option String) (stack : List Frame)
  /-- A comma or the end of the object. -/
  | afterField (fields : List (Option String × Json)) (stack : List Frame)
  /-- Nothing: the value is complete. -/
  | finished (v : Json)

namespace State

/-- Puts a complete value where it belongs. -/
def complete (v : Json) : List Frame → State
  | [] => finished v
  | .array items :: stack => afterItem (v :: items) stack
  | .object fields k :: stack => afterField ((k, v) :: fields) stack

/-- Takes in the first token of a value. -/
def beginValue (stack : List Frame) : Token → Option State
  | .scalar v => some (complete (.scalar v) stack)
  | .leftBracket => some (firstItem stack)
  | .leftBrace => some (firstKey stack)
  | _ => none

/-- Takes in one token. -/
def step : State → Token → Option State
  | value stack, t => beginValue stack t
  | firstItem stack, .rightBracket => some (complete (.array []) stack)
  | firstItem stack, t => beginValue (.array [] :: stack) t
  | afterItem items stack, .comma => some (value (.array items :: stack))
  | afterItem items stack, .rightBracket => some (complete (.array items.reverse) stack)
  | firstKey stack, .rightBrace => some (complete (.object []) stack)
  | firstKey stack, .scalar (.string k) => some (colon [] k stack)
  | key fields stack, .scalar (.string k) => some (colon fields k stack)
  | colon fields k stack, .colon => some (value (.object fields k :: stack))
  | afterField fields stack, .comma => some (key fields stack)
  | afterField fields stack, .rightBrace => some (complete (.object fields.reverse) stack)
  | _, _ => none

end State

/-- The value that tokens make up. -/
def ofTokens? (tokens : List Token) : Option Json := do
  match ← tokens.foldlM State.step (.value []) with
  | .finished v => some v
  | _ => none

/-- The value of a text. -/
def parse? (s : String) : Option Json := do ofTokens? (← scan .between s.toList)

end FormSparsity.Json
