import FormSparsity.Json.Value

/-!
The tokens of a JSON text. Characters are taken in one at a time; a number or word ends before a
blank, a quote or a mark, and a string at the next quote that is not escaped.
-/
namespace FormSparsity.Json

/-! ## Numbers and words -/

/-- The rest after one or more digits. -/
def skipDigits (cs : List Char) : Option (List Char) :=
  if (cs.takeWhile Char.isDigit).isEmpty then none else some (cs.dropWhile Char.isDigit)

/-- The rest after a fraction, if there is one. -/
def skipFraction : List Char → Option (List Char)
  | '.' :: cs => skipDigits cs
  | cs => some cs

/-- The rest after an exponent, if there is one. -/
def skipExponent : List Char → Option (List Char)
  | 'e' :: cs | 'E' :: cs =>
    match cs with
    | '+' :: cs | '-' :: cs => skipDigits cs
    | cs => skipDigits cs
  | cs => some cs

/-- The number that digits, and a fraction and exponent after them, denote. -/
def readUnsigned (negative : Bool) (cs : List Char) : Option Scalar :=
  let whole := cs.takeWhile Char.isDigit
  let rest := cs.dropWhile Char.isDigit
  if whole.isEmpty || (whole.head? = some '0' && whole.length > 1) then
    none
  else if rest.isEmpty then
    let n := Nat.ofDigitChars 10 whole 0
    some (.number (if negative then (if n = 0 then none else some (-n)) else some n))
  else if (skipFraction rest >>= skipExponent) = some [] then
    some (.number none)
  else
    none

/-- The value that a word or number denotes. -/
def readWord (cs : List Char) : Option Scalar :=
  if cs = "null".toList then some .null
  else if cs = "true".toList then some (.bool true)
  else if cs = "false".toList then some (.bool false)
  else
    match cs with
    | '-' :: cs => readUnsigned true cs
    | cs => readUnsigned false cs

/-! ## Strings -/

/-- The value of a hexadecimal digit of either case. -/
def hexValue (c : Char) : Option Nat :=
  if c.isDigit then some (c.toNat - '0'.toNat)
  else if 'a' ≤ c ∧ c ≤ 'f' then some (c.toNat - 'a'.toNat + 10)
  else if 'A' ≤ c ∧ c ≤ 'F' then some (c.toNat - 'A'.toNat + 10)
  else none

/-- The character that an escape of one letter stands for. -/
def escaped (c : Char) : Option Char :=
  match c with
  | '"' => some '"'
  | '\\' => some '\\'
  | '/' => some '/'
  | 'b' => some '\x08'
  | 'f' => some '\x0c'
  | 'n' => some '\n'
  | 'r' => some '\r'
  | 't' => some '\t'
  | _ => none

/-- The code units and characters of the inside of a string. -/
def unescape : List Char → Option (List Nat)
  | [] => some []
  | '\\' :: 'u' :: a :: b :: c :: d :: cs => do
    let code := 4096 * (← hexValue a) + 256 * (← hexValue b) + 16 * (← hexValue c) + (← hexValue d)
    return code :: (← unescape cs)
  | '\\' :: c :: cs => do
    return (← escaped c).toNat :: (← unescape cs)
  | ['\\'] => none
  | c :: cs => do
    return c.toNat :: (← unescape cs)

/-- Whether a code unit is the first half of a surrogate pair. -/
def isHighSurrogate (n : Nat) : Bool := 0xd800 ≤ n && n ≤ 0xdbff

/-- Whether a code unit is the second half of a surrogate pair. -/
def isLowSurrogate (n : Nat) : Bool := 0xdc00 ≤ n && n ≤ 0xdfff

/-- The characters of a string, with surrogate pairs joined. -/
def joinSurrogates : List Nat → Option (List Char)
  | [] => some []
  | [n] => if isHighSurrogate n || isLowSurrogate n then none else some [Char.ofNat n]
  | n :: k :: units =>
    if isHighSurrogate n && isLowSurrogate k then
      (Char.ofNat (0x10000 + 0x400 * (n - 0xd800) + (k - 0xdc00)) :: ·) <$> joinSurrogates units
    else if isHighSurrogate n || isLowSurrogate n then
      none
    else
      (Char.ofNat n :: ·) <$> joinSurrogates (k :: units)

/-- The string with a given inside. -/
def readString (cs : List Char) : Option Scalar := do
  return .string ((joinSurrogates (← unescape cs)).map String.ofList)

/-! ## Tokens -/

/-- Where in a token a text has been read to. Characters taken in are held last one first. -/
inductive Mode where
  /-- Between tokens. -/
  | between
  /-- In a number or word. -/
  | word (taken : List Char)
  /-- In a string, just after a backslash or not. -/
  | string (taken : List Char) (afterBackslash : Bool)

/-- The token that a character is by itself. -/
def Token.ofChar? : Char → Option Token
  | '[' => some .leftBracket
  | ']' => some .rightBracket
  | '\x7b' => some .leftBrace
  | '\x7d' => some .rightBrace
  | ',' => some .comma
  | ':' => some .colon
  | _ => none

/-- Blanks, of which there are four. -/
def isBlank (c : Char) : Bool := c = ' ' || c = '\n' || c = '\t' || c = '\r'

/-- The tokens that end before or at a character between tokens, and where that leads to. -/
def Mode.start (c : Char) : List Token × Mode :=
  if isBlank c then ([], between)
  else if c = '"' then ([], string [] false)
  else
    match Token.ofChar? c with
    | some token => ([token], between)
    | none => ([], word [c])

/-- Whether a number or word ends before a character. -/
def endsWord (c : Char) : Bool := isBlank c || c = '"' || (Token.ofChar? c).isSome

/-- Takes in one character. -/
def Mode.step : Mode → Char → Option (List Token × Mode)
  | between, c => some (start c)
  | word taken, c =>
    if endsWord c then do
      let value ← readWord taken.reverse
      let (tokens, mode) := start c
      return (.scalar value :: tokens, mode)
    else
      some ([], word (c :: taken))
  | string taken true, c => if c.toNat < 0x20 then none else some ([], string (c :: taken) false)
  | string taken false, c =>
    if c.toNat < 0x20 then none
    else if c = '"' then do
      return ([.scalar (← readString taken.reverse)], between)
    else
      some ([], string (c :: taken) (c = '\\'))

/-- The token that the end of the text completes. -/
def Mode.finish : Mode → Option (List Token)
  | between => some []
  | word taken => do return [.scalar (← readWord taken.reverse)]
  | string .. => none

/-- The tokens of a text that is read on from some mode. -/
def scan : Mode → List Char → Option (List Token)
  | mode, [] => mode.finish
  | mode, c :: cs => do
    let (tokens, mode) ← mode.step c
    return tokens ++ (← scan mode cs)

end FormSparsity.Json
