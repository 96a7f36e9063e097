/-! # Reading JSON text

A strict reader: one value, blanks only where the grammar has them, no comments and no trailing commas.
Of a number only its value is kept, and only if it is written as a natural number. Text may escape lone
halves of surrogate pairs; such text is not a string and has no value. -/

namespace ReplicaGroup.Config

/-- A JSON value. -/
inductive Json where
  | null
  | bool (value : Bool)
  /-- A number, with its value if it is written with digits only. -/
  | number (natural? : Option Nat)
  /-- A text, unless it holds half a surrogate pair. -/
  | text (value? : Option String)
  | array (items : List Json)
  | object (fields : List (Option String × Json))

namespace Json

/-- The characters that may stand between tokens. -/
def isBlank (c : Char) : Bool := c = ' ' ∨ c = '\t' ∨ c = '\n' ∨ c = '\r'

/-- The text from its first token on. -/
def trim (cs : List Char) : List Char := cs.dropWhile isBlank

/-! ### Text -/

/-- The value of a hexadecimal digit of either case. -/
def hexDigit? (c : Char) : Option Nat :=
  if c.isDigit then some (c.toNat - '0'.toNat)
  else if 'a' ≤ c ∧ c ≤ 'f' then some (c.toNat - 'a'.toNat + 10)
  else if 'A' ≤ c ∧ c ≤ 'F' then some (c.toNat - 'A'.toNat + 10)
  else none

/-- The value of hexadecimal digits. -/
def hexValue? (cs : List Char) : Option Nat :=
  cs.foldlM (fun n c => (hexDigit? c).map (16 * n + ·)) 0

/-- What a backslash followed by this character stands for. -/
def escaped? : Char → Option Nat
  | '"' => some 34
  | '\\' => some 92
  | '/' => some 47
  | 'b' => some 8
  | 'f' => some 12
  | 'n' => some 10
  | 'r' => some 13
  | 't' => some 9
  | _ => none

/-- The code units of a text up to its closing quote, and what follows the quote. A character counts as
    one unit; an escape of four digits is the unit it names. -/
def units? : List Char → Option (List Nat × List Char)
  | [] => none
  | '"' :: rest => some ([], rest)
  | '\\' :: 'u' :: a :: b :: c :: d :: rest => do
    let unit ← hexValue? [a, b, c, d]
    let (units, rest) ← units? rest
    return (unit :: units, rest)
  | '\\' :: c :: rest => do
    let unit ← escaped? c
    let (units, rest) ← units? rest
    return (unit :: units, rest)
  | c :: rest => do
    if c.toNat < 32 then none
    let (units, rest) ← units? rest
    return (c.toNat :: units, rest)

/-- Whether a unit is the first half of a surrogate pair. -/
def isHigh (n : Nat) : Bool := 0xD800 ≤ n ∧ n < 0xDC00

/-- Whether a unit is the second half of a surrogate pair. -/
def isLow (n : Nat) : Bool := 0xDC00 ≤ n ∧ n < 0xE000

/-- The characters that units stand for, with surrogate pairs joined. -/
def chars? : List Nat → Option (List Char)
  | [] => some []
  | [n] => if isHigh n || isLow n then none else some [Char.ofNat n]
  | m :: n :: rest =>
    if isHigh m then
      if isLow n then
        (chars? rest).map (Char.ofNat (0x10000 + (m - 0xD800) * 0x400 + (n - 0xDC00)) :: ·)
      else none
    else if isLow m then none
    else (chars? (n :: rest)).map (Char.ofNat m :: ·)

/-- A text after its opening quote. -/
def text? (cs : List Char) : Option (Option String × List Char) := do
  let (units, rest) ← units? cs
  return ((chars? units).map String.ofList, rest)

/-! ### Numbers -/

/-- One or more digits. -/
def digits? (cs : List Char) : Option (List Char × List Char) :=
  match cs.takeWhile Char.isDigit with
  | [] => none
  | ds => some (ds, cs.dropWhile Char.isDigit)

/-- Digits without a superfluous leading zero. -/
def integer? (cs : List Char) : Option (List Char × List Char) :=
  match digits? cs with
  | some ('0' :: _ :: _, _) => none
  | r => r

/-- Skips a fraction, if there is one; answers whether there is. -/
def fraction? : List Char → Option (Bool × List Char)
  | '.' :: rest => (digits? rest).map fun r => (true, r.2)
  | rest => some (false, rest)

/-- Skips an exponent, if there is one; answers whether there is. -/
def exponent? : List Char → Option (Bool × List Char)
  | c :: rest =>
    if c = 'e' ∨ c = 'E' then
      (digits? (match rest with
        | '+' :: r | '-' :: r => r
        | r => r)).map fun r => (true, r.2)
    else some (false, c :: rest)
  | [] => some (false, [])

/-- A number, signed or not. -/
def number? (cs : List Char) : Option (Option Nat × List Char) := do
  let (signed, cs) := match cs with
    | '-' :: rest => (true, rest)
    | rest => (false, rest)
  let (digits, rest) ← integer? cs
  let (fractional, rest) ← fraction? rest
  let (scaled, rest) ← exponent? rest
  let value := digits.foldl (fun n c => 10 * n + (c.toNat - '0'.toNat)) 0
  return (if signed || fractional || scaled then none else some value, rest)

/-! ### Values -/

mutual

/-- A value, with nesting up to `fuel`. -/
def value? : Nat → List Char → Option (Json × List Char)
  | 0, _ => none
  | fuel + 1, cs =>
    match trim cs with
    | 'n' :: 'u' :: 'l' :: 'l' :: rest => some (.null, rest)
    | 't' :: 'r' :: 'u' :: 'e' :: rest => some (.bool true, rest)
    | 'f' :: 'a' :: 'l' :: 's' :: 'e' :: rest => some (.bool false, rest)
    | '"' :: rest => (text? rest).map fun r => (.text r.1, r.2)
    | '[' :: rest =>
      match trim rest with
      | ']' :: rest => some (.array [], rest)
      | rest => (items? fuel rest).map fun r => (.array r.1, r.2)
    | '\x7b' :: rest =>
      match trim rest with
      | '\x7d' :: rest => some (.object [], rest)
      | rest => (fields? fuel rest).map fun r => (.object r.1, r.2)
    | rest => (number? rest).map fun r => (.number r.1, r.2)

/-- The items of an array, through its closing bracket. -/
def items? : Nat → List Char → Option (List Json × List Char)
  | 0, _ => none
  | fuel + 1, cs => do
    let (item, rest) ← value? fuel cs
    match trim rest with
    | ',' :: rest => do
      let (items, rest) ← items? fuel rest
      return (item :: items, rest)
    | ']' :: rest => return ([item], rest)
    | _ => none

/-- The fields of an object, through its closing brace. -/
def fields? : Nat → List Char → Option (List (Option String × Json) × List Char)
  | 0, _ => none
  | fuel + 1, cs => do
    let '"' :: rest := trim cs | none
    let (name?, rest) ← text? rest
    let ':' :: rest := trim rest | none
    let (value, rest) ← value? fuel rest
    match trim rest with
    | ',' :: rest => do
      let (fields, rest) ← fields? fuel rest
      return ((name?, value) :: fields, rest)
    | '\x7d' :: rest => return ([(name?, value)], rest)
    | _ => none

end

/-- The value that a text consists of. A value nests no deeper than twice the length of its text. -/
def parse? (text : String) : Option Json := do
  let cs := text.toList
  let (value, rest) ← value? (2 * cs.length + 1) cs
  if (trim rest).isEmpty then some value else none

end Json
end ReplicaGroup.Config
