import KnowledgeGraph.Json.Basic

/-!
# Reading JSON text

Text is read in two steps. The first finds the form of the text, strictly by the JSON grammar, and
keeps repeated members, numbers too large for a double and unpaired surrogate escapes in place. The
second gives the value, which the latter two do not have and in which the last of repeated members
stays. A reader of records can thus skip a member it does not know without asking for its value.
-/

namespace KnowledgeGraph.Json

/-- The form of a JSON text. A number or text without a value stands as `none`. -/
inductive Source where
  /-- The word `null`. -/
  | null
  /-- One of the words `true` and `false`. -/
  | bool (value : Bool)
  /-- A number, without a value when a double cannot hold it. -/
  | number (value : Option Number)
  /-- A quoted text, without a value when it has an unpaired surrogate. -/
  | string (value : Option String)
  /-- Items in brackets. -/
  | array (items : List Source)
  /-- Members in braces, as often and in the order in which they are written. -/
  | object (members : List (Option String × Source))
  deriving Inhabited

/-- A piece of a quoted text: a character, or a code unit that a `\u` escape gives. -/
inductive Glyph where
  /-- A character that stands for itself or for which a short escape stands. -/
  | plain (c : Char)
  /-- A 16-bit code unit. -/
  | unit (code : Nat)

/-- The value of a hexadecimal digit. -/
def hexValue? (c : Char) : Option Nat :=
  if '0' ≤ c ∧ c ≤ '9' then some (c.toNat - '0'.toNat)
  else if 'a' ≤ c ∧ c ≤ 'f' then some (c.toNat - 'a'.toNat + 10)
  else if 'A' ≤ c ∧ c ≤ 'F' then some (c.toNat - 'A'.toNat + 10)
  else none

/-- The value of four hexadecimal digits. -/
def hexUnit? (a b c d : Char) : Option Nat := do
  some ((((← hexValue? a) * 16 + (← hexValue? b)) * 16 + (← hexValue? c)) * 16 + (← hexValue? d))

/-- The character for which a short escape stands. -/
def unescape? (c : Char) : Option Char :=
  if c = '"' ∨ c = '\\' ∨ c = '/' then some c
  else if c = 'n' then some '\n'
  else if c = 'r' then some '\r'
  else if c = 't' then some '\t'
  else if c = 'b' then some '\x08'
  else if c = 'f' then some '\x0c'
  else none

/-- The pieces up to the closing quote, and the rest behind it. Control characters must be
escaped. -/
def scanText : List Char → Option (List Glyph × List Char)
  | [] => none
  | '"' :: rest => some ([], rest)
  | '\\' :: 'u' :: a :: b :: c :: d :: rest => do
    let code ← hexUnit? a b c d
    let (glyphs, rest) ← scanText rest
    some (.unit code :: glyphs, rest)
  | '\\' :: c :: rest => do
    let plain ← unescape? c
    let (glyphs, rest) ← scanText rest
    some (.plain plain :: glyphs, rest)
  | c :: rest =>
    if c.toNat < 32 then none
    else do
      let (glyphs, rest) ← scanText rest
      some (.plain c :: glyphs, rest)

/-- The characters of a text's pieces. A leading surrogate and the trailing one right behind it make
one character; any other surrogate makes none. -/
def joinGlyphs : List Glyph → Option (List Char)
  | [] => some []
  | .plain c :: rest => (joinGlyphs rest).map (c :: ·)
  | .unit high :: .unit low :: rest =>
    if high < 0xD800 ∨ 0xDFFF < high then
      (joinGlyphs (.unit low :: rest)).map (Char.ofNat high :: ·)
    else if high ≤ 0xDBFF ∧ 0xDC00 ≤ low ∧ low ≤ 0xDFFF then
      (joinGlyphs rest).map (Char.ofNat (0x10000 + (high - 0xD800) * 0x400 + (low - 0xDC00)) :: ·)
    else none
  | .unit code :: rest =>
    if code < 0xD800 ∨ 0xDFFF < code then (joinGlyphs rest).map (Char.ofNat code :: ·) else none

/-- The parts of a written number. -/
structure Numeral where
  /-- Whether it starts with a minus sign. -/
  negative : Bool
  /-- The digits before the point. -/
  whole : List Nat
  /-- The digits behind the point, if there is one. -/
  fraction : Option (List Nat)
  /-- Whether the exponent is negative, and its digits, if there is one. -/
  exponent : Option (Bool × List Nat)

/-- The digits at the front of a text, and the rest. -/
def scanDigits : List Char → List Nat × List Char
  | [] => ([], [])
  | c :: rest =>
    if '0' ≤ c ∧ c ≤ '9' then
      let (digits, rest) := scanDigits rest
      ((c.toNat - '0'.toNat) :: digits, rest)
    else ([], c :: rest)

/-- At least one digit at the front of a text, and the rest. -/
def scanSomeDigits (text : List Char) : Option (List Nat × List Char) :=
  match scanDigits text with
  | ([], _) => none
  | found => some found

/-- The digits before the point: a zero alone, or digits that do not start with zero. -/
def scanWhole : List Char → Option (List Nat × List Char)
  | '0' :: rest => some ([0], rest)
  | text => scanSomeDigits text

/-- The digits behind a point, if a point is next. -/
def scanFraction : List Char → Option (Option (List Nat) × List Char)
  | '.' :: rest => (scanSomeDigits rest).map fun found => (some found.1, found.2)
  | text => some (none, text)

/-- The digits of an exponent behind its optional sign. -/
def scanSigned : List Char → Option ((Bool × List Nat) × List Char)
  | '+' :: rest => (scanSomeDigits rest).map fun found => ((false, found.1), found.2)
  | '-' :: rest => (scanSomeDigits rest).map fun found => ((true, found.1), found.2)
  | text => (scanSomeDigits text).map fun found => ((false, found.1), found.2)

/-- The exponent, if the letter of one is next. -/
def scanExponent : List Char → Option (Option (Bool × List Nat) × List Char)
  | 'e' :: rest => (scanSigned rest).map fun found => (some found.1, found.2)
  | 'E' :: rest => (scanSigned rest).map fun found => (some found.1, found.2)
  | text => some (none, text)

/-- A number without its sign. -/
def scanUnsigned (negative : Bool) (text : List Char) : Option (Numeral × List Char) := do
  let (whole, text) ← scanWhole text
  let (fraction, text) ← scanFraction text
  let (exponent, text) ← scanExponent text
  some ({ negative, whole, fraction, exponent }, text)

/-- A number at the front of a text, and the rest. -/
def scanNumber : List Char → Option (Numeral × List Char)
  | '-' :: rest => scanUnsigned true rest
  | text => scanUnsigned false text

namespace Numeral

/-- Appends digits to a number as long as it stays below `2 ^ 64`, and counts them. -/
def absorb : Nat → List Nat → Nat × Nat
  | value, [] => (value, 0)
  | value, digit :: digits =>
    if value * 10 + digit < Nat.pow 2 64 then
      let (value, count) := absorb (value * 10 + digit) digits
      (value, count + 1)
    else (value, 0)

/-- The largest exponent that is taken at its word. -/
def greatestExponent : Nat := Nat.pow 2 31 - 1

/-- The double of a number with a point, an exponent or too many digits. Digits that do not fit into
64 bits are not looked at, apart from their places before the point. -/
def double? (n : Numeral) : Option Number :=
  let (significand, count) := absorb 0 n.whole
  let (significand, places) := absorb significand (n.fraction.getD [])
  let shift : Int := (n.whole.length : Int) - count - places
  let (down, digits) := n.exponent.getD (false, [])
  let power : Nat := digits.foldl (fun value digit => value * 10 + digit) 0
  if greatestExponent < power then
    if significand ≠ 0 ∧ down = false then none
    else some (.double { Binary64.zero with negative := n.negative })
  else
    let exponent : Int := if down then shift - power else shift + power
    (Binary64.ofDecimal? n.negative significand exponent).map .double

/-- The value of a written number: an integer if it is written as one of 64 bits, else a double.
Negative zero is a double. -/
def number? (n : Numeral) : Option Number :=
  if n.fraction.isSome || n.exponent.isSome then n.double?
  else
    let value : Nat := n.whole.foldl (fun value digit => value * 10 + digit) 0
    if n.negative then
      if 0 < value ∧ value ≤ Nat.pow 2 63 then some (.integer (-value)) else n.double?
    else if value < Nat.pow 2 64 then some (.integer value)
    else n.double?

end Numeral

/-- Whether a character may stand between the parts of a text. -/
def isBlank (c : Char) : Bool := c = ' ' || c = '\n' || c = '\r' || c = '\t'

/-- The text behind its leading blanks. -/
def skipBlanks (text : List Char) : List Char := text.dropWhile isBlank

/-- A quoted text behind its opening quote. -/
def readQuoted (text : List Char) : Option (Option String × List Char) := do
  let (glyphs, rest) ← scanText text
  some ((joinGlyphs glyphs).map String.ofList, rest)

/-- The key of a member and the colon behind it. -/
def readKey (text : List Char) : Option (Option String × List Char) :=
  match skipBlanks text with
  | '"' :: rest => do
    let (key, rest) ← readQuoted rest
    match skipBlanks rest with
    | ':' :: rest => some (key, rest)
    | _ => none
  | _ => none

mutual

/-- The value at the front of a text, and the rest. -/
def readValue : Nat → List Char → Option (Source × List Char)
  | 0, _ => none
  | fuel + 1, text =>
    match skipBlanks text with
    | 'n' :: 'u' :: 'l' :: 'l' :: rest => some (.null, rest)
    | 't' :: 'r' :: 'u' :: 'e' :: rest => some (.bool true, rest)
    | 'f' :: 'a' :: 'l' :: 's' :: 'e' :: rest => some (.bool false, rest)
    | '"' :: rest => (readQuoted rest).map fun found => (.string found.1, found.2)
    | '[' :: rest =>
      match skipBlanks rest with
      | ']' :: rest => some (.array [], rest)
      | rest => (readItems fuel rest).map fun found => (.array found.1, found.2)
    | '{' :: rest =>
      match skipBlanks rest with
      | '}' :: rest => some (.object [], rest)
      | rest => (readMembers fuel rest).map fun found => (.object found.1, found.2)
    | text => (scanNumber text).map fun found => (.number found.1.number?, found.2)

/-- The items up to the closing bracket, of which there is at least one. -/
def readItems : Nat → List Char → Option (List Source × List Char)
  | 0, _ => none
  | fuel + 1, text => do
    let (item, rest) ← readValue fuel text
    match skipBlanks rest with
    | ',' :: rest => (readItems fuel rest).map fun found => (item :: found.1, found.2)
    | ']' :: rest => some ([item], rest)
    | _ => none

/-- The members up to the closing brace, of which there is at least one. -/
def readMembers : Nat → List Char → Option (List (Option String × Source) × List Char)
  | 0, _ => none
  | fuel + 1, text => do
    let (key, rest) ← readKey text
    let (value, rest) ← readValue fuel rest
    match skipBlanks rest with
    | ',' :: rest => (readMembers fuel rest).map fun found => ((key, value) :: found.1, found.2)
    | '}' :: rest => some ([(key, value)], rest)
    | _ => none

end

/-- The value at the front of a text, and the rest. Every step of the reader either takes a
character or enters the value behind one, so twice the length is fuel enough. -/
def readFront (text : String) : Option (Source × List Char) :=
  let chars := text.toList
  readValue (2 * chars.length + 2) chars

/-- The form of a text that holds one value and blanks around it. -/
def readSource (text : String) : Option Source := do
  let (source, rest) ← readFront text
  if (skipBlanks rest).isEmpty then some source else none

namespace Source

/-- How deep arrays and objects may stand in one another where values are asked for. -/
def greatestDepth : Nat := 127

mutual

/-- The value of a text's form, if all its parts have one and no more than the given number of
arrays and objects stand in one another. -/
def value? (depth : Nat) : Source → Option Json
  | .null => some .null
  | .bool value => some (.bool value)
  | .number value => value.map .number
  | .string value => value.map .string
  | .array items =>
    if depth = 0 then none else (itemValues? (depth - 1) items).map .array
  | .object members =>
    if depth = 0 then none
    else (memberValues? (depth - 1) members).map fun values => .ofDict (.ofList values)

/-- The values of the items of an array. -/
def itemValues? (depth : Nat) : List Source → Option (List Json)
  | [] => some []
  | item :: items => do some ((← value? depth item) :: (← itemValues? depth items))

/-- The values of the members of an object. -/
def memberValues? (depth : Nat) : List (Option String × Source) → Option (List (String × Json))
  | [] => some []
  | (key, value) :: members => do
    some ((← key, ← value? depth value) :: (← memberValues? depth members))

end

end Source

/-- The value of a text. -/
def read? (text : String) : Option Json := readSource text >>= Source.value? Source.greatestDepth

mutual

/-- The form of a text that has the given value. -/
def source : Json → Source
  | .null => .null
  | .bool value => .bool value
  | .number value => .number (some value)
  | .string value => .string (some value)
  | .array items => .array (itemSources items)
  | .object members => .object (memberSources members)

/-- The forms of items. -/
def itemSources : List Json → List Source
  | [] => []
  | item :: items => source item :: itemSources items

/-- The forms of members. -/
def memberSources : List (String × Json) → List (Option String × Source)
  | [] => []
  | (key, value) :: members => (some key, source value) :: memberSources members

end

end KnowledgeGraph.Json
