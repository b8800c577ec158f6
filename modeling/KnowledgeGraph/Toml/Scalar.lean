import KnowledgeGraph.Toml.Value

/-!
# TOML scalars

Texts stand between one or three quotes, either of which kind may be literal. All other scalars are
words: the longest run of characters that numbers, truth values, dates and times are written with.
What a word denotes is decided from the whole of it.
-/

namespace KnowledgeGraph.Toml

/-- Whether a character may stand in a line: a tab, or no control character. -/
def isPlain (c : Char) : Bool := c = '\t' || (32 ≤ c.toNat && c.toNat ≠ 127)

/-- Whether a character may stand between the parts of a line. -/
def isBlank (c : Char) : Bool := c = ' ' || c = '\t'

/-- The character of a code point given in hexadecimal. Surrogates have none. -/
def codePoint? (digits : List Char) : Option Char := do
  let code ← digits.foldlM (fun code c => do some (code * 16 + (← Json.hexValue? c))) 0
  if h : code.isValidChar then some (Char.ofNatAux code h) else none

/-- The character for which a short escape stands. -/
def unescape? (c : Char) : Option Char :=
  if c = '"' ∨ c = '\\' then some c
  else if c = 'b' then some '\x08'
  else if c = 't' then some '\t'
  else if c = 'n' then some '\n'
  else if c = 'f' then some '\x0c'
  else if c = 'r' then some '\r'
  else none

/-- Puts a character before what was scanned behind it. -/
def before (c : Char) (found : List Char × List Char) : List Char × List Char :=
  (c :: found.1, found.2)

/-- A text up to its closing quote, and the rest behind it. -/
def scanBasic : List Char → Option (List Char × List Char)
  | [] => none
  | '"' :: rest => some ([], rest)
  | '\\' :: 'u' :: a :: b :: c :: d :: rest => do
    let plain ← codePoint? [a, b, c, d]
    (scanBasic rest).map (before plain)
  | '\\' :: 'U' :: a :: b :: c :: d :: e :: f :: g :: h :: rest => do
    let plain ← codePoint? [a, b, c, d, e, f, g, h]
    (scanBasic rest).map (before plain)
  | '\\' :: c :: rest => do
    let plain ← unescape? c
    (scanBasic rest).map (before plain)
  | c :: rest => if isPlain c then (scanBasic rest).map (before c) else none

/-- A literal text up to its closing quote, and the rest behind it. -/
def scanLiteral : List Char → Option (List Char × List Char)
  | [] => none
  | '\'' :: rest => some ([], rest)
  | c :: rest => if isPlain c then (scanLiteral rest).map (before c) else none

/-- Whether a backslash before this text ends a line: only blanks are left of it. -/
def endsLine (text : List Char) : Bool :=
  match text.dropWhile isBlank with
  | '\n' :: _ => true
  | '\r' :: '\n' :: _ => true
  | _ => false

/-- A text of several lines up to its three closing quotes, before which up to two more belong to the
text. A backslash at the end of a line takes all blanks and line ends behind it away; these are
skipped while `trimming`. -/
def scanLines (trimming : Bool) : List Char → Option (List Char × List Char)
  | [] => none
  | '"' :: '"' :: '"' :: '"' :: '"' :: rest => some (['"', '"'], rest)
  | '"' :: '"' :: '"' :: '"' :: rest => some (['"'], rest)
  | '"' :: '"' :: '"' :: rest => some ([], rest)
  | '\\' :: 'u' :: a :: b :: c :: d :: rest => do
    let plain ← codePoint? [a, b, c, d]
    (scanLines false rest).map (before plain)
  | '\\' :: 'U' :: a :: b :: c :: d :: e :: f :: g :: h :: rest => do
    let plain ← codePoint? [a, b, c, d, e, f, g, h]
    (scanLines false rest).map (before plain)
  | '\\' :: c :: rest =>
    if endsLine (c :: rest) then scanLines true (c :: rest)
    else do
      let plain ← unescape? c
      (scanLines false rest).map (before plain)
  | '\r' :: '\n' :: rest =>
    if trimming then scanLines true rest else (scanLines false rest).map (before '\n')
  | c :: rest =>
    if c = '\n' ∨ isBlank c then
      if trimming then scanLines true rest else (scanLines false rest).map (before c)
    else if isPlain c then (scanLines false rest).map (before c)
    else none

/-- A literal text of several lines up to its three closing quotes, before which up to two more
belong to the text. -/
def scanLiteralLines : List Char → Option (List Char × List Char)
  | [] => none
  | '\'' :: '\'' :: '\'' :: '\'' :: '\'' :: rest => some (['\'', '\''], rest)
  | '\'' :: '\'' :: '\'' :: '\'' :: rest => some (['\''], rest)
  | '\'' :: '\'' :: '\'' :: rest => some ([], rest)
  | '\r' :: '\n' :: rest => (scanLiteralLines rest).map (before '\n')
  | c :: rest => if c = '\n' ∨ isPlain c then (scanLiteralLines rest).map (before c) else none

/-- The text behind a line end right at its start. -/
def dropLineEnd : List Char → List Char
  | '\n' :: rest => rest
  | '\r' :: '\n' :: rest => rest
  | text => text

/-- A text at the front, of one line or several, and the rest. -/
def scanText : List Char → Option (List Char × List Char)
  | '"' :: '"' :: '"' :: rest => scanLines false (dropLineEnd rest)
  | '"' :: rest => scanBasic rest
  | '\'' :: '\'' :: '\'' :: rest => scanLiteralLines (dropLineEnd rest)
  | '\'' :: rest => scanLiteral rest
  | _ => none

/-- The digits of a number in a base. Single underscores may stand between digits. -/
def digitRun? (base : Nat) : List Char → Option (List Nat)
  | [] => none
  | [c] => do
    let digit ← Json.hexValue? c
    if digit < base then some [digit] else none
  | c :: '_' :: rest => do
    let digit ← Json.hexValue? c
    if digit < base then (digitRun? base rest).map (digit :: ·) else none
  | c :: rest => do
    let digit ← Json.hexValue? c
    if digit < base then (digitRun? base rest).map (digit :: ·) else none

/-- The number with the given digits in a base. -/
def ofDigits (base : Nat) (digits : List Nat) : Nat :=
  digits.foldl (fun value digit => value * base + digit) 0

/-- An integer, if it fits into 64 bits with a sign. -/
def integer? (value : Int) : Option Value :=
  if -(Nat.pow 2 63 : Int) ≤ value ∧ value < Nat.pow 2 63 then some (.integer value) else none

/-- The digits of a decimal integer, which has no leading zero. -/
def wholeRun? (word : List Char) : Option (List Nat) := do
  match ← digitRun? 10 word with
  | 0 :: _ :: _ => none
  | digits => some digits

/-- The sign at the front of a word, if any, and the rest. -/
def splitSign : List Char → Bool × List Char
  | '+' :: rest => (false, rest)
  | '-' :: rest => (true, rest)
  | word => (false, word)

/-- The exponent of the powers of ten that are beyond the doubles in either direction. -/
def farExponent : Int := 400

/-- The float of decimal digits times a power of ten, the nearest double. One that is too large is
refused when it is positive and infinite when it is negative. -/
def float? (negative : Bool) (digits : List Nat) (exponent : Int) : Option Value :=
  let significand := ofDigits 10 digits
  let signed (x : Binary64) : Binary64 := { x with negative }
  let tooLarge : Option Value := if negative then some (.float none) else none
  if significand = 0 ∨ exponent + digits.length < -farExponent then
    some (.float (some (signed .zero)))
  else if farExponent < exponent + (toString significand).length then tooLarge
  else
    let value := if 0 ≤ exponent then Binary64.ofFraction? (significand * Nat.pow 10 exponent.toNat) 1
      else Binary64.ofFraction? significand (Nat.pow 10 (-exponent).toNat)
    match value with
    | some x => some (.float (some (signed x)))
    | none => tooLarge

/-- A word before and behind the first character that passes a test, if there is one. -/
def splitAt? (p : Char → Bool) (word : List Char) : Option (List Char × List Char) :=
  match word.span fun c => !p c with
  | (front, _ :: back) => some (front, back)
  | (_, []) => none

/-- A decimal number without its sign. It is a float when it has a point or an exponent. -/
def decimal? (negative : Bool) (word : List Char) : Option Value := do
  let (mantissa, power) ← match splitAt? (fun c => c = 'e' || c = 'E') word with
    | none => some (word, none)
    | some (mantissa, power) => do
      let (down, word) := splitSign power
      let power := ofDigits 10 (← digitRun? 10 word)
      some (mantissa, some (if down then -(power : Int) else (power : Int)))
  match splitAt? (· = '.') mantissa, power with
  | none, none =>
    let value := ofDigits 10 (← wholeRun? mantissa)
    integer? (if negative then -(value : Int) else value)
  | none, some power => float? negative (← wholeRun? mantissa) power
  | some (whole, fraction), power =>
    let whole ← wholeRun? whole
    let fraction ← digitRun? 10 fraction
    float? negative (whole ++ fraction) (power.getD 0 - fraction.length)

/-- The number that a word denotes. -/
def number? : List Char → Option Value
  | '0' :: 'x' :: word => (digitRun? 16 word).bind fun digits => integer? (ofDigits 16 digits)
  | '0' :: 'o' :: word => (digitRun? 8 word).bind fun digits => integer? (ofDigits 8 digits)
  | '0' :: 'b' :: word => (digitRun? 2 word).bind fun digits => integer? (ofDigits 2 digits)
  | word =>
    let (negative, word) := splitSign word
    if word = ['i', 'n', 'f'] ∨ word = ['n', 'a', 'n'] then some (.float none)
    else decimal? negative word

/-- The number of two digits, if it is in a range. -/
def twoDigits? (tens ones : Char) (least greatest : Nat) : Option Nat :=
  if tens.isDigit && ones.isDigit then
    let value := 10 * (tens.toNat - '0'.toNat) + (ones.toNat - '0'.toNat)
    if least ≤ value ∧ value ≤ greatest then some value else none
  else none

/-- The number of days of a month. -/
def daysOf (year month : Nat) : Nat :=
  if month = 2 then
    if year % 4 = 0 ∧ (year % 100 ≠ 0 ∨ year % 400 = 0) then 29 else 28
  else if month = 4 ∨ month = 6 ∨ month = 9 ∨ month = 11 then 30
  else 31

/-- What is behind a date at the front of a word. -/
def afterDate? : List Char → Option (List Char)
  | a :: b :: c :: d :: '-' :: m :: n :: '-' :: e :: f :: rest => do
    let century ← twoDigits? a b 0 99
    let year ← twoDigits? c d 0 99
    let month ← twoDigits? m n 1 12
    let _ ← twoDigits? e f 1 (daysOf (100 * century + year) month)
    some rest
  | _ => none

/-- What is behind a time of day at the front of a word. Seconds may be leap seconds and have a
fraction. -/
def afterTime? : List Char → Option (List Char)
  | a :: b :: ':' :: c :: d :: ':' :: e :: f :: rest => do
    let _ ← twoDigits? a b 0 23
    let _ ← twoDigits? c d 0 59
    let _ ← twoDigits? e f 0 60
    match rest with
    | '.' :: c :: rest => if c.isDigit then some (rest.dropWhile Char.isDigit) else none
    | '.' :: [] => none
    | rest => some rest
  | _ => none

/-- Whether a word is an offset from universal time, or nothing. -/
def isOffset : List Char → Bool
  | [] => true
  | ['Z'] => true
  | ['z'] => true
  | [sign, a, b, ':', c, d] =>
    (sign = '+' || sign = '-') && (twoDigits? a b 0 23).isSome && (twoDigits? c d 0 59).isSome
  | _ => false

/-- Whether a word is a time of day with an offset or without one. -/
def isZonedTime (word : List Char) : Bool := (afterTime? word).any isOffset

/-- Whether a word is a date alone. -/
def isDate (word : List Char) : Bool := (afterDate? word).any List.isEmpty

/-- The moment that a word denotes. -/
def moment? (word : List Char) : Option Value :=
  let fits := match afterDate? word with
    | some [] => true
    | some (mark :: time) => (mark = 'T' || mark = 't') && isZonedTime time
    | none => (afterTime? word).any List.isEmpty
  if fits then some (.moment (String.ofList word)) else none

/-- Whether a character belongs to a word. -/
def isWordChar (c : Char) : Bool :=
  c.isAlphanum || c = '+' || c = '-' || c = '.' || c = ':' || c = '_'

/-- What a word denotes. -/
def wordValue? (word : List Char) : Option Value :=
  if word = ['t', 'r', 'u', 'e'] then some (.boolean true)
  else if word = ['f', 'a', 'l', 's', 'e'] then some (.boolean false)
  else (moment? word).or (number? word)

/-- The value of the word at the front of a text, and the rest. A blank may stand between a date and
its time of day. -/
def scanWord (text : List Char) : Option (Value × List Char) :=
  let (word, rest) := text.span isWordChar
  match isDate word, rest with
  | true, ' ' :: rest =>
    let (time, behind) := rest.span isWordChar
    if time.isEmpty then some (.moment (String.ofList word), ' ' :: rest)
    else if isZonedTime time then
      some (.moment (String.ofList (word ++ ' ' :: time)), behind)
    else none
  | _, rest => (wordValue? word).map fun value => (value, rest)

end KnowledgeGraph.Toml
