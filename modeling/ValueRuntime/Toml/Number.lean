import ValueRuntime.Text.Bytes

/-! # Numbers and dates in TOML

    The settings of a project hold no numbers and no dates, but a document may. This module
    finds where a number or date ends and whether it is well written; its value is not kept.
-/

namespace ValueRuntime.Toml

/-- A decimal digit. -/
def isDigit (c : Char) : Bool := '0' ≤ c && c ≤ '9'

/-- A hexadecimal digit. -/
def isHexDigit (c : Char) : Bool :=
  isDigit c || ('a' ≤ c && c ≤ 'f') || ('A' ≤ c && c ≤ 'F')

/-- The value of a digit in any base up to sixteen. -/
def digitValue (c : Char) : Nat :=
  if isDigit c then c.toNat - 48
  else if 'a' ≤ c then c.toNat - 87
  else c.toNat - 55

/-- The number that digits stand for. -/
def digitsValue (base : Nat) (digits : List Char) : Nat :=
  digits.foldl (fun n c => n * base + digitValue c) 0

/-! ## Integers -/

/-- Whether each underscore follows a digit and the last character is a digit.
    `afterDigit` says what stands before the text. -/
def underscoresFit (afterDigit : Bool) : List Char → Bool
  | [] => afterDigit
  | c :: rest => (c != '_' || afterDigit) && underscoresFit (isHexDigit c) rest

/-- Whether a run of digits starts with a zero that it should not have. -/
def hasLeadingZero (digits : List Char) : Bool := 1 < digits.length && digits.head? == some '0'

/-- Digits without the underscores between them. -/
def plain (digits : List Char) : List Char := digits.filter (· != '_')

/-- Whether an integer is well written and fits in 64 bits with a sign. -/
def isInteger (negative : Bool) (base : Nat) (digits : List Char) : Bool :=
  underscoresFit false digits
    && digitsValue base (plain digits) < 0x8000000000000000 + (if negative then 1 else 0)

/-! ## Floats -/

/-- Whether a decimal with given digits and power of ten is in the range of numbers: one that
    rounds to infinity is not. -/
def isInRange (digits : List Char) (scale : Int) : Bool :=
  let m := digitsValue 10 digits
  let top := ((Nat.toDigits 10 m).length : Int) + scale
  let limit := Nat.pow 2 1024 - Nat.pow 2 970
  if m == 0 || top < 309 then true
  else if 309 < top then false
  else if 0 ≤ scale then m * Nat.pow 10 scale.toNat < limit
  else m < limit * Nat.pow 10 (-scale).toNat

/-- The exponent that digits stand for. From ten thousand on no further digit counts. -/
def exponentValue (digits : List Char) : Nat :=
  digits.foldl (fun n c => if n < 10000 then n * 10 + digitValue c else n) 0

/-- The sign that may stand before digits, and what follows. -/
def sign : List Char → Bool × List Char
  | '-' :: rest => (true, rest)
  | '+' :: rest => (false, rest)
  | rest => (false, rest)

/-- The parts of a float between its point and its exponent mark. -/
def floatParts : List Char → List (List Char)
  | [] => [[]]
  | c :: rest =>
    if c == '.' || c == 'e' || c == 'E' then [] :: floatParts rest
    else match floatParts rest with
      | [] => [[c]]
      | part :: more => (c :: part) :: more

/-- Whether a float without sign is well written: digits, a point with digits after it, an
    exponent. -/
def isFloat (token : List Char) : Bool :=
  let parts := (floatParts token).filter (!·.isEmpty)
  let (whole, afterWhole) := (plain token).span isDigit
  let (fraction, afterFraction) := match afterWhole with
    | '.' :: rest => rest.span isDigit
    | rest => ([], rest)
  let pointFits := afterWhole.head? != some '.' || !fraction.isEmpty
  let fits (exponent : Int) : Bool := isInRange (whole ++ fraction) (exponent - fraction.length)
  let exponentFits := match afterFraction with
    | [] => fits 0
    | mark :: rest =>
      let (negative, digits) := sign rest
      let exponent : Int := exponentValue digits
      (mark == 'e' || mark == 'E') && !digits.isEmpty && digits.all isDigit
        && fits (if negative then -exponent else exponent)
  parts.all (underscoresFit false) && !hasLeadingZero (parts.head?.getD [])
    && !whole.isEmpty && pointFits && exponentFits

/-! ## Dates and times -/

/-- Reads a number of exactly `width` digits within bounds. -/
def field? (width low high : Nat) (cs : List Char) : Option (Nat × List Char) :=
  let digits := cs.take width
  let n := digitsValue 10 digits
  if digits.length == width && digits.all isDigit && low ≤ n && n ≤ high then
    some (n, cs.drop width)
  else none

/-- Reads one given character. -/
def mark? (c : Char) : List Char → Option (List Char)
  | d :: rest => if c == d then some rest else none
  | [] => none

/-- The number of days of a month. -/
def daysIn (year month : Nat) : Nat :=
  if month == 2 then
    if year % 4 == 0 && (year % 100 != 0 || year % 400 == 0) then 29 else 28
  else if [4, 6, 9, 11].contains month then 30
  else 31

/-- Reads a date such as `2024-02-29`. -/
def date? (cs : List Char) : Option (List Char) := do
  let (year, cs) ← field? 4 0 9999 cs
  let (month, cs) ← field? 2 1 12 (← mark? '-' cs)
  let (_, cs) ← field? 2 1 (daysIn year month) (← mark? '-' cs)
  return cs

/-- Reads a time of day such as `07:32` or `07:32:05.25`. -/
def time? (cs : List Char) : Option (List Char) := do
  let (_, cs) ← field? 2 0 23 cs
  let (_, cs) ← field? 2 0 59 (← mark? ':' cs)
  match mark? ':' cs with
  | none => return cs
  | some cs =>
    let (_, cs) ← field? 2 0 59 cs
    match mark? '.' cs with
    | none => return cs
    | some fraction =>
      let (digits, rest) := fraction.span isDigit
      if digits.isEmpty then none else return rest

/-- Reads the offset of a zone, which may be absent. -/
def zone? (cs : List Char) : Option (List Char) :=
  match cs with
  | 'Z' :: rest => some rest
  | c :: rest =>
    if c == '+' || c == '-' then do
      let (_, rest) ← field? 2 0 24 rest
      let (_, rest) ← field? 2 0 60 (← mark? ':' rest)
      return rest
    else some cs
  | [] => some []

/-- Letters in upper case, and `T` for the blank between a date and a time. -/
def dateCharacter (c : Char) : Char :=
  if c == 'z' then 'Z' else if c == 't' || c == ' ' then 'T' else c

/-- Whether a token is a date, a time, or a date with a time and perhaps a zone. -/
def isDateTime (token : List Char) : Bool :=
  let cs := token.map dateCharacter
  let dated := match date? cs with
    | none => false
    | some [] => true
    | some rest => ((mark? 'T' rest).bind time?).bind zone? == some []
  dated || time? cs == some []

/-! ## Tokens -/

/-- The characters that may stand in a date. -/
def isDateCharacter (c : Char) : Bool :=
  isDigit c || ['-', ':', 'T', 't', ' ', '.', 'Z', 'z', '+'].contains c

/-- The characters that may stand in a float. -/
def isFloatCharacter (c : Char) : Bool :=
  isDigit c || ['_', '.', '-', '+', 'e', 'E'].contains c

/-- A text without the blanks at its end. -/
def trimRight (cs : List Char) : List Char := (cs.reverse.dropWhile (· == ' ')).reverse

/-- The rest after a token that has to be well written. -/
def after (wellWritten : Bool) (rest : List Char) : Option (List Char) :=
  if wellWritten then some rest else none

/-- Reads an integer in a given base, without its mark. -/
def basedInteger? (base : Nat) (cs : List Char) : Option (List Char) :=
  let (digits, rest) := cs.span fun c => c == '_' || (isHexDigit c && digitValue c < base)
  after (isInteger false base digits) rest

/-- Reads a decimal integer or a float after its sign. -/
def decimal? (negative : Bool) (cs : List Char) : Option (List Char) :=
  let (whole, rest) := cs.span fun c => isDigit c || c == '_'
  match rest with
  | c :: _ =>
    if c == '.' || c == 'e' || c == 'E' then
      let (more, rest) := rest.span isFloatCharacter
      after (whole.head?.any isDigit && isFloat (whole ++ more)) rest
    else after (isInteger negative 10 whole && !hasLeadingZero whole) rest
  | [] => after (isInteger negative 10 whole && !hasLeadingZero whole) []

/-- **Reads a number or date** that starts with a digit and returns what follows it. -/
def number? (cs : List Char) : Option (List Char) :=
  match cs with
  | '0' :: 'x' :: rest => basedInteger? 16 rest
  | '0' :: 'o' :: rest => basedInteger? 8 rest
  | '0' :: 'b' :: rest => basedInteger? 2 rest
  | _ =>
    match (cs.dropWhile isDigit).head? with
    | some '-' | some ':' =>
      let (token, rest) := cs.span isDateCharacter
      after (isDateTime (trimRight token)) rest
    | _ => decimal? false cs

/-- What follows a word at the start of a text. -/
def word? (word : List Char) (cs : List Char) : Option (List Char) :=
  if word.isPrefixOf cs then some (cs.drop word.length) else none

/-- Reads the words for infinity and for no number. -/
def special? (cs : List Char) : Option (List Char) :=
  (word? ['i', 'n', 'f'] cs).orElse fun _ => word? ['n', 'a', 'n'] cs

/-- Reads a number with a sign. -/
def signed? (cs : List Char) : Option (List Char) :=
  let (negative, rest) := sign cs
  match special? rest with
  | some rest => some rest
  | none => if rest.head?.any isDigit then decimal? negative rest else none

end ValueRuntime.Toml
