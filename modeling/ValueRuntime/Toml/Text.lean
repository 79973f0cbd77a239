import ValueRuntime.Toml.Number

/-! # Strings in TOML

    A string is basic, with escapes, between double quotes, or literal, without escapes,
    between single quotes. Either stands on one line, or is a block between three quotes.
    A block may hold one or two of its quotes anywhere, also right before its end, so a run
    of three to five quotes ends it.

    Each reader starts after the opening quotes and returns the characters of the string and
    what follows the closing quotes.
-/

namespace ValueRuntime.Toml

/-- The characters that end a line. -/
def isLineEnd (c : Char) : Bool := c == '\n' || c == '\r'

/-- A blank within a line. -/
def isBlank (c : Char) : Bool := c == ' ' || c == '\t'

/-! ## Escapes -/

/-- Whether a number is a character of Unicode. -/
def isScalar (n : Nat) : Bool := n < 0xd800 || (0xdfff < n && n ≤ 0x10ffff)

/-- The character with a number of `width` hexadecimal digits. -/
def numbered? (width : Nat) (cs : List Char) : Option Char :=
  let digits := cs.take width
  let n := digitsValue 16 digits
  if digits.length == width && digits.all isHexDigit && isScalar n then some (Char.ofNat n)
  else none

/-- The character that an escape after its backslash stands for, and how many characters
    the escape takes after its first one. -/
def escape? : List Char → Option (Char × Nat)
  | 'b' :: _ => some (Char.ofNat 0x08, 0)
  | 't' :: _ => some ('\t', 0)
  | 'n' :: _ => some ('\n', 0)
  | 'f' :: _ => some (Char.ofNat 0x0c, 0)
  | 'r' :: _ => some ('\r', 0)
  | 'e' :: _ => some (Char.ofNat 0x1b, 0)
  | '"' :: _ => some ('"', 0)
  | '\\' :: _ => some ('\\', 0)
  | 'x' :: rest => (numbered? 2 rest).map (·, 2)
  | 'u' :: rest => (numbered? 4 rest).map (·, 4)
  | 'U' :: rest => (numbered? 8 rest).map (·, 8)
  | _ => none

/-- A string whose first character is known. -/
def starting (c : Char) (rest : Option (List Char × List Char)) : Option (List Char × List Char) :=
  rest.map fun (string, after) => (c :: string, after)

/-! ## Strings on one line -/

/-- Reads a basic string. -/
def basicLine? : List Char → Option (List Char × List Char)
  | [] => none
  | c :: rest =>
    if c == '"' then some ([], rest)
    else if isLineEnd c then none
    else if c == '\\' then
      match escape? rest with
      | none => none
      | some (meant, more) => starting meant (basicLine? (rest.drop (1 + more)))
    else starting c (basicLine? rest)
  termination_by cs => cs.length
  decreasing_by all_goals (simp only [List.length_drop, List.length_cons]; omega)

/-- Reads a literal string. -/
def literalLine? (cs : List Char) : Option (List Char × List Char) :=
  match cs.span fun c => c != '\'' && !isLineEnd c with
  | (string, '\'' :: rest) => some (string, rest)
  | _ => none

/-! ## Blocks -/

/-- A text without the line end it may start with. -/
def dropLineEnd : List Char → List Char
  | '\r' :: '\n' :: rest => rest
  | '\n' :: rest => rest
  | cs => cs

/-- The end of a block at a run of quotes: the quotes that still belong to the block, and
    what follows it. A run of more than `most` quotes is refused. -/
def blockEnd? (quote : Char) (most : Nat) (cs : List Char) : Option (List Char × List Char) :=
  let run := (cs.takeWhile (· == quote)).length
  if run ≤ most then some (List.replicate (run - 3) quote, cs.drop run) else none

/-- Whether a text starts with three quotes. -/
def startsBlock (quote : Char) (cs : List Char) : Bool := [quote, quote, quote].isPrefixOf cs

/-- Reads a literal block. -/
def literalBlock? : List Char → Option (List Char × List Char)
  | [] => none
  | c :: rest =>
    if startsBlock '\'' (c :: rest) then blockEnd? '\'' 5 (c :: rest)
    else starting c (literalBlock? rest)

/-- Reads a basic block. A backslash before a line end takes away all blanks and line ends
    that follow. `most` is how many quotes may end the block here: one more right after an
    escaped backslash. -/
def basicBlock? (most : Nat) : List Char → Option (List Char × List Char)
  | [] => none
  | c :: rest =>
    if startsBlock '"' (c :: rest) then blockEnd? '"' most (c :: rest)
    else if c == '\\' then
      let gap := rest.takeWhile fun c => isBlank c || isLineEnd c
      if gap.isEmpty then
        match escape? rest with
        | none => none
        | some (meant, more) =>
          let most := if rest.head? == some '\\' then 6 else 5
          starting meant (basicBlock? most (rest.drop (1 + more)))
      else if gap.contains '\n' then basicBlock? 5 (rest.drop gap.length)
      else none
    else starting c (basicBlock? 5 rest)
  termination_by cs => cs.length
  decreasing_by all_goals (simp only [List.length_drop, List.length_cons]; omega)

/-- **Reads a string** that starts with its opening quotes. -/
def string? (cs : List Char) : Option (List Char × List Char) :=
  match cs with
  | '"' :: rest =>
    if startsBlock '"' cs then basicBlock? 5 (dropLineEnd (cs.drop 3)) else basicLine? rest
  | '\'' :: rest =>
    if startsBlock '\'' cs then literalBlock? (dropLineEnd (cs.drop 3)) else literalLine? rest
  | _ => none

/-- The bytes of characters. -/
def bytesOf (cs : List Char) : Bytes := utf8 (String.ofList cs)

end ValueRuntime.Toml
