import ValueRuntime.Text.Utf8
import ValueRuntime.Toml.Text

/-! # TOML statements

    A document is a sequence of statements: headers that name the table that follows, and
    assignments of values to keys. This module reads the statements of a text. What they
    define together is the matter of `ValueRuntime.Toml.Document`.
-/

namespace ValueRuntime.Toml

/-- A key: the names from the outermost table in. -/
abbrev Key := List Bytes

/-- A value as it is written. Numbers and dates are not told apart. -/
inductive Written where
  | string (s : Bytes)
  | boolean (b : Bool)
  | scalar
  | array (items : List Written)
  | table (entries : List (Key × Written))
  deriving Repr

/-- A statement. -/
inductive Statement where
  /-- A header names the table that the following assignments belong to. With `repeated`
      it adds a table to an array of tables. -/
  | header (repeated : Bool) (key : Key)
  | assign (key : Key) (value : Written)
  deriving Repr

/-! ## Blanks, comments and keys -/

/-- A text without the blanks it starts with. -/
def dropBlanks (cs : List Char) : List Char := cs.dropWhile isBlank

/-- A text without the blanks, line ends and comments it starts with. `inComment` says
    whether it starts within a comment. -/
def dropGap (inComment : Bool) : List Char → List Char
  | [] => []
  | c :: rest =>
    if c == '\n' then dropGap false rest
    else if inComment then dropGap true rest
    else if isBlank c || c == '\r' then dropGap false rest
    else if c == '#' then dropGap true rest
    else c :: rest

/-- Reads the end of a statement: blanks and a comment up to the end of the line. -/
def lineEnd? (cs : List Char) : Option (List Char) :=
  match dropBlanks cs with
  | [] => some []
  | c :: rest =>
    if isLineEnd c then some rest
    else if c == '#' then some (rest.dropWhile (· != '\n'))
    else none

/-- The characters of a name without quotes. -/
def isBare (c : Char) : Bool :=
  isDigit c || ('a' ≤ c && c ≤ 'z') || ('A' ≤ c && c ≤ 'Z') || c == '_' || c == '-'

/-- Reads one name of a key. -/
def name? (cs : List Char) : Option (Bytes × List Char) :=
  match cs with
  | '"' :: rest => (basicLine? rest).map fun (name, rest) => (bytesOf name, rest)
  | '\'' :: rest => (literalLine? rest).map fun (name, rest) => (bytesOf name, rest)
  | _ =>
    let (name, rest) := cs.span isBare
    if name.isEmpty then none else some (bytesOf name, rest)

/-- Reads a key and the blanks around its names. `fuel` bounds the number of names. -/
def key? : (fuel : Nat) → List Char → Option (Key × List Char)
  | 0, _ => none
  | fuel + 1, cs => do
    let (name, rest) ← name? (dropBlanks cs)
    match dropBlanks rest with
    | '.' :: rest =>
      let (names, rest) ← key? fuel rest
      return (name :: names, rest)
    | rest => return ([name], rest)

/-! ## Values -/

/-- Reads a value that is no array and no table. -/
def scalar? (cs : List Char) : Option (Written × List Char) :=
  match cs with
  | [] => none
  | c :: _ =>
    if c == '"' || c == '\'' then
      (string? cs).map fun (string, rest) => (.string (bytesOf string), rest)
    else if isDigit c then (number? cs).map (.scalar, ·)
    else if c == '+' || c == '-' then (signed? cs).map (.scalar, ·)
    else if c == 't' then (word? ['t', 'r', 'u', 'e'] cs).map (.boolean true, ·)
    else if c == 'f' then (word? ['f', 'a', 'l', 's', 'e'] cs).map (.boolean false, ·)
    else (special? cs).map (.scalar, ·)

mutual

/-- Reads a value. `fuel` bounds the number of reading steps. -/
def value? : (fuel : Nat) → List Char → Option (Written × List Char)
  | 0, _ => none
  | _ + 1, [] => none
  | fuel + 1, c :: rest =>
    if c == '[' then (items? fuel rest).map fun (items, rest) => (.array items, rest)
    else if c == '{' then (entries? fuel rest).map fun (entries, rest) => (.table entries, rest)
    else scalar? (c :: rest)

/-- Reads the items of an array up to its closing bracket. -/
def items? : (fuel : Nat) → List Char → Option (List Written × List Char)
  | 0, _ => none
  | fuel + 1, cs =>
    match dropGap false cs with
    | ']' :: rest => some ([], rest)
    | cs => do
      let (item, rest) ← value? fuel cs
      match dropGap false rest with
      | ',' :: rest =>
        let (items, rest) ← items? fuel rest
        return (item :: items, rest)
      | ']' :: rest => return ([item], rest)
      | _ => none

/-- Reads the entries of an inline table up to its closing brace. -/
def entries? : (fuel : Nat) → List Char → Option (List (Key × Written) × List Char)
  | 0, _ => none
  | fuel + 1, cs =>
    match dropGap false cs with
    | '}' :: rest => some ([], rest)
    | cs => do
      let (key, rest) ← key? fuel cs
      let (value, rest) ← value? fuel (dropBlanks (← mark? '=' rest))
      match dropGap false rest with
      | ',' :: rest =>
        let (entries, rest) ← entries? fuel rest
        return ((key, value) :: entries, rest)
      | '}' :: rest => return ([(key, value)], rest)
      | _ => none

end

/-! ## Statements -/

/-- Reads a header after its first bracket. -/
def header? (fuel : Nat) (cs : List Char) : Option (Statement × List Char) :=
  match cs with
  | '[' :: cs => do
    let (key, rest) ← key? fuel cs
    return (.header true key, ← mark? ']' (← mark? ']' rest))
  | cs => do
    let (key, rest) ← key? fuel cs
    return (.header false key, ← mark? ']' rest)

/-- Reads an assignment. -/
def assignment? (fuel : Nat) (cs : List Char) : Option (Statement × List Char) := do
  let (key, rest) ← key? fuel cs
  let (value, rest) ← value? fuel (dropBlanks (← mark? '=' rest))
  return (.assign key value, rest)

/-- Reads all statements. -/
def statements? : (fuel : Nat) → List Char → Option (List Statement)
  | 0, _ => none
  | fuel + 1, cs =>
    match dropGap false cs with
    | [] => some []
    | c :: rest => do
      let (statement, rest) ←
        if c == '[' then header? fuel rest else assignment? fuel (c :: rest)
      let rest ← lineEnd? rest
      let more ← statements? fuel rest
      return statement :: more

/-! ## Texts -/

/-- Whether the characters may stand in a document: no control characters but tabs and line
    ends, and no carriage return without a line feed. -/
def isPlainText : List Char → Bool
  | [] => true
  | '\r' :: '\n' :: rest => isPlainText rest
  | c :: rest =>
    (c == '\t' || c == '\n' || (0x20 ≤ c.toNat && c.toNat != 0x7f)) && isPlainText rest

/-- The bytes without a byte order mark. -/
def dropOrderMark : Bytes → Bytes
  | 0xff :: 0xfe :: rest => rest
  | 0xfe :: 0xff :: rest => rest
  | 0xef :: 0xbb :: 0xbf :: rest => rest
  | bytes => bytes

/-- **The statements of a document.** Each reading step consumes a character or ends, so
    three steps for a character are enough. -/
def statementsOf (content : Bytes) : Option (List Statement) := do
  let points ← Utf8.codePoints? (dropOrderMark content)
  let cs := points.map Char.ofNat
  if isPlainText cs then statements? (3 * cs.length + 3) cs else none

end ValueRuntime.Toml
