import ValueRuntime.Text.Truth

/-! # Settings of an image

    What follows the question mark of an image path are settings. They are read before the
    file of the image is looked for, and take effect once it is open. Of a setting that is
    given more than once the first counts, except for directives, which all take effect.

    A directive is a name with a value. Two matter here: `query_only` forbids to write, and
    `locking_mode` can keep the image from others. The rest need only be well formed.
-/

namespace ValueRuntime

/-- Names and values, in order. -/
abbrev Settings := List (Bytes × Bytes)

/-! ## Directives -/

/-- A directive and the value it is given, if any. -/
structure Directive where
  name : Bytes
  value : Option Bytes
  deriving DecidableEq, Repr

namespace Directive

/-- A blank between the parts of a directive. -/
def isBlank (b : UInt8) : Bool :=
  b == 0x20 || b == 0x09 || b == 0x0a || b == 0x0c || b == 0x0d

/-- A text without the blanks it starts with. -/
def dropBlanks (s : Bytes) : Bytes := s.dropWhile isBlank

/-- A decimal digit. -/
def isDigit (b : UInt8) : Bool := 0x30 ≤ b && b ≤ 0x39

/-- The bytes of a word without quotes. -/
def isWordByte (b : UInt8) : Bool :=
  isDigit b || (0x41 ≤ b && b ≤ 0x5a) || (0x61 ≤ b && b ≤ 0x7a) || b == 0x5f || b == 0x24
    || 0x80 ≤ b

/-- Reads the rest of a word in quotes. A quote that is written twice stands for itself. -/
def quoted? (quote : UInt8) : Bytes → Option (Bytes × Bytes)
  | [] => none
  | b :: rest =>
    if b == quote then
      match rest with
      | c :: rest =>
        if c == quote then (quoted? quote rest).map fun (s, rest) => (quote :: s, rest)
        else some ([], c :: rest)
      | [] => some ([], [])
    else (quoted? quote rest).map fun (s, rest) => (b :: s, rest)

/-- Reads a word: a name, or any text in quotes or square brackets. -/
def word? : Bytes → Option (Bytes × Bytes)
  | [] => none
  | b :: rest =>
    if b == 0x22 || b == 0x27 || b == 0x60 then quoted? b rest
    else if b == 0x5b then
      if rest.contains 0x5d then some (Percent.cut 0x5d rest) else none
    else if isWordByte b && !isDigit b && b != 0x24 then some ((b :: rest).span isWordByte)
    else none

/-- Reads a number, which must not go on as a word. -/
def number? (s : Bytes) : Option (Bytes × Bytes) :=
  let (number, rest) := s.span fun b => isWordByte b || b == 0x2e
  match number with
  | [] => none
  | b :: _ =>
    if isDigit b && number.all fun b => isDigit b || b == 0x2e then some (number, rest) else none

/-- Reads a value: a word, or a number with or without a sign. -/
def value? : Bytes → Option (Bytes × Bytes)
  | 0x2d :: rest => (number? (dropBlanks rest)).map fun (s, rest) => (0x2d :: s, rest)
  | 0x2b :: rest => number? (dropBlanks rest)
  | s => if (s.head?.map isDigit).getD false then number? s else word? s

/-- Whether nothing but a final semicolon follows. -/
def isEnd (s : Bytes) : Bool :=
  match dropBlanks s with
  | [] => true
  | b :: rest => b == 0x3b && (dropBlanks rest).isEmpty

/-- Reads the value of a directive up to the end: after `=`, or in round brackets. -/
def assigned? (s : Bytes) : Option (Option Bytes) :=
  match dropBlanks s with
  | 0x3d :: rest => do
    let (value, rest) ← value? (dropBlanks rest)
    if isEnd rest then return some value else none
  | 0x28 :: rest => do
    let (value, rest) ← value? (dropBlanks rest)
    match dropBlanks rest with
    | 0x29 :: rest => if isEnd rest then return some value else none
    | _ => none
  | rest => if isEnd rest then some none else none

/-- **The directive that a text is.** Its name may come after that of the table space. -/
def ofText? (s : Bytes) : Option Directive := do
  let (name, rest) ← word? (dropBlanks s)
  match dropBlanks rest with
  | 0x2e :: rest =>
    let (inner, rest) ← word? (dropBlanks rest)
    if [utf8 "main", utf8 "temp"].contains name.lowerCase then
      return ⟨inner.lowerCase, ← assigned? rest⟩
    else none
  | rest => return ⟨name.lowerCase, ← assigned? rest⟩

end Directive

/-! ## Settings -/

namespace Settings

/-- **The settings that a text lists.** -/
def ofText? (s : Bytes) : Option Settings :=
  (Percent.options s).mapM fun (name, value) => do
    if name.contains 0x3b || value.contains 0x3b then none
    else return (← Percent.strict? name, ← Percent.strict? value)

/-- The values that a setting is given. -/
def values (name : String) (settings : Settings) : List Bytes :=
  (settings.filter fun setting => setting.1 == utf8 name).map (·.2)

/-- The value that counts for a setting, empty if it is not given. -/
def value (name : String) (settings : Settings) : Bytes := (settings.values name).headD []

/-- The storage that is asked for, empty for the usual one. There is none if two values
    differ; an empty value before another does not count. -/
def storage? (settings : Settings) : Option Bytes :=
  (settings.values "vfs").foldlM
    (fun chosen name => if chosen.isEmpty || chosen == name then some name else none) []

/-- The directives in the order in which they take effect, that of their text. There are
    none if one is not well formed. -/
def directives? (settings : Settings) : Option (List Directive) :=
  let texts := (settings.values "_pragma").map fun text => (dropBlanksAround text.lowerCase, text)
  (texts.mergeSort fun a b => !b.1.less a.1).mapM fun (_, text) => Directive.ofText? text
where
  /-- A text without blanks at both ends. -/
  dropBlanksAround (s : Bytes) : Bytes :=
    (Directive.dropBlanks (Directive.dropBlanks s).reverse).reverse

/-- Whether a setting has an allowed value or none. -/
def isAllowed (settings : Settings) (name : String) (allowed : Bytes → Bool) : Bool :=
  (settings.value name).isEmpty || allowed (settings.value name)

/-- **Whether the settings can take effect.** -/
def areValid (settings : Settings) : Bool :=
  let oneOf (names : List String) (value : Bytes) : Bool := names.any (utf8 · == value)
  settings.directives?.isSome
    && settings.isAllowed "_time_format" (oneOf ["sqlite"])
    && settings.isAllowed "_time_integer_format"
      (oneOf ["unix", "unix_milli", "unix_micro", "unix_nano"])
    && settings.isAllowed "_inttotime" (fun value => (truthValue? value).isSome)
    && settings.isAllowed "_txlock"
      (fun value => oneOf ["deferred", "immediate", "exclusive"] value.lowerCase)

/-- The values that directives of a name give, in the order in which they take effect. -/
def directiveValues (settings : Settings) (name : String) : List Bytes :=
  ((settings.directives?.getD []).filter (·.name == utf8 name)).filterMap (·.value)

/-- Whether the settings forbid to write. -/
def forbidWriting (settings : Settings) : Bool :=
  ((settings.directiveValues "query_only").getLast?.map isOn).getD false

/-- Whether the image is kept from others while it is open. -/
def areExclusive (settings : Settings) : Bool :=
  let modes := (settings.directiveValues "locking_mode").map Bytes.lowerCase
  (modes.filter [utf8 "normal", utf8 "exclusive"].contains).getLast? == some (utf8 "exclusive")

end Settings

end ValueRuntime
