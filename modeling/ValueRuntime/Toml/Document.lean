import ValueRuntime.Toml.Table

/-! # TOML documents

    The statements of a document build a tree of tables, one after the other. A key may be
    defined once, with one exception: a table that only came about because a longer key
    passed through it is *open*, and the first definition of its own closes it and keeps
    what it holds.

    Beside the tree a document keeps marks on its keys, and the keys that were written.
-/

namespace ValueRuntime.Toml

/-! ## Marks on keys -/

/-- What is noted of a key beside its meaning. -/
structure Mark where
  /-- The key is an open table. -/
  isOpen : Bool
  /-- The key was last assigned an array. -/
  isArray : Bool
  deriving DecidableEq, Repr

/-- The mark of a key of which nothing is noted. -/
def Mark.none : Mark := ⟨false, false⟩

/-- The mark of a key, and the marks of the keys that go on from it. -/
inductive Marks where
  | node (mark : Mark) (further : List (Bytes × Marks))
  deriving Repr

namespace Marks

/-- No key is marked. -/
def empty : Marks := .node .none []

/-- The mark of a key. -/
def get : Key → Marks → Mark
  | [], .node mark _ => mark
  | name :: rest, .node _ further =>
    match further.lookup name with
    | none => .none
    | some marks => get rest marks

/-- Changes the mark of a key. -/
def change (f : Mark → Mark) : Key → Marks → Marks
  | [], .node mark further => .node (f mark) further
  | name :: rest, .node mark further =>
    match further.lookup name with
    | some marks => .node mark (setEntry name (change f rest marks) further)
    | none =>
      if f .none == .none then .node mark further
      else .node mark (setEntry name (change f rest empty) further)

end Marks

/-! ## Definitions -/

/-- A document as far as it has been read. -/
structure Document where
  root : Table
  marks : Marks
  /-- The keys that were written, the latest first. -/
  latest : List Key
  deriving Repr

namespace Document

/-- The document of no statements. -/
def empty : Document := ⟨[], .empty, []⟩

/-- The keys that were written, in order. -/
def written (doc : Document) : List Key := doc.latest.reverse

/-- Notes whether a key is an open table. -/
def noteOpen (key : Key) (isOpen : Bool) (doc : Document) : Document :=
  { doc with marks := doc.marks.change (fun mark => { mark with isOpen := isOpen }) key }

/-- The key that bears the note on an assignment to a name in the table at a key. The note
    on an empty name goes to the table, unless that is the whole document. -/
def bearer (context : Key) (name : Bytes) : Key :=
  if name.isEmpty && !context.isEmpty then context else context ++ [name]

/-- Notes whether a name in the table at a key was assigned an array. -/
def noteArray (context : Key) (name : Bytes) (isArray : Bool) (doc : Document) : Document :=
  { doc with
    marks := doc.marks.change (fun mark => { mark with isArray := isArray })
      (bearer context name) }

/-- Notes that a key was written. -/
def write (key : Key) (doc : Document) : Document := { doc with latest := key :: doc.latest }

/-- Gives a name in the table at a key a meaning. -/
def set (context : Key) (name : Bytes) (node : Node) (doc : Document) : Document :=
  { doc with root := doc.root.modifyAt (setEntry name node) context }

/-- **Defines a name** in the table at a key. A name that has a meaning must be marked as an
    open table; it loses its mark and keeps its meaning, unless it was assigned an array,
    which gives way. -/
def define (context : Key) (name : Bytes) (node : Node) (doc : Document) : Option Document := do
  let table ← doc.root.at? context
  if (table.lookup name).isNone then return doc.set context name node
  let key := context ++ [name]
  let mark := doc.marks.get key
  if !mark.isOpen then none
  else if mark.isArray then return (doc.noteOpen key false).set context name node
  else return doc.noteOpen key false

/-- Makes the missing tables that a key passes through, as open tables. -/
def passThrough (key : Key) (doc : Document) : Option Document := do
  let root ← doc.root.extend key
  let missing := (List.range' (doc.root.reach key) (key.length - doc.root.reach key)).map
    fun depth => key.take (depth + 1)
  return missing.foldl (fun doc key => doc.noteOpen key true) { doc with root := root }

/-- Defines a table at a key. -/
def openTable (key : Key) (doc : Document) : Option Document :=
  match key.getLast? with
  | none => some doc
  | some name => do (← doc.passThrough key.dropLast).define key.dropLast name (.table [])

/-- Adds a table to the array of tables at a key. -/
def addTable (key : Key) (doc : Document) : Option Document :=
  match key.getLast? with
  | none => some doc
  | some name => do
    let context := key.dropLast
    let doc ← doc.passThrough context
    let table ← doc.root.at? context
    match table.lookup name with
    | none | some (.tables _) => return doc.set context name (.tables [])
    | some _ => none

/-- Defines the tables that a dotted key passes through, one after the other. -/
def enter (context : Key) : Key → Document → Option Document
  | [], doc => some doc
  | name :: rest, doc => do
    let key := context ++ [name]
    enter key rest (← (doc.noteOpen key true).openTable key)

/-! ## Statements -/

/-- Whether a written value is an array. -/
def isArray : Written → Bool
  | .array _ => true
  | _ => false

mutual

/-- Assigns what a value holds within, for the value of a name in the table at a key, and
    gives the meaning of the value by itself. `inArray` says whether the value is part of an
    array. -/
def assignWithin (context : Key) (name : Bytes) (inArray : Bool) :
    Written → Document → Option (Node × Document)
  | .string s, doc => some (.string s, doc)
  | .boolean b, doc => some (.boolean b, doc)
  | .scalar, doc => some (.scalar, doc)
  | .array items, doc => do
    return (.array, ← assignItems context name items (doc.noteArray context name true))
  | .table entries, doc => do
    let key := context ++ [name]
    let doc := doc.noteOpen key true
    let doc ← if inArray then doc.addTable key else doc.openTable key
    let (own, doc) ← assignEntries key entries [] doc
    return (.table own, doc)

/-- Assigns what the items of an array hold within. -/
def assignItems (context : Key) (name : Bytes) : List Written → Document → Option Document
  | [], doc => some doc
  | item :: rest, doc => do
    assignItems context name rest (← assignWithin context name true item doc).2

/-- **Assigns entries** in the table at a key: the tables on the way, what the value holds
    within, and then the value itself. The entries must make up a table of their own as
    well, which starts with `own`. There a later entry takes the place of an earlier one. -/
def assignEntries (context : Key) :
    List (Key × Written) → Table → Document → Option (Table × Document)
  | [], own, doc => some (own, doc)
  | (key, value) :: rest, own, doc => do
    let name := key.getLastD []
    let inner := context ++ key.dropLast
    let doc ← doc.enter context key.dropLast
    let (node, doc) ← assignWithin inner name false value (doc.write (context ++ key))
    let doc ← doc.define inner name node
    assignEntries context rest (← own.place key node) (doc.noteArray inner name (isArray value))

end

/-- Carries out statements. `context` is the key of the latest header. -/
def carryOut (context : Key) : List Statement → Document → Option Document
  | [], doc => some doc
  | .header repeated key :: rest, doc => do
    let doc ← if repeated then doc.addTable key else doc.openTable key
    carryOut key rest ((doc.noteArray key [] false).write key)
  | .assign key value :: rest, doc => do
    carryOut context rest (← assignEntries context [(key, value)] [] doc).2

/-- **The document of a text,** if it is well written and defines no key twice. -/
def ofContent (content : Bytes) : Option Document := do
  carryOut [] (← statementsOf content) empty

end Document

/-! ## The text of keys -/

/-- A byte of a quoted name. -/
def quotedByte (b : UInt8) : Bytes :=
  if b == 0x22 then utf8 "\\\""
  else if b == 0x5c then utf8 "\\\\"
  else if b == 0x08 then utf8 "\\b"
  else if b == 0x09 then utf8 "\\t"
  else if b == 0x0a then utf8 "\\n"
  else if b == 0x0c then utf8 "\\f"
  else if b == 0x0d then utf8 "\\r"
  else if b < 0x20 || b == 0x7f then utf8 "\\u" ++ Bytes.hex 4 b.toNat
  else [b]

/-- A name as it is written in a key: in quotes when it is empty or has a character that
    needs them. -/
def nameText (name : Bytes) : Bytes :=
  if !name.isEmpty && name.all fun b => isBare (Char.ofNat b.toNat) then name
  else utf8 "\"" ++ name.flatMap quotedByte ++ utf8 "\""

/-- The text of a key. -/
def keyText (key : Key) : Bytes := Bytes.join (utf8 ".") (key.map nameText)

end ValueRuntime.Toml
