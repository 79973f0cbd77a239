import Std.Time.DateTime.Timestamp
import ValueRuntime.Counter.Command

/-! # The command line

    Looks at the files that the counter command depends on, carries the command out, and
    writes what it says.
-/

namespace ValueRuntime.Counter

/-- The text of bytes, if they are valid UTF-8. -/
def pathString? (path : Path) : Option String :=
  (Utf8.codePoints? path.text).map fun points => String.ofList (points.map Char.ofNat)

/-- A runtime identity of sixteen bytes in hexadecimal, in groups. -/
def identityText (bytes : Bytes) : Bytes :=
  let digits := bytes.flatMap fun b => Bytes.hex 2 b.toNat
  Bytes.join (utf8 "-")
    [digits.take 8, (digits.drop 8).take 4, (digits.drop 12).take 4, (digits.drop 16).take 4,
      digits.drop 20]

/-- Adds what stands at a path to a file tree. -/
def look (tree : FileTree) (path : Path) : IO FileTree := do
  let some name := pathString? path | return tree
  let place := (← IO.currentDir) / name
  if ← place.isDir then return { tree with directories := path :: tree.directories }
  try
    let content ← IO.FS.readBinFile place
    return { tree with files := (path, content.data.toList) :: tree.files }
  catch _ => return tree

/-- Writes a file. -/
def writeFile (file : Path × Bytes) : IO Unit := do
  match pathString? file.1 with
  | none => return
  | some name => IO.FS.writeBinFile name ⟨file.2.toArray⟩

/-- Carries out the command with given arguments. -/
def runCommand (args : List String) : IO UInt32 := do
  let directory := Path.resolve [] (utf8 (← IO.currentDir).toString)
  let identity := identityText (← IO.getRandomBytes 16).data.toList
  let present := (← Std.Time.Timestamp.now).toNanosecondsSinceUnixEpoch.val
  let around : Surroundings :=
    { args := args.map utf8
      files := ⟨[], [directory]⟩
      directory := directory
      runtimeId := identity
      now := present }
  let files ← (manifestFiles around).foldlM look around.files
  let around := { around with files := files }
  let files ← (imageFiles around).foldlM look around.files
  let outcome := command { around with files := files }
  (← IO.getStdout).write ⟨outcome.stdout.toArray⟩
  (← IO.getStdout).flush
  (← IO.getStderr).write ⟨outcome.stderr.toArray⟩
  outcome.written.forM writeFile
  return outcome.exitCode.toUInt32

end ValueRuntime.Counter

def main (args : List String) : IO UInt32 := ValueRuntime.Counter.runCommand args
