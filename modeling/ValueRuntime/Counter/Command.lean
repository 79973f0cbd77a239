import ValueRuntime.Counter.Options
import ValueRuntime.Counter.Program
import ValueRuntime.Image.File
import ValueRuntime.Image.Globals
import ValueRuntime.Manifest

/-! # The counter command

    The command reads its options, finds the manifest of the project, runs the counter
    program on a new runtime and may save the globals to an image. What it does is a
    function of its surroundings: the arguments, the files, the working directory, the
    identity of the runtime and the time.
-/

namespace ValueRuntime.Counter

/-- What the command depends on. -/
structure Surroundings where
  args : List Bytes
  files : FileTree
  /-- The working directory. -/
  directory : Path
  /-- The identity of the runtime, which is its name when it is given no other. -/
  runtimeId : Bytes
  /-- The present time in nanoseconds. -/
  now : Int

/-- What the command does. -/
structure Outcome where
  exitCode : Nat
  stdout : Bytes
  stderr : Bytes
  /-- A file that is written, and its content. -/
  written : Option (Path × Bytes)
  deriving Repr

/-- A line of text. -/
def line (text : Bytes) : Bytes := text ++ utf8 "\n"

/-- The line for an error. -/
def errorLine (message : Bytes) : Bytes := line (utf8 "Error: " ++ message)

/-- The outcome when the arguments are not carried out. Asking for the usage is no error. -/
def refused (refusal : Refusal) : Outcome where
  exitCode := if refusal.message?.isNone then 0 else 2
  stdout := []
  stderr := (refusal.message?.map line).getD [] ++ usage.flatMap fun text => line (utf8 text)
  written := none

/-- How much is logged: everything when the option, the environment or the manifest asks for
    it. `debug` is the text of the environment variable for it. -/
def verbosity (verbose : Bool) (debug : Bytes) (manifest : Option Manifest) : Nat :=
  if verbose || !debug.isEmpty || manifest.any (·.runtime.debug) then 2 else 0

/-- The line that tells what a runtime has printed. -/
def reportLine (m : Machine) (results : Bytes) : Bytes :=
  line (utf8 "Runtime " ++ m.name ++ utf8 " printed " ++ Bytes.decimal m.prints ++
    utf8 " values: " ++ results)

/-- What saving does. -/
structure Saving where
  /-- The line that tells about it, or the message of an error. -/
  line : Except Bytes Bytes
  /-- A file that is written, and its content. -/
  written : Option (Path × Bytes)

/-- Saves the globals of a runtime to the image at a path. A file that was missing is there
    afterwards, also if the image in it cannot be opened or written. -/
def saveTo (around : Surroundings) (path : Bytes) (m : Machine) : Saving :=
  let opening := Image.openAt around.files around.directory path
  match opening.image with
  | .error error =>
    ⟨.error error.message, if opening.isNew then opening.file.map (·, []) else none⟩
  | .ok image =>
    let (result, image) := (Statement.saveGlobals m around.now).on image
    let told := match result with
      | .error error => .error error.message
      | .ok count =>
        .ok (line (utf8 "Saved " ++ Bytes.decimal count ++ utf8 " globals to " ++ path))
    ⟨told, opening.file.map (·, image.fileContent)⟩

/-- The text of the results of the program. -/
def resultsText (result : Except Stop Value) (m : Machine) : Bytes :=
  match result with
  | .error _ => []
  | .ok v => ((m.heap.view v).text).toOption.getD []

/-- The path of the image to save to, empty for none. The option goes before the manifest. -/
def imagePath (options : Options) (manifest : Option Manifest) : Bytes :=
  if options.image.isEmpty then (manifest.map (·.imagePath)).getD [] else options.image

/-- Carries out the options once the manifest is known. -/
def execute (around : Surroundings) (options : Options) (manifest : Option Manifest) : Outcome :=
  let name := (manifest.map (·.runtime.name)).getD []
  let channel := (manifest.map (·.runtime.output)).getD .stdout
  let path := imagePath options manifest
  let (result, m) := Counter.run.run (Machine.new around.runtimeId name true)
  let stdout := if channel = .stdout then m.output else []
  let printed := if channel = .stderr then m.output else []
  let report := if options.verbose then reportLine m (resultsText result m) else []
  if path.isEmpty then ⟨0, stdout, printed ++ report, none⟩
  else
    let saving := saveTo around path m
    match saving.line with
    | .error message => ⟨1, stdout, printed ++ report ++ errorLine message, saving.written⟩
    | .ok saved => ⟨0, stdout, printed ++ report ++ saved, saving.written⟩

/-- **The command.** -/
def command (around : Surroundings) : Outcome :=
  match Options.default.read around.args with
  | .error refusal => refused refusal
  | .ok options =>
    match Manifest.findAndLoad around.files (Path.resolve around.directory options.config) with
    | .error error => ⟨1, [], errorLine error.message, none⟩
    | .ok manifest => execute around options manifest

/-! ## What the command looks at -/

/-- The files that may hold the manifest. -/
def manifestFiles (around : Surroundings) : List Path :=
  match Options.default.read around.args with
  | .error _ => []
  | .ok options =>
    (Path.resolve around.directory options.config).ancestors.map (· ++ [Manifest.fileName])

/-- The paths that matter for the image, once the manifest is known. -/
def imageFiles (around : Surroundings) : List Path :=
  match Options.default.read around.args with
  | .error _ => []
  | .ok options =>
    match Manifest.findAndLoad around.files (Path.resolve around.directory options.config) with
    | .error _ => []
    | .ok manifest =>
      match Location.ofText? (imagePath options manifest) with
      | none => []
      | some location => location.lookedAt around.directory

end ValueRuntime.Counter
