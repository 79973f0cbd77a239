import ValueRuntime.Text.Quoted
import ValueRuntime.Text.Truth

/-! # Command line options

    An option is written with one or two dashes. A flag stands alone or has a truth value
    after an equals sign; any other option has its value after an equals sign or as the next
    argument. The first argument that is no option, or `--`, ends the options.
-/

namespace ValueRuntime.Counter

/-- The options of the command. -/
structure Options where
  verbose : Bool
  /-- Where the search for a manifest starts. -/
  config : Bytes
  /-- The image to save to, empty for the one of the manifest. -/
  image : Bytes
  deriving DecidableEq, Repr

/-- The options when none is given. -/
def Options.default : Options := ⟨false, utf8 ".", []⟩

/-- Why the arguments are not carried out. -/
inductive Refusal where
  /-- The usage was asked for. -/
  | help
  | badForm (arg : Bytes)
  | unknownOption (name : Bytes)
  | missingValue (name : Bytes)
  | badFlag (name value : Bytes)
  deriving DecidableEq, Repr

/-- The message of a refusal, none when the usage was asked for. -/
def Refusal.message? : Refusal → Option Bytes
  | .help => none
  | .badForm arg => some (utf8 "bad flag syntax: " ++ arg)
  | .unknownOption name => some (utf8 "flag provided but not defined: -" ++ name)
  | .missingValue name => some (utf8 "flag needs an argument: -" ++ name)
  | .badFlag name value =>
    some (utf8 "invalid boolean value " ++ Quoted.quote value ++ utf8 " for -" ++ name
      ++ utf8 ": parse error")

/-! ## Arguments -/

/-- What an argument is. -/
inductive Argument where
  /-- No option: the options end before it. -/
  | operand
  | badForm
  | option (name : Bytes) (value? : Option Bytes)
  deriving DecidableEq, Repr

/-- An option written without dashes: its name, and its value after an equals sign. -/
def Argument.ofBody (body : Bytes) : Argument :=
  match body with
  | [] => .badForm
  | first :: rest =>
    if first == 0x2d || first == 0x3d then .badForm
    else match rest.span (· != 0x3d) with
      | (name, []) => .option (first :: name) none
      | (name, _ :: value) => .option (first :: name) (some value)

/-- What an argument is. -/
def Argument.ofBytes (arg : Bytes) : Argument :=
  match arg with
  | 0x2d :: 0x2d :: body => if body.isEmpty then .operand else .ofBody body
  | 0x2d :: body => if body.isEmpty then .operand else .ofBody body
  | _ => .operand

/-- The change of the options that an option with a value makes, by its name. -/
def valued? (name : Bytes) : Option (Bytes → Options → Options) :=
  if name == utf8 "config" then some fun value options => { options with config := value }
  else if name == utf8 "image" then some fun value options => { options with image := value }
  else none

/-- **Reads the options** from the arguments. -/
def Options.read (options : Options) : List Bytes → Except Refusal Options
  | [] => .ok options
  | arg :: rest =>
    match Argument.ofBytes arg with
    | .operand => .ok options
    | .badForm => .error (.badForm arg)
    | .option name value? =>
      if name == utf8 "v" then
        let value := value?.getD (utf8 "true")
        match truthValue? value with
        | some verbose => read { options with verbose := verbose } rest
        | none => .error (.badFlag name value)
      else match valued? name, value?, rest with
        | some change, some value, rest => read (change value options) rest
        | some change, none, value :: rest => read (change value options) rest
        | some _, none, [] => .error (.missingValue name)
        | none, _, _ =>
          if name == utf8 "help" || name == utf8 "h" then .error .help
          else .error (.unknownOption name)

/-- The lines that say how the command is used. -/
def usage : List String :=
  ["Usage: counter [options]",
    "",
    "Runs the counter-closure program on a fresh linx runtime.",
    "",
    "Options:",
    "  -config string",
    "    \tDirectory to search for linx.toml (default \".\")",
    "  -image string",
    "    \tSave globals to this image (overrides linx.toml)",
    "  -v\tVerbose output",
    "",
    "Examples:",
    "  counter                    # Print 13, 14, 35, 15",
    "  counter -image state.db    # Also save the results global"]

end ValueRuntime.Counter
