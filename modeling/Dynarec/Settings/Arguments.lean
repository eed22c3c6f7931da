import Dynarec.Settings.Number
import Dynarec.Text.Quoted

/-!
# Command-line arguments

Flags start with one or two dashes and stand in front of all other arguments. A flag's value
follows it after an equals sign or, except for switches, as the next argument. Two dashes alone end
the flags; one dash alone is an ordinary argument.

## Main definitions

* `Dynarec.Settings.Flag`, `Dynarec.Settings.flags` — the flags there are.
* `Dynarec.Settings.usage` — the text about them.
* `Dynarec.Settings.readArguments` — reading arguments.
-/

set_option autoImplicit false

namespace Dynarec.Settings

/-! ## Flags -/

/-- The kinds of values that flags take. -/
inductive FlagKind where
  | text | number | switch
  deriving DecidableEq, Repr

/-- A flag. -/
structure Flag where
  name : String
  kind : FlagKind
  help : String
  deriving DecidableEq, Repr

/-- The flags there are, by name. -/
def flags : List Flag :=
  [⟨"config-path", .text, "Path to a JSON configuration file"⟩,
    ⟨"dump-code", .switch, "Print every translated block with its host disassembly"⟩,
    ⟨"log-format", .text, "Log format (text or json)"⟩,
    ⟨"log-level", .text, "Log level (trace, debug, info, warn, error)"⟩,
    ⟨"max-blocks", .number, "Stop after this many block executions (0 = no limit)"⟩,
    ⟨"raw", .switch, "Treat the image as a flat stream of instruction words"⟩,
    ⟨"snapshot-dir", .text, "Save a record of each run to this PebbleDB directory"⟩,
    ⟨"watch", .switch, "Run again whenever the image changes"⟩]

/-- The lines about a flag. -/
def Flag.usage (f : Flag) : String :=
  let value :=
    match f.kind with
    | .text => " string"
    | .number => " int"
    | .switch => ""
  "  -" ++ f.name ++ value ++ "\n    \t" ++ f.help ++ "\n"

/-- The text about all flags. -/
def usage : String :=
  "Usage: a64jit [flags] <image>\n" ++ String.join (flags.map Flag.usage)

/-- The value of a flag. -/
inductive FlagValue where
  | text (s : String)
  | number (n : Int)
  | switch (b : Bool)
  deriving DecidableEq, Repr

/-! ## Errors -/

/-- Why arguments cannot be read. -/
inductive ArgumentError where
  | help
  | undefined (name : String)
  | noValue (name : String)
  | malformed (argument : String)
  | badNumber (value name : String) (error : NumberError)
  | badSwitch (value name : String)
  deriving DecidableEq, Repr

/-- The wording of an argument error. -/
def ArgumentError.message : ArgumentError → String
  | help => "flag: help requested"
  | undefined name => "flag provided but not defined: -" ++ name
  | noValue name => "flag needs an argument: -" ++ name
  | malformed argument => "bad flag syntax: " ++ argument
  | badNumber value name error =>
    "invalid value " ++ Text.quote value ++ " for flag -" ++ name ++ ": " ++
      match error with
      | .malformed => "parse error"
      | .range => "value out of range"
  | badSwitch value name =>
    "invalid boolean value " ++ Text.quote value ++ " for -" ++ name ++ ": parse error"

/-! ## Reading -/

/-- What an argument is. -/
inductive Argument where
  /-- Not a flag. -/
  | ordinary
  /-- The end of the flags. -/
  | terminator
  | malformed
  | flag (name : String) (value : Option String)
  deriving DecidableEq, Repr

/-- Splits the text behind the dashes at its first equals sign; the name is not empty. -/
def splitFlag : List Char → Argument
  | [] => .malformed
  | first :: rest =>
    if first = '-' ∨ first = '=' then .malformed
    else
      let name := String.ofList (first :: rest.takeWhile (· != '='))
      match rest.dropWhile (· != '=') with
      | _ :: value => .flag name (some (String.ofList value))
      | [] => .flag name none

/-- What an argument is, by its dashes. -/
def classify (argument : String) : Argument :=
  match argument.toList with
  | ['-', '-'] => .terminator
  | '-' :: '-' :: rest => splitFlag rest
  | ['-'] => .ordinary
  | '-' :: rest => splitFlag rest
  | _ => .ordinary

/-- The value of a flag from its text. -/
def Flag.read (f : Flag) (value : String) : Except ArgumentError FlagValue :=
  match f.kind with
  | .text => .ok (.text value)
  | .number =>
    match readInt value with
    | .ok n => .ok (.number n)
    | .error e => .error (.badNumber value f.name e)
  | .switch =>
    match readBool? value with
    | some b => .ok (.switch b)
    | none => .error (.badSwitch value f.name)

/-- Flags given so far, the last one first. -/
abbrev Given := List (String × FlagValue)

/-- Reads flags up to the first argument that is none. Gives the flags, the last one first, and
the arguments behind them. -/
def readArguments (given : Given) : List String → Except ArgumentError (Given × List String)
  | [] => .ok (given, [])
  | argument :: rest =>
    match classify argument with
    | .ordinary => .ok (given, argument :: rest)
    | .terminator => .ok (given, rest)
    | .malformed => .error (.malformed argument)
    | .flag name value =>
      match flags.find? fun f => f.name == name with
      | none => .error (if name = "help" ∨ name = "h" then .help else .undefined name)
      | some f =>
        match value with
        | some text => do
          let v ← f.read text
          readArguments ((name, v) :: given) rest
        | none =>
          if f.kind = .switch then readArguments ((name, .switch true) :: given) rest
          else
            match rest with
            | [] => .error (.noValue name)
            | text :: rest => do
              let v ← f.read text
              readArguments ((name, v) :: given) rest

end Dynarec.Settings
