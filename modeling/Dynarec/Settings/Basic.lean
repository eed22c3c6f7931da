import Dynarec.Files
import Dynarec.Settings.Arguments
import Dynarec.Settings.Json

/-!
# Settings

Settings come from four places, each of which overrides the ones before it: defaults, a
configuration file, environment variables and the command line.

## Main definitions

* `Dynarec.Settings` — the settings of a run.
* `Dynarec.Settings.applyFile?` — settings from a configuration file.
* `Dynarec.Settings.load` — settings from all places, and the image to run.
-/

set_option autoImplicit false

namespace Dynarec

/-- The settings of a run. -/
structure Settings where
  logLevel : String := "info"
  logFormat : String := "text"
  maxBlocks : Int := 0
  snapshotDir : String := ""
  dumpCode : Bool := false
  watch : Bool := false
  raw : Bool := false
  deriving DecidableEq, Repr

namespace Settings

/-! ## The configuration file -/

/-- The capital letter that stands for a character when names are compared. Two characters outside
ASCII stand for ASCII letters: the long s and the Kelvin sign. -/
def foldChar (c : Char) : Char :=
  if 'a' ≤ c ∧ c ≤ 'z' then Char.ofNat (c.toNat - 32)
  else if c.toNat = 0x17F then 'S'
  else if c.toNat = 0x212A then 'K'
  else c

/-- The form in which names are compared. -/
def foldName (name : String) : String :=
  String.ofList (name.toList.map foldChar)

/-- A string setting from a value; null leaves it alone. -/
def stringOr (old : String) : Json → Option String
  | .null => some old
  | .string s => some s
  | _ => none

/-- A switch from a value; null leaves it alone. -/
def boolOr (old : Bool) : Json → Option Bool
  | .null => some old
  | .bool b => some b
  | _ => none

/-- An integer setting from a value; null leaves it alone, and only 64-bit integers without
decimals or exponent will do. -/
def intOr (old : Int) : Json → Option Int
  | .null => some old
  | .number text =>
    match readDecimal (String.ofList text) with
    | .ok n => some n
    | .error _ => none
  | _ => none

/-- Applies a member of the configuration object. Members of other names are ignored. -/
def applyMember (s : Settings) (name : String) (v : Json) : Option Settings :=
  match foldName name with
  | "LOG_LEVEL" => (stringOr s.logLevel v).map fun x => { s with logLevel := x }
  | "LOG_FORMAT" => (stringOr s.logFormat v).map fun x => { s with logFormat := x }
  | "MAX_BLOCKS" => (intOr s.maxBlocks v).map fun x => { s with maxBlocks := x }
  | "SNAPSHOT_DIR" => (stringOr s.snapshotDir v).map fun x => { s with snapshotDir := x }
  | "DUMP_CODE" => (boolOr s.dumpCode v).map fun x => { s with dumpCode := x }
  | "WATCH" => (boolOr s.watch v).map fun x => { s with watch := x }
  | "RAW" => (boolOr s.raw v).map fun x => { s with raw := x }
  | _ => some s

/-- Applies members from left to right. -/
def applyMembers (s : Settings) : List (String × Json) → Option Settings
  | [] => some s
  | (name, v) :: rest => do
    let s ← s.applyMember name v
    s.applyMembers rest

/-- Applies a configuration file; none when it is malformed. -/
def applyFile? (s : Settings) (contents : String) : Option Settings :=
  match Json.parse? contents with
  | some .null => some s
  | some (.object members) => s.applyMembers members
  | _ => none

/-! ## Errors -/

/-- Why there are no settings. -/
inductive LoadError where
  | argument (error : ArgumentError)
  | imageCount (count : Nat)
  | unreadable (path : String) (error : FileError)
  | unparsable
  | environment (value : String) (error : NumberError)
  | negative (blocks : Int)
  deriving DecidableEq, Repr

namespace LoadError

/-- The wording of an error. -/
def message : LoadError → String
  | argument error => error.message
  | imageCount count =>
    "expected exactly one image path, got " ++ Text.decimal count ++ " arguments"
  | unreadable path error => "failed to read config file: " ++ error.message path
  | unparsable => "failed to parse config file"
  | environment value error =>
    "invalid A64JIT_MAX_BLOCKS " ++ Text.quote value ++ ": strconv.Atoi: parsing " ++
      Text.quote value ++ ": " ++
      match error with
      | .malformed => "invalid syntax"
      | .range => "value out of range"
  | negative blocks => "max blocks must not be negative, got " ++ Text.decimalInt blocks

/-- What is written about an error at once: flag errors come with the usage text, and so does a
wrong number of arguments. -/
def notice : LoadError → String
  | argument .help => usage
  | argument error => error.message ++ "\n" ++ usage
  | imageCount _ => usage
  | _ => ""

end LoadError

/-! ## The environment and the command line -/

/-- The environment variables that are looked at. -/
def variableNames : List String :=
  ["A64JIT_LOG_LEVEL", "A64JIT_MAX_BLOCKS", "A64JIT_SNAPSHOT_DIR"]

/-- Applies environment variables; empty ones count as not set. -/
def applyEnvironment (s : Settings) (env : String → String) : Except LoadError Settings := do
  let level := env "A64JIT_LOG_LEVEL"
  let blocks := env "A64JIT_MAX_BLOCKS"
  let dir := env "A64JIT_SNAPSHOT_DIR"
  let s := if level.isEmpty then s else { s with logLevel := level }
  let s ←
    if blocks.isEmpty then .ok s
    else
      match readDecimal blocks with
      | .ok n => .ok { s with maxBlocks := n }
      | .error e => .error (.environment blocks e)
  .ok (if dir.isEmpty then s else { s with snapshotDir := dir })

/-- Applies a flag. -/
def applyFlag (s : Settings) : String × FlagValue → Settings
  | ("log-level", .text v) => { s with logLevel := v }
  | ("log-format", .text v) => { s with logFormat := v }
  | ("max-blocks", .number n) => { s with maxBlocks := n }
  | ("snapshot-dir", .text v) => { s with snapshotDir := v }
  | ("dump-code", .switch b) => { s with dumpCode := b }
  | ("watch", .switch b) => { s with watch := b }
  | ("raw", .switch b) => { s with raw := b }
  | _ => s

/-- The configuration file named on the command line, if any; the last one counts. -/
def configPath (given : Given) : String :=
  match given.find? fun g => g.1 == "config-path" with
  | some (_, .text path) => path
  | _ => ""

/-- The configuration file that arguments name; empty when they name none or cannot be read. -/
def configPathOf (args : List String) : String :=
  match readArguments [] args with
  | .ok (given, _) => configPath given
  | .error _ => ""

/-- Settings from all places, and the image to run. -/
def load (args : List String) (env : String → String)
    (readFile : String → Except FileError String) : Except LoadError (Settings × String) :=
  match readArguments [] args with
  | .error e => .error (.argument e)
  | .ok (given, [image]) => do
    let path := configPath given
    let s ←
      if path.isEmpty then .ok {}
      else
        match readFile path with
        | .error e => .error (.unreadable path e)
        | .ok contents =>
          match ({} : Settings).applyFile? contents with
          | some s => .ok s
          | none => .error .unparsable
    let s ← s.applyEnvironment env
    let s := given.reverse.foldl applyFlag s
    if s.maxBlocks < 0 then .error (.negative s.maxBlocks) else .ok (s, image)
  | .ok (_, rest) => .error (.imageCount rest.length)

end Settings

end Dynarec
