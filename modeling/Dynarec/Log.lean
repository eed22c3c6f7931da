import Dynarec.Settings.Basic

/-!
# Logging

Log entries have a level, a message and named fields. A logger lets through the entries at or above
its level.

## Main definitions

* `Dynarec.Log.Level`, `Dynarec.Log.Format` — levels and formats with their names.
* `Dynarec.Log.Entry` — one entry.
* `Dynarec.Log.Logger` — what is let through, and how it is written.
* `Dynarec.Log.Logger.line?` — the line of an entry.
-/

set_option autoImplicit false

namespace Dynarec.Log

/-! ## Levels -/

/-- The levels, the most urgent first. -/
inductive Level where
  | panic | fatal | error | warning | info | debug | trace
  deriving DecidableEq, Repr

namespace Level

/-- How far a level is from the most urgent one. -/
def rank : Level → Nat
  | panic => 0
  | fatal => 1
  | error => 2
  | warning => 3
  | info => 4
  | debug => 5
  | trace => 6

/-- The name of a level. -/
def name : Level → String
  | panic => "panic"
  | fatal => "fatal"
  | error => "error"
  | warning => "warning"
  | info => "info"
  | debug => "debug"
  | trace => "trace"

/-- The lower-case form of a character, as far as names of levels can tell: ASCII letters, and the
capital I with a dot, whose lower-case form is the plain letter. -/
def lowerChar (c : Char) : Char :=
  if c.toNat = 0x130 then 'i' else Settings.lowerAscii c

/-- The level with a name in any case. -/
def ofName? (s : String) : Option Level :=
  match String.ofList (s.toList.map lowerChar) with
  | "panic" => some panic
  | "fatal" => some fatal
  | "error" => some error
  | "warn" => some warning
  | "warning" => some warning
  | "info" => some info
  | "debug" => some debug
  | "trace" => some trace
  | _ => none

end Level

/-! ## Entries -/

/-- A log entry. -/
structure Entry where
  level : Level
  message : String
  fields : List (String × String) := []
  deriving DecidableEq, Repr

/-! ## Loggers -/

/-- How entries are written. -/
inductive Format where
  | text | json
  deriving DecidableEq, Repr

/-- The name of a format. -/
def Format.name : Format → String
  | text => "text"
  | json => "json"

/-- What a logger lets through, and how it is written. -/
structure Logger where
  level : Level := .info
  format : Format := .text
  deriving DecidableEq, Repr

/-- Why there is no logger. -/
inductive LoggerError where
  | level (name : String)
  | format (name : String)
  deriving DecidableEq, Repr

/-- The wording of a logger error. -/
def LoggerError.message : LoggerError → String
  | level name => "not a valid logrus Level: " ++ Text.quote name
  | format name => "unknown log format " ++ Text.quote name

namespace Logger

/-- The logger with a level and a format by name. The level is looked at first. -/
def ofNames (level format : String) : Except LoggerError Logger :=
  match Level.ofName? level with
  | none => .error (.level level)
  | some l =>
    match format with
    | "text" => .ok { level := l, format := .text }
    | "json" => .ok { level := l, format := .json }
    | _ => .error (.format format)

/-- Whether entries of a level are let through. -/
def enabled (logger : Logger) (level : Level) : Bool :=
  level.rank ≤ logger.level.rank

/-! ## Lines -/

/-- Whether a character can stand in a value without quotes. -/
def isBare (c : Char) : Bool :=
  c.isAlphanum || "-._/@^+".toList.contains c

/-- A value in a text line: quoted unless all its characters can stand without quotes. -/
def textValue (v : String) : String :=
  if v.toList.all isBare then v else Text.quote v

/-- A character inside a JSON string. -/
def jsonEscaped (c : Char) : List Char :=
  if c = '"' ∨ c = '\\' then ['\\', c]
  else if c.toNat < 0x20 then Text.numbered 'u' 4 c.toNat
  else [c]

/-- A JSON string. -/
def jsonValue (v : String) : String :=
  Text.inQuotes (v.toList.flatMap jsonEscaped)

/-- An entry as one line: its level, its message and its fields. -/
def line (format : Format) (e : Entry) : String :=
  let members := ("level", e.level.name) :: ("msg", e.message) :: e.fields
  match format with
  | .text => " ".intercalate (members.map fun m => m.1 ++ "=" ++ textValue m.2)
  | .json =>
    "\x7b" ++ ",".intercalate (members.map fun m => jsonValue m.1 ++ ":" ++ jsonValue m.2) ++
      "\x7d"

/-- The line of an entry that is let through. -/
def line? (logger : Logger) (e : Entry) : Option String :=
  if logger.enabled e.level then some (line logger.format e) else none

end Logger

end Dynarec.Log
