import Dynarec.Session

/-!
# The command line

Reads settings, runs an image, and runs it again whenever it changes if asked to. Log lines go to
standard error, printed blocks to standard output. The records of runs are kept for as long as the
process lives.

## Main definitions

* `Dynarec.runImage` — one run of an image.
* `Dynarec.watch` — more runs, one for each change of the image.
* `main` — the entry point.
-/

set_option autoImplicit false

namespace Dynarec

open Log (Entry Logger)

/-- The file error that an error of the system stands for. -/
def fileErrorOf : IO.Error → FileError
  | .permissionDenied .. => .denied
  | .inappropriateType _ code _ => if code = 21 then .isDirectory else .notDirectory
  | .invalidArgument _ code _ => if code = 22 then .invalid else .nameTooLong
  | _ => .missing

/-- The contents of a file, if it can be read. -/
def readContents (path : String) : IO (Except FileError ByteArray) := do
  match ← (IO.FS.readBinFile path).toBaseIO with
  | .ok contents => return .ok contents
  | .error e => return .error (fileErrorOf e)

/-- The bytes of a file, if it can be read. -/
def readBytes (path : String) : IO (Except FileError (List Byte)) := do
  return (← readContents path).map fun contents => contents.data.toList.map UInt8.toBitVec

/-- The text of a file, if it can be read; empty when its bytes spell none. -/
def readText (path : String) : IO (Except FileError String) := do
  return (← readContents path).map fun contents => (String.fromUTF8? contents).getD ""

/-- Writes a log entry if it is let through. -/
def writeEntry (logger : Logger) (e : Entry) : IO Unit :=
  match logger.line? e with
  | some line => IO.eprintln line
  | none => pure ()

/-- Groups of hexadecimal digits with dashes between them: eight, four, four, four and twelve. -/
def idText (bytes : List Byte) : String :=
  let digits := (Text.hexBytes bytes).toList
  let group (start size : Nat) : String := String.ofList ((digits.drop start).take size)
  "-".intercalate [group 0 8, group 8 4, group 12 4, group 16 4, group 20 12]

/-- A name for a run. -/
def freshRunId : IO String := do
  let bytes ← IO.getRandomBytes 16
  return idText (bytes.data.toList.map UInt8.toBitVec)

/-- Runs a session to its end, allowing it twice as many blocks whenever they were not enough. -/
partial def runToEnd (s : Session) (fuel : Nat) (store : Store) : IO Report := do
  let id ← freshRunId
  let now := Instant.ofUnix 0 (← IO.monoNanosNow)
  match s.run fuel store id now with
  | some report => return report
  | none => runToEnd s (2 * fuel) store

/-- Runs the image at a path and reports. Gives the store afterwards, and whether the run was
without failure. -/
def runImage (settings : Settings) (logger : Logger) (path : String) (store : Store) :
    IO (Store × Bool) := do
  let session : Session :=
    { path := path
      file := ← readBytes path
      raw := settings.raw
      maxBlocks := settings.maxBlocks
      dumpCode := settings.dumpCode
      keepsRecord := !settings.snapshotDir.isEmpty
      logger := logger }
  let report ← runToEnd session 1024 store
  let about (e : Entry) : Entry := { e with fields := ("image", path) :: e.fields }
  for e in report.log do
    writeEntry logger (about e)
  for d in report.dump do
    IO.println d.headline
    for line in d.listing do
      IO.println ("\t" ++ line)
  match report.result with
  | .ok () => return (report.store, true)
  | .error f =>
    let failed : Entry :=
      { level := .error, message := "Run failed", fields := [("error", f.text)] }
    writeEntry logger (about failed)
    return (report.store, false)

/-- Looks at the image once a second and runs it again when its contents have changed. -/
partial def watch (settings : Settings) (logger : Logger) (path : String) (store : Store)
    (last : Except FileError (List Byte)) : IO Unit := do
  IO.sleep 1000
  let contents ← readBytes path
  if contents.toOption = last.toOption ∨ contents.toOption = none then
    watch settings logger path store last
  else
    writeEntry logger { level := .info, message := "Image changed", fields := [("image", path)] }
    let (store, _) ← runImage settings logger path store
    watch settings logger path store contents

/-- Says why nothing can be run. -/
def refuse (message : String) : IO UInt32 := do
  writeEntry {} { level := .fatal, message := "Invalid configuration: " ++ message }
  return 1

/-- The environment variables that are looked at, with their values. -/
def environment : IO (List (String × String)) :=
  Settings.variableNames.mapM fun name => do
    return (name, (← IO.getEnv name).getD "")

/-- Reads settings and runs the image they are for. -/
def start (args : List String) : IO UInt32 := do
  let env ← environment
  let path := Settings.configPathOf args
  let file ← readText path
  match Settings.load args (fun name => (env.lookup name).getD "") fun _ => file with
  | .error e =>
    IO.eprint e.notice
    refuse e.message
  | .ok (settings, image) =>
    match Logger.ofNames settings.logLevel settings.logFormat with
    | .error e => refuse e.message
    | .ok logger =>
      let (store, good) ← runImage settings logger image {}
      if settings.watch then
        writeEntry logger
          { level := .info, message := "Watching for changes", fields := [("image", image)] }
        watch settings logger image store (← readBytes image)
        return 0
      else return if good then 0 else 1

end Dynarec

/-- The entry point. -/
def main (args : List String) : IO UInt32 :=
  Dynarec.start args
