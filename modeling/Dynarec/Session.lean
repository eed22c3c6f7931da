import Dynarec.Digest
import Dynarec.Engine.Run
import Dynarec.Files
import Dynarec.Image
import Dynarec.Log
import Dynarec.Record.Store

/-!
# Whole runs

A session loads an image, runs it from its first instruction, reports registers and counters,
prints the compiled blocks if asked to, and files a record of the run.

## Main definitions

* `Dynarec.Session` — what to run, and how.
* `Dynarec.Session.load` — the engine of an image.
* `Dynarec.Session.report` — what is said about a finished run.
* `Dynarec.Session.run` — all of it.
-/

set_option autoImplicit false

namespace Dynarec

open Log (Entry Logger)

/-- What to run, and how. -/
structure Session where
  /-- The path of the image. -/
  path : String
  /-- The contents of the image file, if it can be read. -/
  file : Except FileError (List Byte)
  raw : Bool := false
  maxBlocks : Int := 0
  dumpCode : Bool := false
  /-- Whether a record of the run is filed. -/
  keepsRecord : Bool := false
  logger : Logger := {}
  /-- When the run is cancelled. -/
  cancelled : Engine.Cancellation := .never

/-- A compiled block as it is printed: one line about it, and one for each host instruction. -/
structure Dump where
  headline : String
  listing : List String
  deriving DecidableEq, Repr

/-- What a session leaves behind. -/
structure Report where
  result : Except Failure Unit
  /-- The log entries that were let through. -/
  log : List Entry
  dump : List Dump := []
  /-- The digest of the image, if it ran and a record was to be filed. -/
  digest : Option String := none
  store : Store

/-- One word about how a run ended: its end, the kind of its failure, or the failure itself. -/
def exitName : Except Failure Unit → String
  | .ok () => Exit.halt.name
  | .error f =>
    match f.kind? with
    | some kind => kind.name
    | none => f.text

namespace Session

/-! ## Loading -/

/-- The log entry about a loaded image. -/
def loadedEntry (image : Image) (memory : Memory) : Entry where
  level := .debug
  message := "Loaded image"
  fields :=
    [("instructions", Text.decimal image.text.length),
      ("memory", Text.binarySize memory.bytes.size),
      ("raw", if image.isRaw then "true" else "false")]

/-- A failure from a loading step. -/
def loadFailure (e : ImageError) : Failure :=
  .plain (.text e.message)

/-- What is said about an image file that cannot be read: more if it could be opened. -/
def fileMessage (path : String) (e : FileError) : String :=
  (if e = .isDirectory then "failed to read " ++ path ++ ": " else "") ++ e.message path

/-- The image of a session, and an engine whose memory holds it. -/
def load (s : Session) : Except Failure (Image × Engine) :=
  match s.file with
  | .error e => .error (.plain (.text (fileMessage s.path e)))
  | .ok file => do
    let image ← (Image.read file s.raw).mapError loadFailure
    let memory ←
      (Memory.create Engine.defaultBase image.memorySize).mapError fun e => loadFailure (.memory e)
    match image.build memory with
    | (_, .error e) => .error (loadFailure e)
    | (memory, .ok ()) =>
      let bias := memory.base + BitVec.ofNat 64 image.textOffset
      let engine ←
        (Engine.create image.text (some memory) (some bias) s.maxBlocks).mapError fun e =>
          loadFailure (.memory e)
      .ok (image, engine)

/-! ## Reporting -/

/-- The log entries about something that happened in the engine. -/
def eventEntries : Engine.Event → List Entry
  | .decoded pc word =>
    [{ level := .debug
       message := "decoded instruction"
       fields := [("pc", Text.hexWord pc), ("word", Text.hex8 word.toNat)] }]
  | .compiled pc count code =>
    { level := .debug
      message := "translated block"
      fields :=
        [("entry", Text.hexWord pc), ("insts", Text.decimal count),
          ("size", Text.decimalSize code.size)] } ::
      code.listing.map fun line => { level := .trace, message := line }
  | .found pc =>
    [{ level := .debug, message := "block cache hit", fields := [("entry", Text.hexWord pc)] }]

/-- The log entries about the registers and counters of an engine. -/
def summaryEntries (e : Engine) : List Entry :=
  [{ level := .info
     message := "Registers"
     fields :=
       [("x0", Text.hexWord e.registers.x0), ("x1", Text.hexWord e.registers.x1),
         ("pc", Text.hexWord e.registers.pc),
         ("nzcv", Text.binary4 (e.registers.nzcv >>> Guest.Flags.shift).toNat)] },
    { level := .info, message := "Translated " ++ e.stats.text }]

/-- The last component of a path. -/
def baseName (path : String) : String :=
  String.ofList (path.toList.reverse.takeWhile (· != '/')).reverse

/-- Files a record of a run, and gives the log entries about it: a warning when the run before it
on the same image ended with other registers. -/
def fileRecord (store : Store) (r : Record) (freshId : String) (now : Instant) :
    Store × List Entry :=
  let differs :=
    match store.latest? r.digest with
    | none => []
    | some previous =>
      if previous.registers = r.registers then []
      else
        [{ level := .warning
           message := "Registers differ from the previous run of this image"
           fields :=
             [("previous_run", previous.runId),
               ("previous_x0", Text.hexWord previous.registers.x0)] }]
  match store.save r freshId now with
  | (store, .ok saved) =>
    (store,
      differs ++
        [{ level := .debug, message := "Saved snapshot", fields := [("run_id", saved.runId)] }])
  | (store, .error e) =>
    (store,
      differs ++
        [{ level := .warning
           message := "Failed to save snapshot"
           fields := [("error", e.message)] }])

/-- What is said about a finished run, and the record that is filed. -/
def report (s : Session) (image : Image) (e : Engine) (result : Except Failure Unit)
    (store : Store) (freshId : String) (now : Instant) : Report :=
  let entries :=
    loadedEntry image e.memory :: e.journal.toList.flatMap eventEntries ++ summaryEntries e
  let dump :=
    if s.dumpCode then
      e.blocks.map fun b => { headline := b.text e.loadBias, listing := b.code.listing }
    else []
  let digest := Digest.text image.file
  let (store, more) :=
    if s.keepsRecord then
      fileRecord store
        { digest := digest
          image := baseName s.path
          registers := e.registers
          stats := e.stats
          exit := exitName result }
        freshId now
    else (store, [])
  { result := result
    log := (entries ++ more).filter fun entry => s.logger.enabled entry.level
    dump := dump
    digest := if s.keepsRecord then some digest else none
    store := store }

/-! ## Running -/

/-- Sessions ask the least disassembler: any other would make no difference. -/
instance : Guest.Disassembler := .least

/-- Loads the image, runs it for at most `fuel` blocks and reports; none when they were not
enough. Nothing is filed when the image cannot be loaded. -/
def run (s : Session) (fuel : Nat) (store : Store) (freshId : String) (now : Instant) :
    Option Report :=
  match s.load with
  | .error f => some { result := .error f, log := [], store := store }
  | .ok (image, engine) =>
    match engine.run fuel s.cancelled 0 with
    | (_, none) => none
    | (engine, some result) => some (s.report image engine result store freshId now)

end Session

end Dynarec
