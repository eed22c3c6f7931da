import Dynarec.Engine.Block
import Dynarec.Record.Instant

/-!
# Records of finished runs

A store keeps a record of every finished run under a key that starts with the digest of the image,
then the time, then the name of the run. Keys are byte strings in their usual order, so the records
of one image stand together.

## Main definitions

* `Dynarec.Record` — what is kept of a run.
* `Dynarec.Record.key` — the key of a record.
* `Dynarec.upperBound?` — the end of the range of keys with a common start.
* `Dynarec.Store` — records in the order of their keys.
* `Dynarec.Store.save`, `Dynarec.Store.list`, `Dynarec.Store.latest?` — using a store.
-/

set_option autoImplicit false

namespace Dynarec

/-! ## Records -/

/-- What is kept of a finished run: its name, the image, the registers and counters at its end,
and when and how it ended. -/
structure Record where
  runId : String := ""
  /-- The digest of the image that ran. -/
  digest : String
  image : String := ""
  registers : Registers := {}
  stats : Engine.Stats := {}
  /-- How the run ended. -/
  exit : String := ""
  finished : Instant := .unset
  deriving DecidableEq, Repr

/-- A key: a byte string. Keys are compared byte by byte, and a key comes before the keys that
continue it. -/
abbrev Key := List Byte

/-- The bytes of text, as text is encoded. -/
def textBytes (s : String) : List Byte :=
  s.toByteArray.data.toList.map UInt8.toBitVec

/-- The time in a key: twenty characters, a sign taking the place of a digit. -/
def timeText (nanos : Int) : String :=
  String.ofList <|
    if nanos < 0 then '-' :: Text.padded 19 (Nat.toDigits 10 nanos.natAbs)
    else Text.padded 20 (Nat.toDigits 10 nanos.toNat)

/-- What the keys of an image start with, up to the slash behind the digest. -/
def digestStart (digest : String) : Key :=
  textBytes ("run/" ++ digest ++ "/")

/-- The key of a record: digest, time and name of the run, with slashes in between. -/
def Record.key (r : Record) : Key :=
  digestStart r.digest ++ textBytes (timeText r.finished.unixNano ++ "/" ++ r.runId)

/-- The least byte string above all that start with the given one: the last byte that can be raised
is raised, and what follows it is dropped. There is none when no byte can be raised. -/
def upperBound? (start : Key) : Option Key :=
  match start.reverse.dropWhile (· == 0xFF) with
  | [] => none
  | b :: rest => some ((b + 1) :: rest).reverse

/-! ## Stores -/

/-- Why a record was not saved: it names no image, or its time has no text. -/
inductive StoreError where
  | noDigest
  | encode
  deriving DecidableEq, Repr

/-- The wording of a store error. -/
def StoreError.message : StoreError → String
  | noDigest => "record has no image digest"
  | encode => "failed to encode record"

/-- Records in the order of their keys, each key once. -/
structure Store where
  entries : List (Key × Record) := []

namespace Store

/-- Puts a record under a key, in place of the one that was there. -/
def insert (key : Key) (r : Record) : List (Key × Record) → List (Key × Record)
  | [] => [(key, r)]
  | e :: rest =>
    if key < e.1 then (key, r) :: e :: rest
    else if key = e.1 then (key, r) :: rest
    else e :: insert key r rest

/-- Saves a record, with the given name and time where it has none of its own. A record that
cannot be saved leaves the store as it was. -/
def save (s : Store) (r : Record) (freshId : String) (now : Instant) :
    Store × Except StoreError Record :=
  if r.digest.isEmpty then (s, .error .noDigest)
  else
    let r :=
      { r with
        runId := if r.runId.isEmpty then freshId else r.runId
        finished := if r.finished = Instant.unset then now else r.finished }
    if r.finished.hasText then ({ entries := insert r.key r s.entries }, .ok r)
    else (s, .error .encode)

/-- Whether a key lies in the range of keys that start with the given one. -/
def inRange (start key : Key) : Bool :=
  match upperBound? start with
  | none => start ≤ key
  | some bound => start ≤ key && key < bound

/-- The records of an image, in the order of their keys. They are those in the range of the keys
that start with its digest. -/
def list (s : Store) (digest : String) : List Record :=
  (s.entries.filter fun e => inRange (digestStart digest) e.1).map Prod.snd

/-- The record of an image with the highest key, if it has any. -/
def latest? (s : Store) (digest : String) : Option Record :=
  (s.entries.reverse.find? fun e => inRange (digestStart digest) e.1).map Prod.snd

end Store

end Dynarec
