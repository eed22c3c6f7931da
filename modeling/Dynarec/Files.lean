/-!
# Files

Files by their place in a tree of directories, and the ways in which a path leads to none. A path is
followed name by name, so that the first thing that is wrong with it counts.

## Main definitions

* `Dynarec.FileError` — why a file cannot be read, and the wording.
* `Dynarec.Files` — files in a tree of directories.
* `Dynarec.Files.read` — the contents of the file at a path.
-/

set_option autoImplicit false

namespace Dynarec

/-! ## Errors -/

/-- Why a file cannot be read. -/
inductive FileError where
  | missing
  | denied
  | nameTooLong
  /-- A path goes on behind a file. -/
  | notDirectory
  /-- A path ends at a directory. -/
  | isDirectory
  /-- A path holds a NUL. -/
  | invalid
  deriving DecidableEq, Repr

namespace FileError

/-- The cause in words. -/
def cause : FileError → String
  | missing => "no such file or directory"
  | denied => "permission denied"
  | nameTooLong => "file name too long"
  | notDirectory => "not a directory"
  | isDirectory => "is a directory"
  | invalid => "invalid argument"

/-- The wording of an error. Directories can be opened, but not read. -/
def message (e : FileError) (path : String) : String :=
  (if e = isDirectory then "read " else "open ") ++ path ++ ": " ++ e.cause

end FileError

/-! ## Paths -/

/-- The names of a path, divided by slashes; there are empty ones where slashes meet. -/
def pathNames : List Char → List (List Char)
  | [] => [[]]
  | c :: rest =>
    if c = '/' then [] :: pathNames rest
    else
      match pathNames rest with
      | [] => [[c]]
      | name :: names => (c :: name) :: names

/-- The number of bytes from which on a path is too long. -/
def pathLimit : Nat := 4096

/-- The most bytes that a name has. -/
def maxNameSize : Nat := 255

/-! ## Trees -/

/-- Files in a tree of directories. -/
structure Files (α : Type) where
  /-- The files, each with the names on the way to it. -/
  entries : List (List String × α) := []
  /-- The way to the directory at which relative paths start. -/
  here : List String := []

namespace Files

variable {α : Type}

/-- Whether there is a directory at a place: there is one on the way to every file. -/
def isDirectory (t : Files α) (place : List String) : Bool :=
  place.isPrefixOf t.here || t.entries.any fun e => place.isPrefixOf e.1

/-- Follows names from a directory on. Empty names and single dots stay there, and two dots lead
back. -/
def follow (t : Files α) (place : List String) : List String → Except FileError α
  | [] => .error .isDirectory
  | name :: rest =>
    if name = "" ∨ name = "." then t.follow place rest
    else if name = ".." then t.follow place.dropLast rest
    else if maxNameSize < name.utf8ByteSize then .error .nameTooLong
    else
      let next := place ++ [name]
      match t.entries.lookup next with
      | some contents => if rest.isEmpty then .ok contents else .error .notDirectory
      | none => if t.isDirectory next then t.follow next rest else .error .missing

/-- The contents of the file at a path. -/
def read (t : Files α) (path : String) : Except FileError α :=
  let chars := path.toList
  if path.isEmpty then .error .missing
  else if chars.contains (Char.ofNat 0) then .error .invalid
  else if pathLimit ≤ path.utf8ByteSize then .error .nameTooLong
  else
    t.follow (if chars.head? = some '/' then [] else t.here)
      ((pathNames chars).map String.ofList)

end Files

end Dynarec
