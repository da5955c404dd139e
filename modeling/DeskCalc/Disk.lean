import DeskCalc.CommandLine

/-!
# A file system in memory

Directories and files with their bytes, and a working directory from which relative paths lead on.
A path is followed name by name: `.` stays, `..` goes up, and every name but the last has to be that
of a directory.

Main statements: `Disk.file?_put` — a write gives the file its new content; `Disk.file?_put_of_ne` —
and leaves every other file alone.
-/

namespace DeskCalc

open CommandLine (FileError FileAccess)

/-- Directories and files, each at the names that lead there from the root. -/
structure Disk where
  directories : List (List String)
  files : List (List String × ByteArray)
  /-- Where relative paths start. -/
  working : List String
deriving Inhabited

namespace Disk

/-- The most bytes of a name. -/
def maxNameBytes : Nat := 255

/-- The most bytes of a path. -/
def maxPathBytes : Nat := 4095

/-- The names in a path, in order. -/
def names (path : String) : List String :=
  ((splitSlash path.toList).filter (· ≠ [])).map String.ofList
where
  /-- The pieces between the slashes. -/
  splitSlash : List Char → List (List Char)
    | [] => [[]]
    | c :: cs =>
      if c = '/' then [] :: splitSlash cs
      else
        match splitSlash cs with
        | [] => [[c]]
        | piece :: pieces => (c :: piece) :: pieces

/-- Whether there is a directory at `place`. A directory is also what holds the working directory,
another directory or a file. -/
def isDirectory (d : Disk) (place : List String) : Bool :=
  place.isPrefixOf d.working || d.directories.any place.isPrefixOf ||
    d.files.any fun file => place.isPrefixOf file.1.dropLast

/-- The content of the file at `place`. -/
def file? (d : Disk) (place : List String) : Option ByteArray := d.files.lookup place

/-- The directory that `name` leads to from the directory `place`. -/
def enter (d : Disk) (place : List String) (name : String) : Except FileError (List String) :=
  if name = "." then .ok place
  else if name = ".." then .ok place.dropLast
  else if name.utf8ByteSize > maxNameBytes then .error .nameTooLong
  else if d.isDirectory (place ++ [name]) then .ok (place ++ [name])
  else if (d.file? (place ++ [name])).isSome then .error .notADirectory
  else .error .notFound

/-- What a path leads to, but for its last name. -/
inductive Goal where
  /-- A directory, by a path that ends in `.` or `..` or is the root. -/
  | directory
  /-- The entry `name` of the directory `place`, whether it is there or not. -/
  | entry (place : List String) (name : String)
deriving DecidableEq, Inhabited

/-- Follow a path up to its last name. -/
def follow (d : Disk) (path : String) : Except FileError Goal :=
  if path = "" then .error .notFound
  else if path.utf8ByteSize > maxPathBytes then .error .nameTooLong
  else
    let start := if path.toList.head? = some '/' then [] else d.working
    match (names path).getLast? with
    | none => .ok .directory
    | some last =>
      match (names path).dropLast.foldlM d.enter start with
      | .error e => .error e
      | .ok place =>
        .ok (if last = "." ∨ last = ".." then .directory else .entry place last)

/-- Whether a path ends in a slash, as only a path to a directory may. -/
def isSlashed (path : String) : Bool := path.toList.getLast? = some '/'

/-- The bytes of the file that a path leads to. -/
def read (d : Disk) (path : String) : Except FileError ByteArray :=
  match d.follow path with
  | .error e => .error e
  | .ok .directory => .error .isADirectory
  | .ok (.entry place name) =>
    if name.utf8ByteSize > maxNameBytes then .error .nameTooLong
    else if d.isDirectory (place ++ [name]) then .error .isADirectory
    else
      match d.file? (place ++ [name]) with
      | none => .error .notFound
      | some bytes => if isSlashed path then .error .notADirectory else .ok bytes

/-- The place at which a path lets a file be written. -/
def writable (d : Disk) (path : String) : Except FileError (List String) :=
  match d.follow path with
  | .error e => .error e
  | .ok .directory => .error .isADirectory
  | .ok (.entry place name) =>
    if isSlashed path then .error .isADirectory
    else if name.utf8ByteSize > maxNameBytes then .error .nameTooLong
    else if d.isDirectory (place ++ [name]) then .error .isADirectory
    else .ok (place ++ [name])

/-- Give the file at `place` the content `bytes`, whether it was there before or not. -/
def put (d : Disk) (place : List String) (bytes : ByteArray) : Disk :=
  { d with files := (place, bytes) :: d.files.filter fun file => file.1 ≠ place }

/-- Write a file as a whole. -/
def write (d : Disk) (path : String) (bytes : ByteArray) : Except FileError Disk :=
  match d.writable path with
  | .error e => .error e
  | .ok place => .ok (d.put place bytes)

/-- The files directly in the working directory. -/
def workingFiles (d : Disk) : List (String × ByteArray) :=
  d.files.filterMap fun (place, bytes) =>
    match place.getLast? with
    | some name => if place = d.working ++ [name] then some (name, bytes) else none
    | none => none

/-- A working directory at `working` that holds the given directories and files. -/
def ofWorking (working directories : List String) (files : List (String × ByteArray)) : Disk :=
  { directories := directories.map fun path => working ++ names path
    files := files.map fun (path, bytes) => (working ++ names path, bytes)
    working }

/-- Reading and writing files of a disk. -/
def access : FileAccess (StateM Disk) where
  read path := fun d => (d.read path, d)
  write path bytes := fun d =>
    match d.write path bytes with
    | .error e => (.error e, d)
    | .ok d' => (.ok (), d')

/-- A file has the content that was put there. -/
@[simp] theorem file?_put (d : Disk) (place : List String) (bytes : ByteArray) :
    (d.put place bytes).file? place = some bytes := by
  simp [put, file?]

/-- Every other file stays as it was. -/
theorem file?_put_of_ne (d : Disk) {place other : List String} (bytes : ByteArray)
    (h : other ≠ place) : (d.put place bytes).file? other = d.file? other := by
  have hlookup (files : List (List String × ByteArray)) :
      (files.filter fun file => file.1 ≠ place).lookup other = files.lookup other := by
    induction files with
    | nil => rfl
    | cons file files ih =>
      obtain ⟨held, content⟩ := file
      by_cases hheld : held = place
      · -- the file is replaced, and it is not the one looked for
        subst hheld
        rw [List.filter_cons_of_neg (by simp)]
        simp only [List.lookup_cons, beq_false_of_ne h]
        exact ih
      · rw [List.filter_cons_of_pos (by simpa using hheld)]
        simp only [List.lookup_cons]
        rw [ih]
  simp only [put, file?, List.lookup_cons, beq_false_of_ne h]
  exact hlookup d.files

end Disk

end DeskCalc
