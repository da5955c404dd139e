import DeskCalc.Compilation

/-!
# The command line

The command takes a source file and a target file. It reads the source, compiles it and writes the
generated code. Nothing is written unless the source is a program; faults of a program are reported
and do not keep its code from being written. How files are read and written is a parameter, so that
the same command runs on a file system in memory, and so is the room that a machine has for a symbol
table.

The command crashes if one of its arguments is no text, and if there is no room for the symbol
table. What the machine itself says of a crash is left out.

Main statements: `run_of_texts?_eq_none` — the command crashes on arguments that are no text — and
`run_of_length_ne` — with any other number of arguments than two it only explains its use.
-/

namespace DeskCalc.CommandLine

/-- Why a file cannot be read or written. -/
inductive FileError where
  | notFound
  | notADirectory
  | isADirectory
  | nameTooLong
  /-- The bytes are no UTF-8 text. -/
  | notText
  | other (message : String)
deriving DecidableEq, Inhabited

namespace FileError

/-- The wording of a file error. -/
def text : FileError → String
  | notFound => "No such file or directory (os error 2)"
  | notADirectory => "Not a directory (os error 20)"
  | isADirectory => "Is a directory (os error 21)"
  | nameTooLong => "File name too long (os error 36)"
  | notText => "stream did not contain valid UTF-8"
  | other message => message

end FileError

/-- How files are read and written. A write replaces the whole file, or fails and changes
nothing. -/
structure FileAccess (m : Type → Type) where
  read : String → m (Except FileError ByteArray)
  write : String → ByteArray → m (Except FileError Unit)

/-- How the command can crash. -/
inductive Crash where
  /-- It gives up by itself. -/
  | panic
  /-- It is ended for want of memory. -/
  | abort
deriving DecidableEq, Inhabited

/-- The exit code of a crash. That of an abort is the one that shells show. -/
def Crash.code : Crash → UInt8
  | panic => 101
  | abort => 134

/-- How the command ends. -/
inductive Status where
  | success
  /-- It was called in a wrong way, or the source is no program. -/
  | failure
  /-- The source cannot be read, or the target cannot be written. -/
  | inaccessible
  | crashed (crash : Crash)
deriving DecidableEq, Inhabited

/-- The exit code of a status. -/
def Status.code : Status → UInt8
  | success => 0
  | failure => 1
  | inaccessible => 2
  | crashed crash => crash.code

/-- How the command ended, and the lines it wrote to the standard error stream. -/
structure Report where
  status : Status
  lines : List String
deriving DecidableEq, Inhabited

namespace Report

/-- All that was written to the standard error stream. -/
def errorText (r : Report) : String := String.join (r.lines.map (· ++ "\n"))

end Report

/-- How the command is used, under the name by which it was called. -/
def usage (program : String) : String :=
  "Usage: " ++ program ++ " <source_file> <target_file>"

/-- A complaint about a file. -/
def complaint (file problem : String) : String := "error: " ++ file ++ ": " ++ problem

/-- The text in some bytes. -/
def decode (bytes : ByteArray) : Except FileError String :=
  match String.fromUTF8? bytes with
  | some text => .ok text
  | none => .error .notText

/-! ## Arguments -/

/-- The name of the command. -/
def commandName : String := "acdc"

/-- What the command is called with: the bytes of its own name, if there is one, and of its
arguments. -/
structure Arguments where
  bytes : List ByteArray
deriving Inhabited

namespace Arguments

/-- The command called by its own name with texts. -/
def ofTexts (texts : List String) : Arguments := ⟨(commandName :: texts).map String.toUTF8⟩

instance : Coe (List String) Arguments := ⟨ofTexts⟩

/-- The texts that the command is called with, if all are texts. -/
def texts? (arguments : Arguments) : Option (List String) :=
  arguments.bytes.mapM String.fromUTF8?

end Arguments

/-! ## Memory -/

/-- The room that a machine has: the crash that comes of asking for a symbol table of so many slots,
if any. -/
abbrev Memory := Nat → Option Crash

namespace Memory

/-- The bytes of a slot. -/
def slotBytes : Nat := 32

/-- The most bytes that can be asked for at a time. -/
def maxBytes : Nat := UInt64.size / 2 - 1

/-- A machine with room for all that can be asked for. -/
def addressed : Memory := fun slots =>
  if slots * slotBytes ≤ maxBytes then none else some .panic

end Memory

/-- Compile a source on a machine with so much room. The symbol table is asked for once the source
has been read as a program. -/
def compileWithin (memory : Memory) (settings : Settings) (source : String) :
    Except Crash (Except ParseError Compilation) :=
  match Parse.program (.ofString source) with
  | .error e _ => .ok (.error e)
  | .ok p _ =>
    match memory (max settings.symbolCapacity 1) with
    | some crash => .error crash
    | none => .ok (.ok (p.compile settings).1)

/-! ## The command -/

/-- Compile the file `source` to the file `target`. -/
def translate {m : Type → Type} [Monad m] (files : FileAccess m) (memory : Memory)
    (settings : Settings) (source target : String) : m Report := do
  match (← files.read source) >>= decode with
  | .error e =>
    return ⟨.inaccessible, [complaint ("can't open source file " ++ source) e.text]⟩
  | .ok text =>
    match compileWithin memory settings text with
    | .error crash => return ⟨.crashed crash, []⟩
    | .ok (.error e) => return ⟨.failure, [complaint source e.message]⟩
    | .ok (.ok compilation) =>
      let faults := compilation.diagnostics.map fun d => complaint source d.message
      match ← files.write target compilation.output.toUTF8 with
      | .ok () => return ⟨.success, faults⟩
      | .error e =>
        return ⟨.inaccessible, faults ++ [complaint ("can't open target file " ++ target) e.text]⟩

/-- The command, given the environment, what it is called with and the room of the machine. -/
def run {m : Type → Type} [Monad m] (files : FileAccess m) (env : Environment)
    (arguments : Arguments) (memory : Memory := .addressed) : m Report :=
  match arguments.texts? with
  | none => return ⟨.crashed .panic, []⟩
  | some [_, source, target] => translate files memory (Settings.ofEnvironment env).1 source target
  | some texts => return ⟨.failure, [usage (texts.headD commandName)]⟩

variable {m : Type → Type} [Monad m] (files : FileAccess m) (env : Environment)
  {arguments : Arguments} (memory : Memory)

/-- The command crashes on arguments that are no text. -/
theorem run_of_texts?_eq_none (h : arguments.texts? = none) :
    run files env arguments memory = pure ⟨.crashed .panic, []⟩ := by
  rw [run, h]

/-- With any other number of arguments than two the command only explains its use. -/
theorem run_of_length_ne {texts : List String} (h : arguments.texts? = some texts)
    (hlength : texts.length ≠ 3) :
    run files env arguments memory = pure ⟨.failure, [usage (texts.headD commandName)]⟩ := by
  unfold run
  rw [h]
  split
  · next heq => cases heq
  · next heq =>
    cases heq
    exact absurd rfl hlength
  · next heq =>
    cases heq
    rfl

end DeskCalc.CommandLine
