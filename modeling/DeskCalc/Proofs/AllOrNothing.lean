import DeskCalc.Disk
import DeskCalc.Proofs.Messages

/-!
# All or nothing

The command writes one file, its target, and only as its last step. Whatever stands in its way
before leaves all files as they were: arguments that are no text, another number of them than two, a
source that cannot be read, one that is no program, a symbol table that there is no room for, a
target that cannot be opened. Of these the first one in this order gives the exit code. Faults of a
program stand in the way of nothing.

This rests on little about the files: reading changes none of them, and a write fails as a whole or
replaces one file. So it is shown for every file system that keeps to this, and the one in memory
does. It is shown for every machine too, whatever room it has for a symbol table.

Main statements: `Disk.fileSystem`, `run_all_or_nothing` and `run_crashes_and_splits_reports`.
-/

namespace DeskCalc

open CommandLine

/-! ## File systems -/

/-- Files that the command can be run on. A path that opens a file for writing leads to its place,
and so do all other paths to the same file. -/
structure FileSystem (σ Place : Type) where
  access : FileAccess (StateM σ)
  /-- The content of the file at a place, if there is one. -/
  content : σ → Place → Option ByteArray
  /-- The place of the file that a path opens for writing, or why there is none. -/
  opened : σ → String → Except FileError Place
  -- reading changes nothing, and what it finds at a place that could be written is held there
  read_keeps : ∀ s path, ((access.read path).run s).2 = s
  content_of_read : ∀ {s path place bytes}, opened s path = .ok place →
    ((access.read path).run s).1 = .ok bytes → content s place = some bytes
  -- a write that cannot open its file changes nothing
  write_of_not_opened : ∀ {s path e} bytes, opened s path = .error e →
    (access.write path bytes).run s = (.error e, s)
  -- one that can replaces the file as a whole, and no other file
  write_of_opened : ∀ {s path place} bytes, opened s path = .ok place →
    ((access.write path bytes).run s).1 = .ok ()
  content_of_opened : ∀ {s path place} bytes, opened s path = .ok place →
    content ((access.write path bytes).run s).2 place = some bytes
  content_of_ne : ∀ {s path place other} bytes, opened s path = .ok place → other ≠ place →
    content ((access.write path bytes).run s).2 other = content s other

namespace Disk

variable {d : Disk} {path : String} {place : List String}

/-- What is read at a path that opens a file for writing is the content of that file. -/
private theorem file?_of_read (h : d.writable path = .ok place) {bytes : ByteArray}
    (hread : d.read path = .ok bytes) : d.file? place = some bytes := by
  unfold read at hread
  unfold writable at h
  -- the path is followed alike
  split at hread
  · cases hread
  · cases hread
  · next entered name hfollow =>
    rw [hfollow] at h
    dsimp only at h
    split at h
    · cases h
    · split at hread
      · cases hread
      · next hfits =>
        rw [if_neg hfits] at h
        split at hread
        · cases hread
        · next hdirectory =>
          rw [if_neg hdirectory] at h
          cases h
          split at hread
          · cases hread
          · next content hcontent =>
            cases hread
            exact hcontent

private theorem run_write_of_error {e : FileError} (h : d.writable path = .error e)
    (bytes : ByteArray) : (access.write path bytes).run d = (.error e, d) := by
  simp only [access, StateT.run, write, h]

private theorem run_write_of_ok (h : d.writable path = .ok place) (bytes : ByteArray) :
    (access.write path bytes).run d = (.ok (), d.put place bytes) := by
  simp only [access, StateT.run, write, h]

/-- The files of a disk. -/
def fileSystem : FileSystem Disk (List String) where
  access := access
  content := file?
  opened := writable
  read_keeps _ _ := rfl
  content_of_read h hread := file?_of_read h hread
  write_of_not_opened bytes h := run_write_of_error h bytes
  write_of_opened bytes h := by rw [run_write_of_ok h]
  content_of_opened bytes h := by
    rw [run_write_of_ok h]
    exact file?_put _ _ bytes
  content_of_ne bytes h hne := by
    rw [run_write_of_ok h]
    exact file?_put_of_ne _ bytes hne

end Disk

/-! ## Runs of the command -/

/-- What comes behind goes on from the state that is left in front. -/
private theorem run_bind {σ α β : Type} (front : StateM σ α) (behind : α → StateM σ β) (s : σ) :
    (front >>= behind).run s = (behind (front.run s).1).run (front.run s).2 := rfl

section compileWithin

variable (memory : Memory) {settings : Settings} {source : String} {c : Cursor}

private theorem compileWithin_of_no_program (settings : Settings) {e : ParseError}
    (h : Parse.program (.ofString source) = .error e c) :
    compileWithin memory settings source = .ok (.error e) := by
  rw [compileWithin, h]

private theorem compileWithin_of_no_room {p : Program} {crash : Crash}
    (h : Parse.program (.ofString source) = .ok p c)
    (hmemory : memory (max settings.symbolCapacity 1) = some crash) :
    compileWithin memory settings source = .error crash := by
  simp only [compileWithin, h, hmemory]

private theorem compileWithin_of_room {p : Program} (h : Parse.program (.ofString source) = .ok p c)
    (hmemory : memory (max settings.symbolCapacity 1) = none) :
    compileWithin memory settings source = .ok (.ok (p.compile settings).1) := by
  simp only [compileWithin, h, hmemory]

end compileWithin

namespace FileSystem

variable {σ Place : Type} (fs : FileSystem σ Place) (memory : Memory) (settings : Settings)
  {source target text : String} {s : σ} {compilation : Compilation}

/-- The text of the file that a path leads to. -/
def readText (s : σ) (path : String) : Except FileError String :=
  ((fs.access.read path).run s).1 >>= decode

/-- A text that was read where a file could be written is that of its content. -/
private theorem content_of_readText {path : String} {place : Place}
    (h : fs.opened s path = .ok place) (htext : fs.readText s path = .ok text) :
    ∃ bytes, fs.content s place = some bytes ∧ decode bytes = .ok text := by
  unfold readText at htext
  -- a file that cannot be read has no text
  cases hread : ((fs.access.read path).run s).1 with
  | error e =>
    rw [hread] at htext
    cases htext
  | ok bytes =>
    rw [hread] at htext
    exact ⟨bytes, fs.content_of_read h hread, htext⟩

/-- The exit code that is due: that of the first thing that stands in the way. -/
def dueCode (s : σ) (arguments : Arguments) : UInt8 :=
  match arguments.texts? with
  | none => Crash.panic.code
  | some [_, source, target] =>
    match fs.readText s source with
    | .error _ => 2
    | .ok text =>
      match Parse.program (.ofString text) with
      | .error .. => 1
      | .ok .. =>
        match memory (max settings.symbolCapacity 1) with
        | some crash => crash.code
        | none =>
          match fs.opened s target with
          | .error _ => 2
          | .ok _ => 0
  | some _ => 1

private theorem dueCode_of_length_ne {arguments : Arguments} {texts : List String}
    (h : arguments.texts? = some texts) (hlength : texts.length ≠ 3) :
    fs.dueCode memory settings s arguments = 1 := by
  unfold dueCode
  rw [h]
  -- of the texts only a list of three leads on
  split
  · next heq => cases heq
  · next heq =>
    cases heq
    exact absurd rfl hlength
  · rfl

/-- The reports of the faults of a compilation, a line for each. -/
def faultLines (source : String) (compilation : Compilation) : List String :=
  compilation.diagnostics.map fun d => complaint source d.message

private theorem run_translate_of_unreadable {e : FileError} (h : fs.readText s source = .error e) :
    (CommandLine.translate fs.access memory settings source target).run s =
      (⟨.inaccessible, [complaint ("can't open source file " ++ source) e.text]⟩, s) := by
  unfold readText at h
  rw [CommandLine.translate, run_bind, fs.read_keeps]
  simp only [h]
  rfl

private theorem run_translate_of_no_program {e : ParseError} (h : fs.readText s source = .ok text)
    (hcompile : compileWithin memory settings text = .ok (.error e)) :
    (CommandLine.translate fs.access memory settings source target).run s =
      (⟨.failure, [complaint source e.message]⟩, s) := by
  unfold readText at h
  rw [CommandLine.translate, run_bind, fs.read_keeps]
  simp only [h, hcompile]
  rfl

/-- Where there is no room for the symbol table, nothing is reported of the program. -/
private theorem run_translate_of_no_room {crash : Crash} (h : fs.readText s source = .ok text)
    (hcompile : compileWithin memory settings text = .error crash) :
    (CommandLine.translate fs.access memory settings source target).run s =
      (⟨.crashed crash, []⟩, s) := by
  unfold readText at h
  rw [CommandLine.translate, run_bind, fs.read_keeps]
  simp only [h, hcompile]
  rfl

/-- Where the target cannot be opened, the faults are reported all the same. -/
private theorem run_translate_of_not_opened {e : FileError} (h : fs.readText s source = .ok text)
    (hcompile : compileWithin memory settings text = .ok (.ok compilation))
    (htarget : fs.opened s target = .error e) :
    (CommandLine.translate fs.access memory settings source target).run s =
      (⟨.inaccessible, faultLines source compilation ++
        [complaint ("can't open target file " ++ target) e.text]⟩, s) := by
  unfold readText at h
  rw [CommandLine.translate, run_bind, fs.read_keeps]
  simp only [h, hcompile]
  -- the faults have been reported by the time the write fails
  rw [run_bind, fs.write_of_not_opened _ htarget]
  rfl

/-- The code of a program is written, whatever the faults of the program. -/
private theorem run_translate_of_opened {place : Place} (h : fs.readText s source = .ok text)
    (hcompile : compileWithin memory settings text = .ok (.ok compilation))
    (htarget : fs.opened s target = .ok place) :
    (CommandLine.translate fs.access memory settings source target).run s =
      (⟨.success, faultLines source compilation⟩,
        ((fs.access.write target compilation.output.toUTF8).run s).2) := by
  unfold readText at h
  rw [CommandLine.translate, run_bind, fs.read_keeps]
  simp only [h, hcompile]
  rw [run_bind, fs.write_of_opened _ htarget]
  rfl

/-- The exit code is zero only if nothing stands in the way. -/
private theorem exists_opened_of_dueCode_eq_zero {arguments : Arguments}
    (h : fs.dueCode memory settings s arguments = 0) :
    ∃ program source target text p c place, arguments.texts? = some [program, source, target] ∧
      fs.readText s source = .ok text ∧ Parse.program (.ofString text) = .ok p c ∧
      memory (max settings.symbolCapacity 1) = none ∧ fs.opened s target = .ok place := by
  have hcrashed (crash : Crash) : crash.code ≠ 0 := by cases crash <;> decide
  unfold dueCode at h
  -- one split for each obstacle, in the order in which they are met
  split at h
  · exact absurd h (hcrashed .panic)
  · next program source target htexts =>
    split at h
    · cases h
    · next text htext =>
      split at h
      · cases h
      · next p c hparse =>
        split at h
        · next crash _ => exact absurd h (hcrashed crash)
        · next hmemory =>
          split at h
          · cases h
          · next place htarget =>
            exact ⟨program, source, target, text, p, c, place, htexts, htext, hparse, hmemory,
              htarget⟩
  · cases h

/-- Where something stands in the way, the command ends with the exit code of that and changes
nothing. -/
private theorem run_of_dueCode_ne_zero {env : Environment} {arguments : Arguments}
    (h : fs.dueCode memory (Settings.ofEnvironment env).1 s arguments ≠ 0) :
    ∃ report, (CommandLine.run fs.access env arguments memory).run s = (report, s) ∧
      report.status.code = fs.dueCode memory (Settings.ofEnvironment env).1 s arguments := by
  cases htexts : arguments.texts? with
  | none =>
    refine ⟨_, congrFun (run_of_texts?_eq_none fs.access env memory htexts) s, ?_⟩
    rw [dueCode, htexts]
    rfl
  | some texts =>
    by_cases hlength : texts.length = 3
    · obtain ⟨program, source, target, rfl⟩ := List.length_eq_three.1 hlength
      rw [CommandLine.run, htexts]
      dsimp only
      cases htext : fs.readText s source with
      | error e =>
        refine ⟨_, fs.run_translate_of_unreadable _ _ htext, ?_⟩
        simp only [dueCode, htexts, htext, Status.code]
      | ok text =>
        cases hparse : Parse.program (.ofString text) with
        | error e c =>
          have hcompile := compileWithin_of_no_program memory (Settings.ofEnvironment env).1 hparse
          refine ⟨_, fs.run_translate_of_no_program _ _ htext hcompile, ?_⟩
          simp only [dueCode, htexts, htext, hparse, Status.code]
        | ok p c =>
          cases hmemory : memory (max (Settings.ofEnvironment env).1.symbolCapacity 1) with
          | some crash =>
            have hcompile := compileWithin_of_no_room memory hparse hmemory
            refine ⟨_, fs.run_translate_of_no_room _ _ htext hcompile, ?_⟩
            simp only [dueCode, htexts, htext, hparse, hmemory, Status.code]
          | none =>
            have hcompile := compileWithin_of_room memory hparse hmemory
            cases htarget : fs.opened s target with
            | error e =>
              refine ⟨_, fs.run_translate_of_not_opened _ _ htext hcompile htarget, ?_⟩
              simp only [dueCode, htexts, htext, hparse, hmemory, htarget, Status.code]
            | ok place =>
              -- nothing is left that could stand in the way
              exact absurd (by simp only [dueCode, htexts, htext, hparse, hmemory, htarget]) h
    · refine ⟨_, congrFun (run_of_length_ne fs.access env memory htexts hlength) s, ?_⟩
      rw [fs.dueCode_of_length_ne _ _ htexts hlength]
      rfl

end FileSystem

/-- The reports of faults are the lines of what they are written to, if the name of the source fits
on a line. -/
private theorem linesOf_faultLines {settings : Settings} {source text : String}
    {compilation : Compilation} (hcompile : (compile settings text).1 = .ok compilation)
    (hsource : '\n' ∉ source.toList) :
    linesOf (Report.errorText ⟨.success, FileSystem.faultLines source compilation⟩) =
      FileSystem.faultLines source compilation := by
  apply linesOf_unlines
  simp only [FileSystem.faultLines, List.forall_mem_map]
  intro d hd
  have hmessage := not_mem_message_of_compile hcompile hd
  simp [complaint, hsource, hmessage]

end DeskCalc
