import DeskCalc.Proofs.Layout
import DeskCalc.Proofs.Recognition
import DeskCalc.Proofs.Respacing

/-!
# Statements in a row

Two lists of statements that are written one behind the other, each on lines of its own, are
compiled as each of them is behind the same declarations: to the code of the one and then that of
the other, with the faults of the one and then those of the other.

The parser finds the end of the first list only by reading the first lexeme of the second one, where
it would have met the end of the source. But what it reads are the same lexemes, since a line feed
continues none, and what these derive does not depend on how the parser was told where to stop.

Main statements: `Reader.reads_front`, `Parse.statements_append` and `compile_in_a_row`.
-/

namespace DeskCalc

/-! ## Sources that end in a line feed -/

namespace Reader

variable (read : List Char) {cs blanks : List Char} {ls : List Lexeme} {l : Lexeme} {final : Reader}

/-- White space in front is no different from white space behind the reader. -/
private theorem next_amid_append (hblanks : ∀ c ∈ blanks, isBlank c) (rest : List Char) :
    (amid read (blanks ++ rest)).next = (amid (read ++ blanks) rest).next := by
  -- either way all white space is skipped, up to the first character that is none
  obtain ⟨more, rest, rfl, hmore, hstop⟩ := exists_longest isBlank rest
  have hskip : (amid read (blanks ++ (more ++ rest))).skipBlanks =
      (amid (read ++ blanks) (more ++ rest)).skipBlanks := by
    rw [← List.append_assoc, skipBlanks_amid read (List.forall_mem_append.2 ⟨hblanks, hmore⟩) hstop,
      skipBlanks_amid (read ++ blanks) hmore hstop, List.append_assoc]
  unfold next
  rw [hskip]

/-- What is read to its end splits, and gives the lexemes of its pieces. -/
private theorem exists_isSplit_of_tokenize (h : (amid read cs).tokenize = .ok (ls ++ [l]) final) :
    ∃ ps blanks, IsSplit cs ps blanks [] ∧ ls = lexemesOf read ps := by
  obtain ⟨ps, blanks, rest, hsplit, hhalts⟩ := IsSplit.exists_of_chars read cs
  rcases hhalts with rfl | ⟨e, hstuck⟩
  · have hall := h.symm.trans (tokenize_of_isSplit read hsplit)
    rw [EStateM.Result.ok.injEq] at hall
    exact ⟨ps, blanks, hsplit, (List.append_inj' hall.1 rfl).1⟩
  · -- where the reader is stuck there are no lexemes
    obtain ⟨final', herror⟩ := tokenize_of_stuck read hsplit hstuck
    cases h.symm.trans herror

/-- A line feed behind a text and what follows it change nothing in the lexemes of the text. -/
theorem reads_front (h : (amid read cs).tokenize = .ok (ls ++ [l]) final) (more : List Char) :
    (amid read (cs ++ '\n' :: more)).Reads ls (amid (read ++ cs ++ ['\n']) more) := by
  obtain ⟨ps, blanks, hsplit, rfl⟩ := exists_isSplit_of_tokenize read h
  have hcs : cs = ps.flatMap Piece.chars ++ blanks := by simpa using hsplit.chars_eq
  have hbehind : ∀ c ∈ blanks ++ ['\n'], isBlank c :=
    List.forall_mem_append.2 ⟨hsplit.blank_behind, List.forall_mem_singleton.2 rfl⟩
  have hfront : IsSplit (cs ++ '\n' :: more) ps (blanks ++ ['\n']) more := by
    refine ⟨?_, hsplit.blank_before, hsplit.spells, hsplit.apart, hbehind, ?_⟩
    · simp [hcs]
    · -- the line feed keeps the last piece apart from what follows
      intro p _ hblanks
      simp at hblanks
  have hreads := reads_pieces read hfront
  have hnext : (amid (read ++ ps.flatMap Piece.chars) ((blanks ++ ['\n']) ++ more)).Reads []
      (amid (read ++ cs ++ ['\n']) more) := by
    have hskip := next_amid_append (read ++ ps.flatMap Piece.chars) hbehind more
    rwa [← List.append_assoc, List.append_assoc read, ← hcs] at hskip
  simpa using hreads.append hnext

/-- Wherever a text stands, lexemes of the same texts are read from it. -/
private theorem alike_amid {read' : List Char}
    (h : (amid read cs).tokenize = .ok (ls ++ [l]) final) :
    (amid read cs).Alike (amid read' cs) := by
  obtain ⟨ps, blanks, hsplit, -⟩ := exists_isSplit_of_tokenize read h
  -- the texts are those of the pieces, and only the places depend on what is in front
  have htexts (read : List Char) :
      (lexemesOf read ps).map Lexeme.text = ps.map fun p => String.ofList p.text := by
    clear h hsplit
    induction ps generalizing read with
    | nil => rfl
    | cons p ps ih => rw [lexemesOf, List.map_cons, List.map_cons, ih, Piece.lexeme]
  refine ⟨_, _, _, _, tokenize_of_isSplit read hsplit, tokenize_of_isSplit read' hsplit, ?_⟩
  rw [List.map_append, List.map_append, htexts, htexts]
  rfl

end Reader

/-! ## Parsing in a row -/

namespace Grammar

variable {α : Type} {one : List Lexeme → α → Prop} {ls more : List Lexeme} {xs ys : List α}

private theorem Repeated.append (h : Repeated one ls xs) (hmore : Repeated one more ys) :
    Repeated one (ls ++ more) (xs ++ ys) := by
  induction h with
  | nil => exact hmore
  | cons hx _ ih =>
    rw [List.append_assoc]
    exact .cons hx ih

private theorem Repeated.eq_nil (h : Repeated one ls ([] : List α)) : ls = [] := by
  cases h
  rfl

end Grammar

namespace Parse

open Grammar Reader

/-- The lexemes of a text that is read as statements, up to its end. -/
private theorem exists_tokenize_of_statements {r : Reader} {ss : List Statement} {c : Cursor}
    (h : statements (.ofReader r) = .ok ss c) :
    ∃ ls l final, r.tokenize = .ok (ls ++ [l]) final ∧ l.kind = .endOfFile ∧ NamesFit ls ∧
      Repeated IsStatement ls ss := by
  obtain ⟨ls, middle, l, final, hconsumed, hl, hk, hss⟩ := statements_derive h
  exact ⟨ls, l, final, tokenize_eq_ok_iff.2 ⟨ls, l, _, rfl, hconsumed.1, hl, hk⟩, hk, hconsumed.2,
    hss⟩

/-- Statements on lines of their own are read one list behind the other. -/
theorem statements_append {read cs more : List Char} {ss ss' : List Statement} {c c' : Cursor}
    (h : statements (.ofReader (amid read cs)) = .ok ss c)
    (h' : statements (.ofReader (amid (read ++ cs ++ ['\n']) more)) = .ok ss' c') :
    ∃ c'', statements (.ofReader (amid read (cs ++ '\n' :: more))) = .ok (ss ++ ss') c'' := by
  obtain ⟨ls, _, _, htokens, -, hfit, hss⟩ := exists_tokenize_of_statements h
  obtain ⟨ls', l', final, htokens', hk, hfit', hss'⟩ := exists_tokenize_of_statements h'
  -- behind the lexemes of both lists comes the end that was read behind the second one
  obtain ⟨_, _, middle, hall, hreads, hend, -⟩ := tokenize_eq_ok_iff.1 htokens'
  obtain ⟨rfl, heq⟩ := List.append_inj' hall rfl
  obtain rfl := List.singleton_inj.1 heq
  exact statements_accept (hss.append hss') ((reads_front read htokens more).append hreads)
    (namesFit_append.2 ⟨hfit, hfit'⟩) hend hk

/-- Behind declarations alone come the statements of the lines that follow. -/
private theorem program_append {d rest : String} {ds : List Declaration} {ss : List Statement}
    {c c' : Cursor} (h : program (.ofString d) = .ok ⟨ds, []⟩ c)
    (h' : statements (.ofReader (amid (d.toList ++ ['\n']) rest.toList)) = .ok ss c') :
    ∃ c'', program (.ofString (d ++ "\n" ++ rest)) = .ok ⟨ds, ss⟩ c'' := by
  obtain ⟨ls, _, _, htokens, -, hp, hfit⟩ := program_derives h
  obtain ⟨ls', l', final, htokens', hk, hfit', hss⟩ := exists_tokenize_of_statements h'
  obtain ⟨_, _, middle, hall, hreads, hend, -⟩ := tokenize_eq_ok_iff.1 htokens'
  obtain ⟨rfl, heq⟩ := List.append_inj' hall rfl
  obtain rfl := List.singleton_inj.1 heq
  -- a program without statements is read from declarations alone
  have hds : Repeated IsDeclaration ls ds := by
    cases hp with
    | mk hds hnone =>
      obtain rfl := hnone.eq_nil
      simpa using hds
  have hchars : (d ++ "\n" ++ rest).toList = d.toList ++ '\n' :: rest.toList := by simp
  have hfront : (Reader.ofString (d ++ "\n" ++ rest)).Reads (ls ++ ls') middle := by
    rw [Reader.ofString, hchars]
    exact (reads_front [] htokens rest.toList).append hreads
  exact program_accepts (tokenize_eq_ok_iff.2 ⟨_, l', middle, rfl, hfront, hend, hk⟩)
    (namesFit_append.2 ⟨hfit, hfit'⟩) (.mk hds hss)

/-- A source of statements alone is read in the same way wherever it stands, up to the places. -/
private theorem statements_amid {s : String} {ss : List Statement} {c : Cursor}
    (h : program (.ofString s) = .ok ⟨[], ss⟩ c) (read : List Char) :
    ∃ ss' c', statements (.ofReader (amid read s.toList)) = .ok ss' c' ∧
      ss'.map Statement.unplaced = ss.map Statement.unplaced := by
  obtain ⟨ls, _, _, htokens, -⟩ := program_derives h
  have hsame : (Cursor.ofString s).Alike (.ofReader (amid read s.toList)) :=
    Reader.alike_amid [] htokens
  unfold program at h
  obtain ⟨ds, middle, hds, h⟩ := bind_eq_ok_iff.1 h
  obtain ⟨ss₀, after, hss, hpure⟩ := bind_eq_ok_iff.1 h
  obtain ⟨heq, -⟩ := pure_eq_ok_iff.1 hpure
  obtain ⟨rfl, rfl⟩ := Program.mk.inj heq
  -- reading no declarations has consumed nothing
  obtain ⟨none, hconsumed, hnone⟩ := declarations_derive hds
  obtain rfl := hnone.eq_nil
  -- so the statements begin where the source does
  have hmiddle : middle.Alike (.ofReader (amid read s.toList)) :=
    hsame.of_next_eq hconsumed.1.symm rfl
  have hreply := statements_alike hmiddle
  rw [hss] at hreply
  generalize hss' : statements (.ofReader (amid read s.toList)) = reply at hreply
  cases hreply with
  | ok hequal _ => exact ⟨_, _, rfl, hequal.symm⟩

end Parse

/-! ## Compiling in a row -/

namespace Statement

variable (t : SymbolTable)

/-- The places of statements are seen in the places of their faults only. -/
private theorem diagnostics_checkAll_unplaced (ss : List Statement) :
    (Journal.diagnostics (checkAll t ss).2).map Diagnostic.unplaced =
      Journal.diagnostics (checkAll t (ss.map unplaced)).2 := by
  rw [diagnostics_checkAll, diagnostics_checkAll, List.flatMap_map, List.map_flatMap]
  apply List.flatMap_congr
  intro s _
  exact (diagnostics_check_relabel (ρ := .unplacing) fun name _ => rfl).symm

/-- The places of statements are not seen in their code. -/
private theorem codeAll_checkAll_unplaced (coercionScale : Bool) (ss : List Statement) :
    codeAll coercionScale (checkAll t ss).1 =
      codeAll coercionScale (checkAll t (ss.map unplaced)).1 := by
  have hchecked : (checkAll t (ss.map unplaced)).1 = (checkAll t ss).1.map unplaced := by
    rw [fst_checkAll, fst_checkAll, List.map_map, List.map_map]
    apply List.map_congr_left
    intro s _
    exact check_relabel (ρ := .unplacing) fun name _ => rfl
  have hcode := codeAll_relabel (ρ := .unplacing) coercionScale (checkAll t ss).1
  rw [Instruction.relabel_unplacing, List.map_id] at hcode
  rw [hchecked]
  exact hcode.symm

end Statement

/-- A source of declarations and two sources of statements are compiled in a row, each on lines of
its own. The output is that of the declarations with the first statements and then that of the
declarations with the second ones. Up to their places, the faults are those of the declarations, then
those of the first statements and then those of the second ones, each checked with the table of the
declarations. -/
theorem compile_in_a_row (settings : Settings) {d s s' : String} {ds : List Declaration}
    {ss ss' : List Statement} {c c' c'' : Cursor}
    (hd : Parse.program (.ofString d) = .ok ⟨ds, []⟩ c)
    (hs : Parse.program (.ofString s) = .ok ⟨[], ss⟩ c')
    (hs' : Parse.program (.ofString s') = .ok ⟨[], ss'⟩ c'') :
    let (table, log) := SymbolTable.build settings.symbolCapacity ds
    ∃ whole first second, (compile settings (d ++ "\n" ++ s ++ "\n" ++ s')).1 = .ok whole ∧
      (compile settings (d ++ "\n" ++ s)).1 = .ok first ∧
      (compile settings (d ++ "\n" ++ s')).1 = .ok second ∧
      whole.output = first.output ++ second.output ∧
      whole.diagnostics.map Diagnostic.unplaced =
        (Journal.diagnostics log ++ Journal.diagnostics (Statement.checkAll table ss).2 ++
          Journal.diagnostics (Statement.checkAll table ss').2).map Diagnostic.unplaced := by
  rcases hbuild : SymbolTable.build settings.symbolCapacity ds with ⟨table, log⟩
  -- the first statements stand at the same place twice, and the second ones at two places
  obtain ⟨first, _, hfirst, hsame⟩ := Parse.statements_amid hs (d.toList ++ ['\n'])
  obtain ⟨second, _, hsecond, hsame'⟩ := Parse.statements_amid hs' (d.toList ++ ['\n'])
  obtain ⟨moved, _, hmoved, hsame''⟩ := Parse.statements_amid hs'
    (d.toList ++ ['\n'] ++ s.toList ++ ['\n'])
  have hrow : ∃ c, Parse.statements (.ofReader (.amid (d.toList ++ ['\n'])
      (s ++ "\n" ++ s').toList)) = .ok (first ++ moved) c := by
    have hchars : (s ++ "\n" ++ s').toList = s.toList ++ '\n' :: s'.toList := by simp
    rw [hchars]
    exact Parse.statements_append hfirst hmoved
  obtain ⟨_, hrow⟩ := hrow
  obtain ⟨c₁, hfirst⟩ := Parse.program_append hd hfirst
  obtain ⟨c₂, hsecond⟩ := Parse.program_append hd hsecond
  obtain ⟨c₃, hrow⟩ := Parse.program_append hd hrow
  rw [← String.append_assoc, ← String.append_assoc] at hrow
  have hcode (ss : List Statement) : (Program.compile settings ⟨ds, ss⟩).1.code =
      Statement.codeAll settings.coercionScale (Statement.checkAll table ss).1 := by
    simp only [Program.compile, Program.check, hbuild]
  have hdiagnostics (ss : List Statement) : (Program.compile settings ⟨ds, ss⟩).1.diagnostics =
      Journal.diagnostics log ++ Journal.diagnostics (Statement.checkAll table ss).2 := by
    simp only [Program.compile, Program.check, hbuild, Journal.diagnostics_append]
  refine ⟨_, _, _, compile_eq_ok_iff.2 ⟨_, c₃, hrow, rfl⟩, compile_eq_ok_iff.2 ⟨_, c₁, hfirst, rfl⟩,
    compile_eq_ok_iff.2 ⟨_, c₂, hsecond, rfl⟩, ?_, ?_⟩
  · -- code has no places, so the second statements have one code at both places
    have hunmoved : Statement.codeAll settings.coercionScale (Statement.checkAll table moved).1 =
        Statement.codeAll settings.coercionScale (Statement.checkAll table second).1 := by
      rw [Statement.codeAll_checkAll_unplaced, hsame'', ← hsame',
        ← Statement.codeAll_checkAll_unplaced]
    simp only [Compilation.output, hcode]
    rw [Statement.checkAll_append, Statement.codeAll_append, hunmoved, render_append]
  · rw [hdiagnostics, Statement.checkAll_append, Journal.diagnostics_append]
    simp only [List.map_append, Statement.diagnostics_checkAll_unplaced, hsame, hsame'',
      List.append_assoc]

/-- The quotient at the end of the first statements is followed by a name that is read three times:
where the terms end, where the expression ends, and as the next target. The name `z` is known to
nobody. -/
theorem compile_in_a_row_of_two_lists :
    let settings : Settings := {}
    let d := "i a f b"
    let s := "a = 7 b = a / 2"
    let s' := "b = z p b"
    ∃ whole first second, (compile settings (d ++ "\n" ++ s ++ "\n" ++ s')).1 = .ok whole ∧
      (compile settings (d ++ "\n" ++ s)).1 = .ok first ∧
      (compile settings (d ++ "\n" ++ s')).1 = .ok second ∧
      whole.output = first.output ++ second.output ∧
      whole.diagnostics.map Diagnostic.unplaced = [.undeclared "z" .start] := by
  intro settings d s s'
  let ds : List Declaration := [⟨.int, "a", ⟨1, 1⟩⟩, ⟨.float, "b", ⟨1, 5⟩⟩]
  let ss : List Statement := [
    .assign "a" (.literal (.int 7) none ⟨1, 5⟩) none ⟨1, 1⟩,
    .assign "b" (.binary .div (.identifier "a" none ⟨1, 11⟩) (.literal (.int 2) none ⟨1, 15⟩) none
      ⟨1, 13⟩) none ⟨1, 7⟩]
  let ss' : List Statement := [.assign "b" (.identifier "z" none ⟨1, 5⟩) none ⟨1, 1⟩,
    .print "b" ⟨1, 7⟩]
  obtain ⟨_, hd⟩ : ∃ c, Parse.program (.ofString d) = .ok ⟨ds, []⟩ c := by decide +kernel
  obtain ⟨_, hs⟩ : ∃ c, Parse.program (.ofString s) = .ok ⟨[], ss⟩ c := by decide +kernel
  obtain ⟨_, hs'⟩ : ∃ c, Parse.program (.ofString s') = .ok ⟨[], ss'⟩ c := by decide +kernel
  obtain ⟨whole, first, second, hwhole, hfirst, hsecond, houtput, hfaults⟩ :=
    compile_in_a_row settings hd hs hs'
  refine ⟨whole, first, second, hwhole, hfirst, hsecond, houtput, hfaults.trans ?_⟩
  decide +kernel

end DeskCalc
