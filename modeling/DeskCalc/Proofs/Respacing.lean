import DeskCalc.Compilation
import DeskCalc.Proofs.Lookahead
import DeskCalc.Proofs.Relabeling
import DeskCalc.Proofs.Rounds
import DeskCalc.Proofs.Unreading

/-!
# White space between the lexemes does not matter

Two sources in which the same lexemes are written, however they are laid out, are compiled alike:
they are refused for the same reason at the same lexeme, or give the same program, faults and code,
up to the places that these name.

The parser is run on both sources at once. What carries the two runs along is that the same lexemes
lie ahead of them. This holds behind each lexeme read, and also where a lexeme has been handed back:
a lexeme is handed back right after it was read, so it lies ahead again whatever follows it.

Main statements: `Parse.program_alike` and `compile_respaced`.
-/

namespace DeskCalc

/-! ## Lexemes and readers that differ in places only -/

namespace Lexeme

/-- The lexemes differ in their places at most. -/
structure Alike (l l' : Lexeme) : Prop where
  kind : l.kind = l'.kind
  text : l.text = l'.text

variable {l l' : Lexeme} {r r' : Reader}

/-- Where a lexeme ends does not depend on where it began. -/
private theorem EndsAt.moved (h : l.EndsAt r) (hl : l.kind ≠ .endOfFile) (place : Location) :
    ({ l with location := place } : Lexeme).EndsAt r := by
  cases h with
  | word hfirst hmore hroom hstop => exact .word hfirst hmore hroom hstop
  | int hfirst hmore hroom hstop hpoint hvalue => exact .int hfirst hmore hroom hstop hpoint hvalue
  | float hfirst hmore hroom hdigits hroom' hstop =>
    exact .float hfirst hmore hroom hdigits hroom' hstop
  | symbol hc => exact .symbol hc
  | endOfFile => exact absurd rfl hl

/-- Nothing continues a lexeme at the end of a source. -/
private theorem EndsAt.atEnd (h : l.EndsAt r) (hl : l.kind ≠ .endOfFile) :
    l.EndsAt (.ofString "") :=
  h.of_stops hl (fun _ => rfl) (fun _ => rfl) (fun _ _ => nofun)

/-- Only the end has no text. -/
private theorem EndsAt.text_eq_empty_iff (h : l.EndsAt r) : l.text = "" ↔ l.kind = .endOfFile := by
  constructor
  · intro htext
    by_contra hl
    -- every other lexeme has a first character
    obtain ⟨c, cs, hcons, -⟩ := h.cons_of_ne_endOfFile hl
    rw [htext] at hcons
    cases hcons
  · intro hl
    obtain ⟨-, rfl⟩ := h.eq_endOfFile hl
    rfl

/-- The text of a lexeme tells its kind. -/
private theorem EndsAt.kind_eq (h : l.EndsAt r) (h' : l'.EndsAt r') (htext : l.text = l'.text) :
    l.kind = l'.kind := by
  by_cases hl : l.kind = .endOfFile
  · rw [hl, h'.text_eq_empty_iff.1 (htext.symm.trans (h.text_eq_empty_iff.2 hl))]
  · have hl' : l'.kind ≠ .endOfFile := by
      rwa [ne_eq, ← h'.text_eq_empty_iff, ← htext, h.text_eq_empty_iff]
    -- both are what is read from the same characters
    have hread := Reader.next_unread_of_endsAt (h.atEnd hl)
    have hread' := Reader.next_unread_of_endsAt ((h'.moved hl' l.location).atEnd hl')
    dsimp only at hread'
    rw [htext, hread'] at hread
    have hsame := (EStateM.Result.ok.inj hread).1
    exact (congrArg kind hsame).symm

end Lexeme

namespace Reader

/-- From both readers lexemes of the same texts are read, up to the end. -/
def Alike (r r' : Reader) : Prop :=
  ∃ ls ls' final final', r.tokenize = .ok ls final ∧ r'.tokenize = .ok ls' final' ∧
    ls.map Lexeme.text = ls'.map Lexeme.text

variable {r r' s s' : Reader}

/-- What is read to the end depends on the next lexeme and what lies behind it. -/
private theorem tokenize_congr (h : r.next = s.next) : r.tokenize = s.tokenize := by
  cases hnext : s.next with
  | error e behind => rw [tokenize_of_error hnext, tokenize_of_error (h.trans hnext)]
  | ok l behind =>
    by_cases hl : l.kind = .endOfFile
    · rw [tokenize_of_end hnext hl, tokenize_of_end (h.trans hnext) hl]
    · rw [tokenize_of_next hnext hl, tokenize_of_next (h.trans hnext) hl]

theorem Alike.of_next_eq (h : r.Alike r') (hs : s.next = r.next) (hs' : s'.next = r'.next) :
    s.Alike s' := by
  unfold Alike
  rw [tokenize_congr hs, tokenize_congr hs']
  exact h

/-- A source that is read to the end has a first lexeme, and the others are read behind it; at the
end nothing but the end is read again. -/
private theorem exists_of_tokenize {ls : List Lexeme} {final : Reader}
    (h : r.tokenize = .ok ls final) : ∃ l more behind, ls = l :: more ∧ r.next = .ok l behind ∧
      behind.tokenize = .ok (if l.kind = .endOfFile then ls else more) final := by
  cases hnext : r.next with
  | error e behind => cases (tokenize_of_error hnext).symm.trans h
  | ok l behind =>
    by_cases hl : l.kind = .endOfFile
    · cases (tokenize_of_end hnext hl).symm.trans h
      -- behind the end the end is read again, so the list is the same there
      refine ⟨l, [], _, rfl, rfl, ?_⟩
      rw [if_pos hl]
      exact tokenize_of_end (next_of_endOfFile hnext hl) hl
    · rw [tokenize_of_next hnext hl] at h
      split at h
      · next more after hmore =>
        cases h
        exact ⟨l, more, behind, rfl, rfl, by rwa [if_neg hl]⟩
      · cases h

/-- The next lexemes are alike, and so are the readers behind them. -/
private theorem Alike.next (h : r.Alike r') :
    ∃ l l' behind behind', r.next = .ok l behind ∧ r'.next = .ok l' behind' ∧ l.Alike l' ∧
      behind.Alike behind' := by
  obtain ⟨ls, ls', final, final', hls, hls', htexts⟩ := h
  obtain ⟨l, more, behind, rfl, hnext, hmore⟩ := exists_of_tokenize hls
  obtain ⟨l', more', behind', rfl, hnext', hmore'⟩ := exists_of_tokenize hls'
  obtain ⟨htext, htail⟩ := List.cons.inj htexts
  have hkind := (endsAt_of_next hnext).kind_eq (endsAt_of_next hnext') htext
  refine ⟨l, l', behind, behind', hnext, hnext', ⟨hkind, htext⟩, _, _, final, final', hmore, hmore',
    ?_⟩
  -- behind the end the whole lists are left, behind any other lexeme their tails
  rw [← hkind]
  split
  · exact htexts
  · exact htail

end Reader

namespace Cursor

/-- Lexemes of the same texts lie ahead of both cursors. -/
def Alike (c c' : Cursor) : Prop := c.reader.Alike c'.reader

/-- The next lexemes are alike, and the parse goes on alike behind them as well as where they are
handed back. -/
private theorem Alike.next {c c' : Cursor} (h : c.Alike c') :
    ∃ l l' middle middle', c.next = .ok l middle ∧ c'.next = .ok l' middle' ∧ l.Alike l' ∧
      middle.Alike middle' ∧ (middle.unread l).Alike (middle'.unread l') := by
  obtain ⟨l, l', behind, behind', hnext, hnext', hl, hbehind⟩ := Reader.Alike.next h
  have hc : c.next = .ok l ⟨behind, l :: c.obtained⟩ := next_eq_ok_iff.2 ⟨hnext, rfl⟩
  have hc' : c'.next = .ok l' ⟨behind', l' :: c'.obtained⟩ := next_eq_ok_iff.2 ⟨hnext', rfl⟩
  refine ⟨l, l', _, _, hc, hc', hl, hbehind, ?_⟩
  exact Reader.Alike.of_next_eq h (reader_next_unread hc) (reader_next_unread hc')

end Cursor

/-! ## Programs without their places -/

/-- The same names, all at one place. -/
def Relabeling.unplacing : Relabeling := ⟨id, fun _ => .start⟩

def Expr.unplaced : Expr → Expr := relabel .unplacing

private theorem Expr.unplaced_binary (op : Operator) {left left' right right' : Expr}
    (hleft : left.unplaced = left'.unplaced) (hright : right.unplaced = right'.unplaced)
    (place place' : Location) :
    (binary op left right none place).unplaced =
      (binary op left' right' none place').unplaced := by
  unfold unplaced at *
  simp only [relabel, hleft, hright]
  rfl

def Statement.unplaced : Statement → Statement := relabel .unplacing

def Declaration.unplaced : Declaration → Declaration := relabel .unplacing

/-- The program with its places forgotten. -/
def Program.unplaced : Program → Program := relabel .unplacing

def Diagnostic.unplaced : Diagnostic → Diagnostic := relabel .unplacing

/-! ## Replies that differ in places only -/

/-- Both parses went on alike: to values that `strip` makes equal, with the same ahead of them, or
to the same complaint about lexemes that are alike. -/
inductive Reply.Alike {α γ : Type} (strip : α → γ) : Reply α → Reply α → Prop where
  | ok {a a' : α} {c c' : Cursor} (ha : strip a = strip a') (hc : c.Alike c') :
      Alike strip (.ok a c) (.ok a' c')
  | unexpected {expected : Expectation} {l l' : Lexeme} {c c' : Cursor} (hl : l.Alike l') :
      Alike strip (.error (.unexpected expected l) c) (.error (.unexpected expected l') c')

open Reply (andThen_of_ok)

namespace Reply.Alike

variable {α β γ δ : Type} {strip : α → γ} {strip' : β → δ}

/-- Parses that go on alike go on alike one after the other. -/
private theorem andThen {x x' : Reply α} {f f' : α → Cursor → Reply β} (hx : Alike strip x x')
    (hf : ∀ a a' middle middle', x = .ok a middle → strip a = strip a' → middle.Alike middle' →
      Alike strip' (f a middle) (f' a' middle')) :
    Alike strip' (Reply.andThen x f) (Reply.andThen x' f') := by
  cases hx with
  | ok ha hc => exact hf _ _ _ _ rfl ha hc
  | unexpected hl => exact .unexpected hl

/-- A lexeme is read first. What follows may read on or hand the lexeme back. -/
private theorem next_andThen {c c' : Cursor} {f f' : Lexeme → Cursor → Reply β} (hc : c.Alike c')
    (hf : ∀ l l' middle middle', c.next = .ok l middle → l.Alike l' → middle.Alike middle' →
      (middle.unread l).Alike (middle'.unread l') → Alike strip' (f l middle) (f' l' middle')) :
    Alike strip' (c.next.andThen f) (c'.next.andThen f') := by
  obtain ⟨l, l', middle, middle', hl, hl', hlexeme, hmiddle, hback⟩ := hc.next
  rw [andThen_of_ok hl, andThen_of_ok hl']
  exact hf l l' middle middle' hl hlexeme hmiddle hback

variable {c c' : Cursor}

private theorem bind {p p' : Parse α} {f f' : α → Parse β} (hp : Alike strip (p c) (p' c'))
    (hf : ∀ a a' middle middle', strip a = strip a' → middle.Alike middle' →
      Alike strip' (f a middle) (f' a' middle')) :
    Alike strip' ((p >>= f) c) ((p' >>= f') c') := by
  rw [Parse.bind_apply, Parse.bind_apply]
  exact hp.andThen fun a a' middle middle' _ => hf a a' middle middle'

private theorem next_bind {f f' : Lexeme → Parse β} (hc : c.Alike c')
    (hf : ∀ l l' middle middle', l.Alike l' → middle.Alike middle' →
      Alike strip' (f l middle) (f' l' middle')) :
    Alike strip' ((Cursor.next >>= f) c) ((Cursor.next >>= f') c') := by
  refine (congrArg₂ (Alike strip') (Parse.bind_apply _ f c) (Parse.bind_apply _ f' c')).mpr ?_
  exact next_andThen hc fun l l' middle middle' _ hl hmiddle _ => hf l l' middle middle' hl hmiddle

end Reply.Alike

/-! ## The parser on both sources -/

namespace Parse

variable {c c' : Cursor} {l l' : Lexeme}

private theorem boundedName_alike (hl : l.Alike l') (hc : c.Alike c') :
    Reply.Alike id (boundedName l c) (boundedName l' c') := by
  unfold boundedName
  rw [← hl.text]
  split
  · exact .unexpected hl
  · exact .ok rfl hc

private theorem value_alike (hc : c.Alike c') : Reply.Alike Expr.unplaced (value c) (value c') := by
  unfold value
  refine .next_bind hc fun l l' middle middle' hl hmiddle => ?_
  rw [← hl.kind]
  cases l.kind with
  | identifier =>
    refine .bind (boundedName_alike hl hmiddle) fun name name' after after' hname hafter => ?_
    obtain rfl : name = name' := hname
    exact .ok rfl hafter
  | number v => exact .ok rfl hmiddle
  | _ => exact .unexpected hl

/-- An expression is closed alike where the lexemes that close it are alike and may be handed
back. -/
private theorem close_alike (hl : l.Alike l') {e e' : Expr} (he : e.unplaced = e'.unplaced)
    (hc : c.Alike c') (hback : (c.unread l).Alike (c'.unread l')) :
    Reply.Alike Expr.unplaced (close l e c) (close l' e' c') := by
  unfold close
  rw [← hl.kind]
  split
  · exact .ok he hback
  · exact .ok he hback
  · exact .ok he hc
  · exact .unexpected hl

/-- The recursion follows what is left to read of the first source; the second one goes along. -/
private theorem termTail_alike {left left' : Expr} (hleft : left.unplaced = left'.unplaced)
    {c c' : Cursor} (hc : c.Alike c') :
    Reply.Alike Expr.unplaced (termTail left c) (termTail left' c') := by
  rw [termTail_eq left, termTail_eq left']
  refine .next_andThen hc fun l l' middle middle' hnext hl hmiddle hback => ?_
  rw [← hl.kind]
  split
  · next op hk =>
    split
    · refine .andThen (value_alike hmiddle) fun right right' after after' hv hright hafter => ?_
      -- an operator and a value were read, so there is less left for the recursion
      have := Cursor.size_lt_of_next hnext (by simp [hk])
      have := nonGrowing_value hv
      exact termTail_alike (Expr.unplaced_binary op hleft hright _ _) hafter
    · -- a loose operator is handed back on both sides
      exact .ok hleft hback
  · exact close_alike hl hleft hmiddle hback
termination_by c.size

private theorem expression_alike {left left' : Expr} (hleft : left.unplaced = left'.unplaced)
    {c c' : Cursor} (hc : c.Alike c') :
    Reply.Alike Expr.unplaced (expression left c) (expression left' c') := by
  rw [expression_eq left, expression_eq left']
  refine .next_andThen hc fun l l' middle middle' hnext hl hmiddle hback => ?_
  rw [← hl.kind]
  split
  · next op hk =>
    -- the operator and the value behind it were read, so there is less left for the recursion
    have := Cursor.size_lt_of_next hnext (by simp [hk])
    refine .andThen (value_alike hmiddle) fun first first' after after' hv hfirst hafter => ?_
    have := nonGrowing_value hv
    split
    · exact expression_alike (Expr.unplaced_binary op hleft hfirst _ _) hafter
    · -- a loose operator takes the term that begins with the value
      refine .andThen (termTail_alike hfirst hafter)
        fun right right' beyond beyond' ht hright hbeyond => ?_
      have := nonGrowing_termTail first ht
      exact expression_alike (Expr.unplaced_binary op hleft hright _ _) hbeyond
  · exact close_alike hl hleft hmiddle hback
termination_by c.size

private theorem declaration_alike (ty : Ty) {keyword keyword' : Lexeme} (hc : c.Alike c') :
    Reply.Alike Declaration.unplaced (declaration ty keyword c) (declaration ty keyword' c') := by
  unfold declaration
  refine .next_bind hc fun l l' middle middle' hl hmiddle => ?_
  rw [← hl.kind]
  cases l.kind with
  | identifier =>
    refine .bind (boundedName_alike hl hmiddle) fun name name' after after' hname hafter => ?_
    obtain rfl : name = name' := hname
    exact .ok rfl hafter
  | _ => exact .unexpected hl

private theorem assignment_alike (hl : l.Alike l') (hc : c.Alike c') :
    Reply.Alike Statement.unplaced (assignment l c) (assignment l' c') := by
  unfold assignment
  refine .bind (boundedName_alike hl hc) fun name name' _ _ hname hc => ?_
  obtain rfl : name = name' := hname
  refine .next_bind hc fun sign sign' middle middle' hsign hmiddle => ?_
  rw [← hsign.kind]
  split
  · refine .bind (value_alike hmiddle) fun first first' after after' hfirst hafter => ?_
    refine .bind (expression_alike hfirst hafter) fun e e' beyond beyond' he hbeyond => ?_
    -- the statements differ in the places of their targets, which are forgotten
    refine .ok ?_ hbeyond
    unfold Expr.unplaced at he
    simp only [Statement.unplaced, Statement.relabel, he]
    rfl
  · exact .unexpected hsign

private theorem printing_alike {keyword keyword' : Lexeme} (hc : c.Alike c') :
    Reply.Alike Statement.unplaced (printing keyword c) (printing keyword' c') := by
  unfold printing
  refine .next_bind hc fun l l' middle middle' hl hmiddle => ?_
  rw [← hl.kind]
  split
  · refine .bind (boundedName_alike hl hmiddle) fun name name' after after' hname hafter => ?_
    obtain rfl : name = name' := hname
    exact .ok rfl hafter
  · exact .unexpected hl

private theorem statement_alike (hl : l.Alike l') (hc : c.Alike c') :
    Reply.Alike Statement.unplaced (statement l c) (statement l' c') := by
  unfold statement
  rw [← hl.kind]
  cases l.kind with
  | identifier => exact assignment_alike hl hc
  | printKeyword => exact printing_alike hc
  | _ => exact .unexpected hl

private theorem declarations_alike {c c' : Cursor} (hc : c.Alike c') :
    Reply.Alike (List.map Declaration.unplaced) (declarations c) (declarations c') := by
  rw [declarations_eq c, declarations_eq c']
  refine .next_andThen hc fun l l' middle middle' hnext hl hmiddle hback => ?_
  rw [← hl.kind]
  split
  · next ty hty =>
    refine .andThen (declaration_alike ty hmiddle) fun d d' after after' hread hd hafter => ?_
    have := Cursor.size_lt_of_next hnext (by intro hk; simp [hk, declaredTy?] at hty)
    have := nonGrowing_declaration ty l hread
    refine .andThen (declarations_alike hafter) fun ds ds' beyond beyond' _ hds hbeyond => ?_
    exact .ok (congrArg₂ List.cons hd hds) hbeyond
  · -- the first statement begins on both sides, or both sources end
    split
    · exact .ok rfl hback
    · exact .ok rfl hback
    · exact .ok rfl hmiddle
    · exact .unexpected hl
termination_by c.size

theorem statements_alike {c c' : Cursor} (hc : c.Alike c') :
    Reply.Alike (List.map Statement.unplaced) (statements c) (statements c') := by
  rw [statements_eq c, statements_eq c']
  refine .next_andThen hc fun l l' middle middle' hnext hl hmiddle _ => ?_
  rw [← hl.kind]
  split
  · exact .ok rfl hmiddle
  · next hk =>
    refine .andThen (statement_alike hl hmiddle) fun s s' after after' hread hs hafter => ?_
    have := Cursor.size_lt_of_next hnext hk
    have := nonGrowing_statement l hread
    refine .andThen (statements_alike hafter) fun ss ss' beyond beyond' _ hss hbeyond => ?_
    exact .ok (congrArg₂ List.cons hs hss) hbeyond
termination_by c.size

/-- Where lexemes of the same texts lie ahead, the same program is read up to its places. -/
theorem program_alike (hc : c.Alike c') :
    Reply.Alike Program.unplaced (program c) (program c') := by
  unfold program
  refine .bind (declarations_alike hc) fun ds ds' middle middle' hds hmiddle => ?_
  refine .bind (statements_alike hmiddle) fun ss ss' after after' hss hafter => ?_
  exact .ok (congrArg₂ Program.mk hds hss) hafter

end Parse

/-! ## Compiling both sources -/

theorem Instruction.relabel_unplacing : relabel .unplacing = id := by
  funext i
  cases i <;> rfl

/-- Programs that differ in their places are compiled to programs and faults that differ in their
places, and to the same code. -/
private theorem Program.compile_unplaced (settings : Settings) {p p' : Program}
    (h : p.unplaced = p'.unplaced) :
    let c := (p.compile settings).1
    let c' := (p'.compile settings).1
    c.program.unplaced = c'.program.unplaced ∧
      c.diagnostics.map Diagnostic.unplaced = c'.diagnostics.map Diagnostic.unplaced ∧
      c.code = c'.code := by
  intro c c'
  -- forgetting places relabels no name, so it commutes with compiling
  have hc : ((p.relabel .unplacing).compile settings).1 = c.relabel .unplacing :=
    compile_relabel settings (Set.injOn_id _)
  have hc' : ((p'.relabel .unplacing).compile settings).1 = c'.relabel .unplacing :=
    compile_relabel settings (Set.injOn_id _)
  have hcode (c : Compilation) : (c.relabel .unplacing).code = c.code := by
    simp only [Compilation.relabel, Instruction.relabel_unplacing, List.map_id]
  have hsame : c.relabel .unplacing = c'.relabel .unplacing := by
    rw [← hc, ← hc']
    exact congrArg (fun p => (p.compile settings).1) h
  refine ⟨congrArg Compilation.program hsame, congrArg Compilation.diagnostics hsame, ?_⟩
  rw [← hcode c, ← hcode c', hsame]

/-- Two sources in which lexemes of the same texts are written one after the other are compiled
alike, whatever white space stands around these and whatever the settings are. Either both are
refused, and the same was expected where lexemes of the same kind and text were found; or both are
compiled, to the same program and the same faults in the same order, up to the places of these, and
to the same output. -/
theorem compile_respaced (settings : Settings) {source source' : String}
    {ls ls' : List Lexeme} {final final' : Reader}
    (hls : (Reader.ofString source).tokenize = .ok ls final)
    (hls' : (Reader.ofString source').tokenize = .ok ls' final')
    (htexts : ls.map Lexeme.text = ls'.map Lexeme.text) :
    (∃ expected found found',
        (compile settings source).1 = .error (.unexpected expected found) ∧
        (compile settings source').1 = .error (.unexpected expected found') ∧
        found.kind = found'.kind ∧ found.text = found'.text) ∨
      ∃ c c', (compile settings source).1 = .ok c ∧ (compile settings source').1 = .ok c' ∧
        c.program.unplaced = c'.program.unplaced ∧
        c.diagnostics.map Diagnostic.unplaced = c'.diagnostics.map Diagnostic.unplaced ∧
        c.output = c'.output := by
  have hsame : (Cursor.ofString source).Alike (.ofString source') :=
    ⟨ls, ls', final, final', hls, hls', htexts⟩
  have hprogram := Parse.program_alike hsame
  -- neither source is refused without the other, so two of the four cases cannot be
  unfold compile
  cases hread : Parse.program (.ofString source) with
  | ok p c =>
    cases hread' : Parse.program (.ofString source') with
    | ok p' c' =>
      rw [hread, hread'] at hprogram
      cases hprogram with
      | ok hp _ =>
        obtain ⟨hprograms, hdiagnostics, hcode⟩ := Program.compile_unplaced settings hp
        exact .inr ⟨_, _, rfl, rfl, hprograms, hdiagnostics, congrArg render hcode⟩
    | error e' c' =>
      rw [hread, hread'] at hprogram
      cases hprogram
  | error e c =>
    cases hread' : Parse.program (.ofString source') with
    | ok p' c' =>
      rw [hread, hread'] at hprogram
      cases hprogram
    | error e' c' =>
      rw [hread, hread'] at hprogram
      cases hprogram with
      | @unexpected expected l l' _ _ hl => exact .inl ⟨expected, l, l', rfl, rfl, hl.kind, hl.text⟩

/-- A letter that prints stands right behind a number, or on a line of its own. The expression that
it ends hands it back in front of different characters, and the unknown names are reported at
different places. -/
theorem compile_respaced_of_two_layouts :
    let source := "a=2p b"
    let source' := "a =\n2\np\tb"
    let ls : List Lexeme :=
      [⟨.identifier, "a", ⟨1, 1⟩⟩, ⟨.assign, "=", ⟨1, 2⟩⟩, ⟨.number (.int 2), "2", ⟨1, 3⟩⟩,
        ⟨.printKeyword, "p", ⟨1, 4⟩⟩, ⟨.identifier, "b", ⟨1, 6⟩⟩, .endOfFile ⟨1, 7⟩]
    let ls' : List Lexeme :=
      [⟨.identifier, "a", ⟨1, 1⟩⟩, ⟨.assign, "=", ⟨1, 3⟩⟩, ⟨.number (.int 2), "2", ⟨2, 1⟩⟩,
        ⟨.printKeyword, "p", ⟨3, 1⟩⟩, ⟨.identifier, "b", ⟨3, 3⟩⟩, .endOfFile ⟨3, 4⟩]
    (Reader.ofString source).tokenize = .ok ls ⟨[], [], ⟨1, 7⟩⟩ ∧
      (Reader.ofString source').tokenize = .ok ls' ⟨[], [], ⟨3, 4⟩⟩ ∧
      ls.map Lexeme.text = ls'.map Lexeme.text ∧
      ∃ c c', (compile {} source).1 = .ok c ∧ (compile {} source').1 = .ok c' ∧
        c.diagnostics = [.undeclared "a" ⟨1, 1⟩, .undeclared "b" ⟨1, 4⟩] ∧
        c'.diagnostics = [.undeclared "a" ⟨1, 1⟩, .undeclared "b" ⟨3, 1⟩] ∧
        c.program.unplaced = c'.program.unplaced ∧ c.output = c'.output := by
  intro source source' ls ls'
  have hls : (Reader.ofString source).tokenize = .ok ls ⟨[], [], ⟨1, 7⟩⟩ := by decide +kernel
  have hls' : (Reader.ofString source').tokenize = .ok ls' ⟨[], [], ⟨3, 4⟩⟩ := by decide +kernel
  have htexts : ls.map Lexeme.text = ls'.map Lexeme.text := rfl
  -- that both sources are compiled is seen from their having faults
  have hfaults : (compile {} source).1.toOption.map Compilation.diagnostics =
      some [.undeclared "a" ⟨1, 1⟩, .undeclared "b" ⟨1, 4⟩] := by decide +kernel
  have hfaults' : (compile {} source').1.toOption.map Compilation.diagnostics =
      some [.undeclared "a" ⟨1, 1⟩, .undeclared "b" ⟨3, 1⟩] := by decide +kernel
  refine ⟨hls, hls', htexts, ?_⟩
  rcases compile_respaced {} hls hls' htexts with
    ⟨_, _, _, herror, _⟩ | ⟨c, c', hc, hc', hprogram, _, houtput⟩
  · rw [herror] at hfaults
    cases hfaults
  · rw [hc] at hfaults
    rw [hc'] at hfaults'
    exact ⟨c, c', hc, hc', Option.some.inj hfaults, Option.some.inj hfaults', hprogram, houtput⟩

end DeskCalc
