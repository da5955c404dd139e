import DeskCalc.Proofs.Recognition
import DeskCalc.Proofs.ViablePrefix

/-!
# How far a parse has come

A parse stands behind some lexemes of its source, with which a sentence begins. The next lexeme may
have been obtained before: the loop over a term hands it back to the loop over the expression, and
this one to the loop over the statements, which hands back nothing. So a lexeme is obtained three
times at most.

Where a parse fails it does so at the first lexeme with which no sentence goes on, or where there is
no lexeme to be read before that.

Main statements: `Cursor.Behind` — the invariant of all parses —, `Parse.program_reaches` and
`program_obtains`.
-/

namespace DeskCalc

open Grammar (IsViable Stage)
open Reply (andThen_of_ok andThen_of_error)

/-! ## Lexemes obtained again -/

/-- What was obtained are the lexemes `ls` in order, each of them one, two or three times in a
row. -/
def Stutters (ls obtained : List Lexeme) : Prop :=
  ∃ runs, List.Forall₂ (fun l run => ∃ n, 1 ≤ n ∧ n ≤ 3 ∧ run = List.replicate n l) ls runs ∧
    obtained = runs.flatten

namespace Stutters

variable {ls obtained : List Lexeme} {l : Lexeme} {n : Nat}

private theorem nil : Stutters [] [] := ⟨[], .nil, rfl⟩

private theorem concat (h : Stutters ls obtained) (hpos : 1 ≤ n) (hle : n ≤ 3) :
    Stutters (ls ++ [l]) (obtained ++ List.replicate n l) := by
  obtain ⟨runs, hruns, rfl⟩ := h
  refine ⟨runs ++ [List.replicate n l], ?_, by simp⟩
  exact List.rel_append hruns (.cons ⟨n, hpos, hle, rfl⟩ .nil)

private theorem length_le (h : Stutters ls obtained) : obtained.length ≤ 3 * ls.length := by
  obtain ⟨runs, hruns, rfl⟩ := h
  induction hruns with
  | nil => exact Nat.le_refl _
  | cons hrun _ ih =>
    obtain ⟨n, -, hle, rfl⟩ := hrun
    rw [List.flatten_cons, List.length_append, List.length_replicate, List.length_cons]
    omega

end Stutters

/-- Some program begins with the lexemes: their kinds begin a sentence and no name is too long. -/
def BeginsProgram (ls : List Lexeme) : Prop := IsViable (ls.map Lexeme.kind) ∧ NamesFit ls

theorem namesFit_concat_iff {ls : List Lexeme} {l : Lexeme} (h : NamesFit ls) :
    NamesFit (ls ++ [l]) ↔ (l.kind = .identifier → l.text.length ≤ maxNameLength) := by
  rw [namesFit_append, namesFit_cons, and_iff_right h, and_iff_left]
  exact nofun

/-! ## Where a parse stands -/

namespace Cursor

/-- A parse that began at `r` stands behind the lexemes `before`, with which a sentence has come to
`stage`. The next lexeme was obtained at most `seen` times already. -/
structure Behind (r : Reader) (before : List Lexeme) (stage : Stage) (seen : Nat) (c : Cursor) :
    Prop where
  reads : r.Reads before c.reader
  fits : NamesFit before
  stage_eq : Stage.of? (before.map Lexeme.kind) = some stage
  obtained : ∃ os again, c.lexemes = os ++ again ∧ Stutters before os ∧ again.length ≤ seen ∧
    ∀ l ∈ again, ∃ behind, c.reader.next = .ok l behind

/-- A parse that began at `r` stands behind some lexemes, with which a sentence has come to
`stage`. -/
def Stands (r : Reader) (stage : Stage) (seen : Nat) (c : Cursor) : Prop :=
  ∃ before, c.Behind r before stage seen

/-- A parse stands where the next lexeme starts a statement or ends the source, or else does not
belong there. -/
def Due (r : Reader) (stage : Stage) (seen : Nat) (c : Cursor) : Prop :=
  c.Stands r stage seen ∧
    ∀ l behind, c.reader.next = .ok l behind → stage.after l.kind = Stage.opening l.kind

/-- A parse that began at `r` has read all lexemes, which are a program. -/
def Finished (r : Reader) (c : Cursor) : Prop :=
  ∃ before l middle, r.Reads before middle ∧ middle.next = .ok l c.reader ∧ l.kind = .endOfFile ∧
    BeginsProgram (before ++ [l]) ∧ Stutters (before ++ [l]) c.lexemes

end Cursor

/-- A parse that began at `r` fails where it has to: behind lexemes with which a program begins
there is none, or one with which no program goes on. -/
inductive Rejects (r : Reader) : ParseError → Cursor → Prop where
  | lexical {before : List Lexeme} {middle : Reader} {e : LexicalError} {c : Cursor}
      (hreads : r.Reads before middle) (hbegins : BeginsProgram before)
      (hnext : middle.next = .error e c.reader) (hobtained : Stutters before c.lexemes) :
      Rejects r (.lexical e) c
  | unexpected {before : List Lexeme} {middle : Reader} {expected : Expectation} {found : Lexeme}
      {c : Cursor} (hreads : r.Reads before middle) (hbegins : BeginsProgram before)
      (hnext : middle.next = .ok found c.reader) (hbad : ¬ BeginsProgram (before ++ [found]))
      (hobtained : Stutters (before ++ [found]) c.lexemes) :
      Rejects r (.unexpected expected found) c

namespace Cursor

variable {r : Reader} {before : List Lexeme} {stage stage' : Stage} {seen : Nat} {c c' : Cursor}
  {l : Lexeme}

private theorem lexemes_next (hl : c.next = .ok l c') : c'.lexemes = c.lexemes ++ [l] := by
  rw [lexemes, (next_eq_ok_iff.1 hl).2, List.reverse_cons, lexemes]

private theorem reader_next_error {e : ParseError} (he : c.next = .error e c') :
    ∃ cause, e = .lexical cause ∧ c.reader.next = .error cause c'.reader ∧
      c'.lexemes = c.lexemes := by
  unfold next at he
  split at he
  · cases he
  · next hnext =>
    cases he
    exact ⟨_, rfl, hnext, rfl⟩

namespace Behind

private theorem begins (h : c.Behind r before stage seen) : BeginsProgram before :=
  ⟨(Grammar.isViable_iff_stage? _).2 (Option.isSome_of_eq_some h.stage_eq), h.fits⟩

/-- One more lexeme is the beginning of a program if it leads to a stage and is no name that is too
long. -/
private theorem begins_concat_iff (h : c.Behind r before stage seen) :
    BeginsProgram (before ++ [l]) ↔
      (stage.after l.kind).isSome ∧ (l.kind = .identifier → l.text.length ≤ maxNameLength) := by
  rw [BeginsProgram, namesFit_concat_iff h.fits, Grammar.isViable_iff_stage?, List.map_append,
    List.map_singleton, Stage.of?_concat, h.stage_eq, Option.bind_some]

/-- The lexeme just obtained was the next one all the times before, so it is there in a row. -/
private theorem stutters_next (h : c.Behind r before stage seen) (hseen : seen ≤ 2)
    (hl : c.next = .ok l c') : Stutters (before ++ [l]) c'.lexemes := by
  obtain ⟨os, again, hlexemes, hos, hlength, hagain⟩ := h.obtained
  -- what was obtained of the next lexeme before is this lexeme
  have hsame : again = List.replicate again.length l := by
    rw [List.eq_replicate_iff]
    refine ⟨rfl, ?_⟩
    intro l' hl'
    obtain ⟨behind, hnext⟩ := hagain l' hl'
    cases hnext.symm.trans (next_eq_ok_iff.1 hl).1
    rfl
  have hrow : c'.lexemes = os ++ List.replicate (again.length + 1) l := by
    rw [lexemes_next hl, hlexemes, List.replicate_succ', ← hsame, List.append_assoc]
  rw [hrow]
  exact hos.concat (Nat.succ_pos _) (by omega)

end Behind

namespace Stands

private theorem ofReader (r : Reader) : (Cursor.ofReader r).Stands r .declarations 0 :=
  ⟨[], .refl r, nofun, rfl, [], [], rfl, .nil, Nat.le_refl _, nofun⟩

private theorem mono {seen' : Nat} (h : c.Stands r stage seen) (hle : seen ≤ seen') :
    c.Stands r stage seen' := by
  obtain ⟨before, hreads, hfits, hstage, os, again, hlexemes, hos, hlength, hagain⟩ := h
  exact ⟨before, hreads, hfits, hstage, os, again, hlexemes, hos, Nat.le_trans hlength hle, hagain⟩

/-- The parse goes on behind the lexeme just obtained, which leads to another stage. -/
private theorem consume (h : c.Stands r stage seen) (hseen : seen ≤ 2) (hl : c.next = .ok l c')
    (hend : l.kind ≠ .endOfFile) (hfit : l.kind = .identifier → l.text.length ≤ maxNameLength)
    (hafter : stage.after l.kind = some stage') : c'.Stands r stage' 0 := by
  obtain ⟨before, h⟩ := h
  -- all that was obtained so far belongs to the lexemes in front now
  refine ⟨before ++ [l], ?_, ?_, ?_, c'.lexemes, [], (List.append_nil _).symm,
    h.stutters_next hseen hl, Nat.le_refl _, nofun⟩
  · exact h.reads.append ⟨_, (next_eq_ok_iff.1 hl).1, hend, .refl _⟩
  · exact (namesFit_concat_iff h.fits).2 hfit
  · rw [List.map_append, List.map_singleton, Stage.of?_concat, h.stage_eq]
    exact hafter

/-- The lexeme just obtained lies ahead again, so the parse stands where it stood. -/
private theorem again {c'' : Cursor} (h : c.Stands r stage seen) (hl : c.next = .ok l c')
    (hnext : c''.reader.next = c.reader.next) (hlexemes : c''.lexemes = c'.lexemes) :
    c''.Stands r stage (seen + 1) := by
  obtain ⟨before, hreads, hfits, hstage, os, again, hobtained, hos, hlength, hagain⟩ := h
  -- nothing is consumed, but the log is one lexeme longer
  refine ⟨before, ?_, hfits, hstage, os, again ++ [l], ?_, hos, by simpa using hlength, ?_⟩
  · have hback : c.reader.Reads [] c''.reader := hnext.symm
    simpa using hreads.append hback
  · rw [hlexemes, lexemes_next hl, hobtained, List.append_assoc]
  · rw [hnext]
    intro l' hl'
    rcases List.mem_append.1 hl' with hl' | hl'
    · exact hagain l' hl'
    · obtain rfl := List.mem_singleton.1 hl'
      exact ⟨_, (next_eq_ok_iff.1 hl).1⟩

private theorem unread (h : c.Stands r stage seen) (hl : c.next = .ok l c') :
    (c'.unread l).Stands r stage (seen + 1) :=
  h.again hl (reader_next_unread hl) rfl

/-- A lexeme that starts a statement is handed back. -/
private theorem due_unread (h : c.Stands r stage seen) (hl : c.next = .ok l c')
    (hk : stage.after l.kind = Stage.opening l.kind) : (c'.unread l).Due r stage (seen + 1) := by
  refine ⟨h.unread hl, ?_⟩
  intro l' behind hl'
  rw [reader_next_unread hl] at hl'
  cases (next_eq_ok_iff.1 hl).1.symm.trans hl'
  exact hk

/-- The end is not handed back, but behind it nothing else is obtained. -/
private theorem due_of_end (h : c.Stands r stage seen) (hl : c.next = .ok l c')
    (hend : l.kind = .endOfFile) (hk : stage.after l.kind = Stage.opening l.kind) :
    c'.Due r stage (seen + 1) := by
  have hnext := (next_eq_ok_iff.1 hl).1
  have hstays := Reader.next_of_endOfFile hnext hend
  refine ⟨h.again hl (hstays.trans hnext.symm) rfl, ?_⟩
  intro l' behind hl'
  cases hstays.symm.trans hl'
  exact hk

/-- A parse that meets a lexeme which leads nowhere is right to fail. -/
private theorem rejects (h : c.Stands r stage seen) (hseen : seen ≤ 2) (hl : c.next = .ok l c')
    (hbad : stage.after l.kind = none ∨ l.kind = .identifier ∧ maxNameLength < l.text.length)
    (expected : Expectation) : Rejects r (.unexpected expected l) c' := by
  obtain ⟨before, h⟩ := h
  refine .unexpected h.reads h.begins (next_eq_ok_iff.1 hl).1 ?_ (h.stutters_next hseen hl)
  rw [h.begins_concat_iff]
  -- the lexeme leads to no stage, or it is a name that is too long
  rintro ⟨hafter, hfit⟩
  rcases hbad with hnone | ⟨hk, hlong⟩
  · simp [hnone] at hafter
  · exact Nat.not_le.2 hlong (hfit hk)

/-- Where no lexeme can be read, none was obtained before. -/
private theorem rejects_of_error {e : ParseError} (h : c.Stands r stage seen)
    (he : c.next = .error e c') : Rejects r e c' := by
  obtain ⟨before, h⟩ := h
  obtain ⟨cause, rfl, hnext, hlexemes⟩ := reader_next_error he
  obtain ⟨os, again, hobtained, hos, -, hagain⟩ := h.obtained
  -- one that was obtained before would still be the next
  have hnone : again = [] := by
    apply List.eq_nil_iff_forall_not_mem.2
    intro l hl
    obtain ⟨behind, hl⟩ := hagain l hl
    cases hl.symm.trans hnext
  refine .lexical h.reads h.begins hnext ?_
  rw [hlexemes, hobtained, hnone, List.append_nil]
  exact hos

end Stands

/-- A parse to which the end is due is finished behind it. -/
private theorem Due.finished (h : c.Due r stage seen) (hseen : seen ≤ 2) (hl : c.next = .ok l c')
    (hk : l.kind = .endOfFile) : c'.Finished r := by
  obtain ⟨⟨before, h⟩, hdue⟩ := h
  have hnext : c.reader.next = .ok l c'.reader := (next_eq_ok_iff.1 hl).1
  -- where a statement may start the source may end as well
  have hclosed : stage.after l.kind = some .closed := by
    rw [hdue l _ hnext, hk]
    rfl
  have hbegins : BeginsProgram (before ++ [l]) := by
    rw [h.begins_concat_iff, hclosed]
    exact ⟨rfl, by simp [hk]⟩
  exact ⟨before, l, _, h.reads, hnext, hk, hbegins, h.stutters_next hseen hl⟩

end Cursor

/-! ## Replies -/

/-- The cursor that a parse leaves. -/
def Reply.cursor {α : Type} : Reply α → Cursor
  | .ok _ c | .error _ c => c

/-- A parse that began at `r` comes to a cursor that satisfies `Q`, or fails where it has to. -/
inductive Reply.Reaches {α : Type} (r : Reader) (Q : Cursor → Prop) : Reply α → Prop where
  | ok {a : α} {c : Cursor} (hc : Q c) : Reaches r Q (.ok a c)
  | error {e : ParseError} {c : Cursor} (he : Rejects r e c) : Reaches r Q (.error e c)

namespace Reply.Reaches

variable {α β : Type} {r : Reader} {P Q : Cursor → Prop} {c : Cursor} {stage : Stage} {seen : Nat}

private theorem imp {x : Reply α} (hx : Reaches r P x) (h : ∀ c, P c → Q c) : Reaches r Q x := by
  cases hx with
  | ok hc => exact .ok (h _ hc)
  | error he => exact .error he

private theorem andThen {x : Reply α} {f : α → Cursor → Reply β} (hx : Reaches r P x)
    (hf : ∀ a middle, x = .ok a middle → P middle → Reaches r Q (f a middle)) :
    Reaches r Q (Reply.andThen x f) := by
  cases hx with
  | ok hc => exact hf _ _ rfl hc
  | error he => exact .error he

private theorem bind {p : Parse α} {f : α → Parse β} (hp : Reaches r P (p c))
    (hf : ∀ a middle, P middle → Reaches r Q (f a middle)) : Reaches r Q ((p >>= f) c) := by
  rw [Parse.bind_apply]
  exact hp.andThen fun a middle _ => hf a middle

/-- A lexeme is obtained first. -/
private theorem next_andThen {f : Lexeme → Cursor → Reply β} (hc : c.Stands r stage seen)
    (hf : ∀ l middle, c.next = .ok l middle → Reaches r Q (f l middle)) :
    Reaches r Q (c.next.andThen f) := by
  cases hl : c.next with
  | ok l middle =>
    rw [andThen_of_ok rfl]
    exact hf l middle hl
  | error e middle =>
    rw [andThen_of_error rfl]
    exact .error (hc.rejects_of_error hl)

private theorem next_bind {f : Lexeme → Parse β} (hc : c.Stands r stage seen)
    (hf : ∀ l middle, c.next = .ok l middle → Reaches r Q (f l middle)) :
    Reaches r Q ((Cursor.next >>= f) c) := by
  refine (congrArg (Reaches r Q) (Parse.bind_apply _ f c)).mpr ?_
  exact next_andThen hc hf

end Reply.Reaches

/-! ## What each part of the parser does -/

namespace Parse

variable {r : Reader} {stage stage' : Stage} {seen : Nat} {c middle : Cursor} {l : Lexeme}

/-- A name leads on unless it is too long. -/
private theorem boundedName_reaches (hc : c.Stands r stage seen) (hseen : seen ≤ 2)
    (hl : c.next = .ok l middle) (hk : l.kind = .identifier)
    (hafter : stage.after .identifier = some stage') :
    Reply.Reaches r (Cursor.Stands r stage' 0) (boundedName l middle) := by
  unfold boundedName
  split
  · next hlong => exact .error (hc.rejects hseen hl (.inr ⟨hk, hlong⟩) _)
  · next hfit =>
    refine .ok (hc.consume hseen hl (by simp [hk]) (fun _ => Nat.not_lt.1 hfit) ?_)
    rw [hk, hafter]

private theorem value_reaches (hc : c.Stands r .operand 0) :
    Reply.Reaches r (Cursor.Stands r .continuation 0) (value c) := by
  unfold value
  refine .next_bind hc fun l middle hl => ?_
  cases hk : l.kind with
  | identifier =>
    refine .bind (boundedName_reaches hc (Nat.zero_le _) hl hk rfl) fun name after hafter => ?_
    exact .ok hafter
  | number v =>
    apply Reply.Reaches.ok
    exact hc.consume (Nat.zero_le _) hl (by simp [hk]) (by simp [hk]) (by rw [hk]; rfl)
  | _ => exact .error (hc.rejects (Nat.zero_le _) hl (.inl (by rw [hk]; rfl)) _)

/-- A lexeme that is no operator closes an expression and is due, or is out of place. -/
private theorem close_reaches (hc : c.Stands r .continuation seen) (hseen : seen ≤ 2)
    (hl : c.next = .ok l middle) (hk : ∀ op, l.kind ≠ .operator op) (e : Expr) :
    Reply.Reaches r (Cursor.Due r .continuation (seen + 1)) (close l e middle) := by
  unfold close
  cases hkind : l.kind with
  | operator op => exact absurd hkind (hk op)
  | identifier => exact .ok (hc.due_unread hl (by rw [hkind]; rfl))
  | printKeyword => exact .ok (hc.due_unread hl (by rw [hkind]; rfl))
  | endOfFile => exact .ok (hc.due_of_end hl hkind (by rw [hkind]; rfl))
  | _ => exact .error (hc.rejects hseen hl (.inl (by rw [hkind]; rfl)) _)

/-- A term leaves a lexeme ahead that was obtained once. -/
private theorem termTail_reaches (left : Expr) {c : Cursor} (hc : c.Stands r .continuation 0) :
    Reply.Reaches r (Cursor.Stands r .continuation 1) (termTail left c) := by
  rw [termTail_eq]
  refine .next_andThen hc fun l middle hl => ?_
  split
  · next op hk =>
    split
    · -- a tight operator is consumed, and the count of its lexeme begins anew
      have hmiddle : middle.Stands r .operand 0 :=
        hc.consume (Nat.zero_le _) hl (by simp [hk]) (by simp [hk]) (by rw [hk]; rfl)
      refine .andThen (value_reaches hmiddle) fun right after hv hafter => ?_
      have := Cursor.size_lt_of_next hl (by simp [hk])
      have := nonGrowing_value hv
      exact termTail_reaches _ hafter
    · -- a loose operator is handed back to the loop over the expression
      exact .ok (hc.unread hl)
  · next hk => exact (close_reaches hc (Nat.zero_le _) hl hk left).imp fun _ => And.left
termination_by c.size

/-- An expression leaves a lexeme ahead that was obtained once more than behind its last term. -/
private theorem expression_reaches (left : Expr) {c : Cursor} (hc : c.Stands r .continuation 1) :
    Reply.Reaches r (Cursor.Due r .continuation 2) (expression left c) := by
  rw [expression_eq]
  refine .next_andThen hc fun l middle hl => ?_
  split
  · next op hk =>
    have hmiddle : middle.Stands r .operand 0 :=
      hc.consume (by decide) hl (by simp [hk]) (by simp [hk]) (by rw [hk]; rfl)
    have := Cursor.size_lt_of_next hl (by simp [hk])
    refine .andThen (value_reaches hmiddle) fun first after hv hafter => ?_
    have := nonGrowing_value hv
    split
    · -- a tight operator takes the value alone, behind which nothing was obtained yet
      exact expression_reaches _ (hafter.mono (Nat.zero_le _))
    · -- behind a term the next lexeme has been obtained once
      refine .andThen (termTail_reaches first hafter) fun right beyond ht hbeyond => ?_
      have := nonGrowing_termTail first ht
      exact expression_reaches _ hbeyond
  · next hk => exact close_reaches hc (by decide) hl hk left
termination_by c.size

private theorem declaration_reaches (ty : Ty) (keyword : Lexeme) (hc : c.Stands r .declaredName 0) :
    Reply.Reaches r (Cursor.Stands r .declarations 0) (declaration ty keyword c) := by
  unfold declaration
  refine .next_bind hc fun l middle hl => ?_
  cases hk : l.kind with
  | identifier =>
    refine .bind (boundedName_reaches hc (Nat.zero_le _) hl hk rfl) fun name after hafter => ?_
    exact .ok hafter
  | _ => exact .error (hc.rejects (Nat.zero_le _) hl (.inl (by rw [hk]; rfl)) _)

private theorem declarations_reaches {c : Cursor} (hc : c.Stands r .declarations 0) :
    Reply.Reaches r (Cursor.Due r .declarations 1) (declarations c) := by
  rw [declarations_eq]
  refine .next_andThen hc fun l middle hl => ?_
  split
  · next ty hty =>
    have hkeyword : l.kind ≠ .endOfFile ∧ l.kind ≠ .identifier ∧
        Stage.declarations.after l.kind = some .declaredName := by
      -- only the two keywords of declarations tell a type
      unfold declaredTy? at hty
      split at hty <;> simp_all [Stage.after]
    obtain ⟨hend, hname, hafter⟩ := hkeyword
    have hmiddle := hc.consume (Nat.zero_le _) hl hend (fun hk => absurd hk hname) hafter
    refine .andThen (declaration_reaches ty l hmiddle) fun d after hd hafter => ?_
    have := Cursor.size_lt_of_next hl hend
    have := nonGrowing_declaration ty l hd
    exact .andThen (declarations_reaches hafter) fun ds beyond _ hbeyond => .ok hbeyond
  · -- what is no keyword of a declaration starts a statement, ends the source or is out of place
    split
    · next hk => exact .ok (hc.due_unread hl (by rw [hk]; rfl))
    · next hk => exact .ok (hc.due_unread hl (by rw [hk]; rfl))
    · next hk => exact .ok (hc.due_of_end hl hk (by rw [hk]; rfl))
    · next hty _ _ _ =>
      refine .error (hc.rejects (Nat.zero_le _) hl (.inl ?_) _)
      -- each other kind of lexeme leads nowhere from here
      cases hk : l.kind <;> simp_all [declaredTy?, Stage.after, Stage.opening]
termination_by c.size

/-- The first lexeme of an assignment has been obtained. -/
private theorem assignment_reaches (hc : c.Due r stage 2) (hl : c.next = .ok l middle)
    (hk : l.kind = .identifier) :
    Reply.Reaches r (Cursor.Due r .continuation 2) (assignment l middle) := by
  -- what is due here opens a statement, so the name is a target
  have htarget : stage.after .identifier = some .target := by
    rw [← hk, hc.2 l _ (Cursor.next_eq_ok_iff.1 hl).1, hk]
    rfl
  unfold assignment
  refine .bind (boundedName_reaches hc.1 (Nat.le_refl _) hl hk htarget) fun name after hafter => ?_
  refine .next_bind hafter fun sign beyond hsign => ?_
  split
  · next hassign =>
    have hbeyond : beyond.Stands r .operand 0 :=
      hafter.consume (Nat.zero_le _) hsign (by simp [hassign]) (by simp [hassign])
        (by rw [hassign]; rfl)
    refine .bind (value_reaches hbeyond) fun first c' hc' => ?_
    refine .bind (expression_reaches first (hc'.mono (Nat.zero_le _))) fun e c'' hc'' => ?_
    exact .ok hc''
  · next hassign =>
    refine .error (hafter.rejects (Nat.zero_le _) hsign (.inl ?_) _)
    cases hkind : sign.kind <;> simp_all [Stage.after]

private theorem printing_reaches (hc : c.Due r stage 2) (hl : c.next = .ok l middle)
    (hk : l.kind = .printKeyword) :
    Reply.Reaches r (Cursor.Due r .statements 2) (printing l middle) := by
  have hprinted : stage.after l.kind = some .printedName := by
    rw [hc.2 l _ (Cursor.next_eq_ok_iff.1 hl).1, hk]
    rfl
  have hmiddle : middle.Stands r .printedName 0 :=
    hc.1.consume (Nat.le_refl _) hl (by simp [hk]) (by simp [hk]) hprinted
  unfold printing
  refine .next_bind hmiddle fun name after hname => ?_
  split
  · next hidentifier =>
    refine .bind (boundedName_reaches hmiddle (Nat.zero_le _) hname hidentifier rfl)
      fun text beyond hbeyond => ?_
    exact .ok ⟨hbeyond.mono (Nat.zero_le _), fun _ _ _ => rfl⟩
  · next hidentifier =>
    refine .error (hmiddle.rejects (Nat.zero_le _) hname (.inl ?_) _)
    cases hkind : name.kind <;> simp_all [Stage.after]

/-- The first lexeme of a statement, or one that cannot be, has been obtained. -/
private theorem statement_reaches (hc : c.Due r stage 2) (hl : c.next = .ok l middle)
    (hend : l.kind ≠ .endOfFile) :
    Reply.Reaches r (fun c' => ∃ stage', c'.Due r stage' 2) (statement l middle) := by
  have hopening := hc.2 l _ (Cursor.next_eq_ok_iff.1 hl).1
  unfold statement
  cases hk : l.kind with
  -- the stage behind a statement depends on which of the two it is
  | identifier => exact (assignment_reaches hc hl hk).imp fun c' hc' => ⟨_, hc'⟩
  | printKeyword => exact (printing_reaches hc hl hk).imp fun c' hc' => ⟨_, hc'⟩
  | endOfFile => exact absurd hk hend
  | _ => exact .error (hc.1.rejects (Nat.le_refl _) hl (.inl (by rw [hopening, hk]; rfl)) _)

private theorem statements_reaches {c : Cursor} {stage : Stage} (hc : c.Due r stage 2) :
    Reply.Reaches r (Cursor.Finished r) (statements c) := by
  rw [statements_eq]
  refine .next_andThen hc.1 fun l middle hl => ?_
  split
  · next hk => exact .ok (hc.finished (Nat.le_refl _) hl hk)
  · next hk =>
    refine .andThen (statement_reaches hc hl hk) fun s after hs hafter => ?_
    have := Cursor.size_lt_of_next hl hk
    have := nonGrowing_statement l hs
    obtain ⟨stage', hafter⟩ := hafter
    exact .andThen (statements_reaches hafter) fun ss beyond _ hbeyond => .ok hbeyond
termination_by c.size

/-- A whole program is read to its end, or the parse fails where it has to. -/
theorem program_reaches (r : Reader) :
    Reply.Reaches r (Cursor.Finished r) (program (.ofReader r)) := by
  unfold program
  refine .bind (declarations_reaches (Cursor.Stands.ofReader r)) fun ds middle hmiddle => ?_
  -- the loop over the declarations has obtained one lexeme less than is allowed for
  have hdue : middle.Due r .declarations 2 := ⟨hmiddle.1.mono (by decide), hmiddle.2⟩
  exact .bind (statements_reaches hdue) fun ss after hafter => .ok hafter

end Parse

/-! ## What a parse obtains -/

/-- There are no more lexemes than characters, but for the end. -/
private theorem Reader.Reads.length_le {r r' : Reader} {ls : List Lexeme} (h : r.Reads ls r') :
    ls.length ≤ r.size := by
  induction ls generalizing r with
  | nil => exact Nat.zero_le _
  | cons l ls ih =>
    obtain ⟨behind, hnext, hl, hls⟩ := h
    have := Reader.size_lt_of_next hnext hl
    have := ih hls
    rw [List.length_cons]
    omega

/-- The lexemes obtained in a parse are those of the source in order, each of them one, two or three
times in a row. If the source is a program they are all of them with the end; otherwise they are
those up to the lexeme that is refused, or those in front of the characters that form none. So the
parser never obtains more of them than three for each character and three for the end. -/
theorem program_obtains (source : String) :
    (Reply.cursor (Parse.program (.ofString source))).lexemes.length ≤ 3 * (source.length + 1) ∧
    match Parse.program (.ofString source) with
    | .ok _ c =>
      ∃ ls final, (Reader.ofString source).tokenize = .ok ls final ∧ Stutters ls c.lexemes
    | .error (.unexpected _ found) c =>
      ∃ before middle behind, (Reader.ofString source).Reads before middle ∧
        middle.next = .ok found behind ∧ Stutters (before ++ [found]) c.lexemes
    | .error (.lexical e) c =>
      ∃ before middle final, (Reader.ofString source).Reads before middle ∧
        middle.next = .error e final ∧ (Reader.ofString source).tokenize = .error e final ∧
        Stutters before c.lexemes := by
  -- in all three outcomes what was obtained is bounded by what was read
  have hlength {before ls obtained : List Lexeme} {middle : Reader}
      (hreads : (Reader.ofString source).Reads before middle)
      (hls : ls.length ≤ before.length + 1) (hobtained : Stutters ls obtained) :
      obtained.length ≤ 3 * (source.length + 1) := by
    have hsize : (Reader.ofString source).size = source.length := by
      simp [Reader.size, Reader.ofString, String.length_toList]
    have := hobtained.length_le
    have := hreads.length_le
    omega
  have hreaches := Parse.program_reaches (.ofString source)
  change Reply.Reaches _ _ (Parse.program (.ofString source)) at hreaches
  revert hreaches
  cases Parse.program (.ofString source) with
  | ok p c =>
    -- a program was read to its end
    rintro ⟨before, l, middle, hreads, hnext, hk, -, hobtained⟩
    have htokens : (Reader.ofString source).tokenize = .ok (before ++ [l]) c.reader :=
      Reader.tokenize_eq_ok_iff.2 ⟨before, l, middle, rfl, hreads, hnext, hk⟩
    exact ⟨hlength hreads (by simp) hobtained, _, _, htokens, hobtained⟩
  | error e c =>
    rintro (_ | hrejects)
    cases hrejects with
    | @lexical before middle e c hreads _ hnext hobtained =>
      have htokens : (Reader.ofString source).tokenize = .error e c.reader :=
        Reader.tokenize_eq_error_iff.2 ⟨before, middle, hreads, hnext⟩
      exact ⟨hlength hreads (Nat.le_succ _) hobtained, _, _, _, hreads, hnext, htokens, hobtained⟩
    | unexpected hreads _ hnext _ hobtained =>
      exact ⟨hlength hreads (by simp) hobtained, _, _, _, hreads, hnext, hobtained⟩

/-- The letter that prints is obtained by the loop over the term, by that over the expression and by
that over the statements. -/
example : (Reply.cursor (Parse.program (.ofString "a=1+2p b"))).lexemes.map Lexeme.text =
    ["a", "a", "=", "1", "+", "2", "p", "p", "p", "b", ""] := by
  decide +kernel

end DeskCalc
