import Mathlib.Logic.Function.Iterate
import Mathlib.Logic.Relation
import DeskCalc.Proofs.Progress
import DeskCalc.Proofs.Recognition
import DeskCalc.Proofs.Scanning

/-!
# Parsing on behind a parse

A parse leaves a cursor, whether it succeeds or fails, and another parse can start there. What was
obtained before is a log that no parse looks at, so the other parse goes as it would from a new
cursor at the same reader.

A lexeme handed back is obtained again before the parse ends. So nothing is left handed back: the
reader is where it would be if the characters had been read one after the other.

Main statements: `Parse.program_logged` and `program_resumed`.
-/

namespace DeskCalc

open Reply (andThen_of_ok andThen_of_error)

/-! ## Reading character by character -/

namespace Reader

/-- Reading some characters one after the other leads from one reader to the other. -/
def Leads : Reader → Reader → Prop :=
  Relation.ReflTransGen fun r behind => ∃ c, r.pop? = some (c, behind)

/-- The reader behind what was read. -/
def Outcome.behind {α : Type} : Outcome α → Reader
  | .ok _ r | .error _ r => r

namespace Leads

private theorem refl (r : Reader) : r.Leads r := Relation.ReflTransGen.refl

theorem trans {r middle r' : Reader} (h : r.Leads middle) (h' : middle.Leads r') : r.Leads r' :=
  Relation.ReflTransGen.trans h h'

private theorem pop {r behind r' : Reader} {c : Char} (h : r.pop? = some (c, behind))
    (h' : behind.Leads r') : r.Leads r' :=
  Relation.ReflTransGen.head ⟨c, h⟩ h'

private theorem span (accept : Char → Bool) (room : Nat) (r : Reader) :
    r.Leads (r.span accept room).2 := by
  induction room generalizing r with
  | zero => exact refl r
  | succ room ih =>
    unfold Reader.span
    split
    · next c behind hp =>
      split
      · exact pop hp (ih behind)
      · exact refl r
    · exact refl r

private theorem skipBlanks (r : Reader) : r.Leads r.skipBlanks := by
  fun_induction Reader.skipBlanks r with
  | case1 r c behind hp _ _ ih => exact pop hp ih
  | case2 => exact refl _
  | case3 => exact refl _

private theorem word (first : Char) (start : Location) (r : Reader) :
    r.Leads (Outcome.behind (Reader.word first start r)) := by
  unfold Reader.word
  dsimp only
  split <;> exact span _ _ r

private theorem fraction (whole : List Char) (start : Location) (r : Reader) :
    r.Leads (Outcome.behind (Reader.fraction whole start r)) := by
  unfold Reader.fraction
  dsimp only
  split
  · split <;> exact span _ _ r
  · exact refl r

private theorem number (first : Char) (start : Location) (r : Reader) :
    r.Leads (Outcome.behind (Reader.number first start r)) := by
  have hspan := span Char.isDigit (Lexeme.maxLength - 1) r
  unfold Reader.number
  dsimp only
  -- a number that is too long ends behind the digits that were read
  split
  · exact hspan
  · split
    · next behind hp => exact hspan.trans (pop hp (fraction _ start behind))
    · split <;> exact hspan

/-- A lexeme is read character by character, and so is what turns out to be none. -/
theorem next (r : Reader) : r.Leads (Outcome.behind r.next) := by
  have hskip := skipBlanks r
  unfold Reader.next
  dsimp only
  split
  · exact hskip
  · next c behind hp =>
    -- the first character is read, whatever it begins
    refine hskip.trans (pop hp ?_)
    split
    · exact number c _ behind
    · split
      · exact word c _ behind
      · split <;> exact refl behind

private theorem size_le {r r' : Reader} (h : r.Leads r') : r'.size ≤ r.size := by
  induction h with
  | refl => exact Nat.le_refl _
  | tail _ hpop ih =>
    obtain ⟨c, hpop⟩ := hpop
    have := size_pop? hpop
    omega

end Leads

/-- In a source the reading leads on, and everything in front is read in the end or left. -/
private theorem Leads.amid {read rest : List Char} {r : Reader} (h : (amid read rest).Leads r) :
    ∃ run rest', rest = run ++ rest' ∧ r = Reader.amid (read ++ run) rest' := by
  induction h with
  | refl => exact ⟨[], rest, rfl, by simp⟩
  | tail _ hpop ih =>
    -- one step reads one character more of the source
    obtain ⟨run, rest', rfl, rfl⟩ := ih
    obtain ⟨c, hpop⟩ := hpop
    cases rest' with
    | nil => simp at hpop
    | cons d rest' =>
      rw [pop?_amid_cons] at hpop
      cases hpop
      exact ⟨run ++ [c], rest', by simp, by simp⟩

/-- Behind the lexemes read there is a reader from which the same is read next. -/
private theorem Reads.exists_leads {r middle : Reader} {ls : List Lexeme} (h : r.Reads ls middle) :
    ∃ r', r.Leads r' ∧ r'.next = middle.next ∧ r'.size + ls.length ≤ r.size := by
  induction ls generalizing r with
  | nil => exact ⟨r, .refl r, h, Nat.le_refl _⟩
  | cons l ls ih =>
    -- the reader found for the lexemes behind the first one serves for all
    obtain ⟨behind, hnext, hl, hls⟩ := h
    obtain ⟨r', hleads, hsame, hsize⟩ := ih hls
    have hbehind : r.Leads behind := by
      have hread := Leads.next r
      rwa [hnext] at hread
    have := size_lt_of_next hnext hl
    refine ⟨r', hbehind.trans hleads, hsame, ?_⟩
    rw [List.length_cons]
    omega

/-- Reading goes on over what is next. -/
private theorem Reads.leads_next {r middle : Reader} {ls : List Lexeme} (h : r.Reads ls middle) :
    r.Leads (Outcome.behind middle.next) := by
  obtain ⟨r', hleads, hsame, -⟩ := h.exists_leads
  rw [← hsame]
  exact hleads.trans (.next r')

end Reader

/-! ## The log of a parse -/

/-- The cursor with a longer log: `earlier` was obtained before the rest, the latest first. -/
def Cursor.logged (earlier : List Lexeme) (c : Cursor) : Cursor :=
  { c with obtained := c.obtained ++ earlier }

/-- The reply with a longer log. -/
def Reply.logged {α : Type} (earlier : List Lexeme) : Reply α → Reply α
  | .ok a c => .ok a (c.logged earlier)
  | .error e c => .error e (c.logged earlier)

/-- No parse looks at what was obtained before. -/
def Frames {α : Type} (p : Parse α) : Prop :=
  ∀ earlier c, p (c.logged earlier) = Reply.logged earlier (p c)

namespace Frames

variable {α β : Type}

private theorem pure (a : α) : Frames (Pure.pure a : Parse α) := fun _ _ => rfl

private theorem throw (e : ParseError) : Frames (MonadExcept.throw e : Parse α) := fun _ _ => rfl

private theorem next : Frames Cursor.next := by
  intro earlier c
  have hreader : (c.logged earlier).reader = c.reader := rfl
  unfold Cursor.next
  rw [hreader]
  cases c.reader.next <;> rfl

/-- Going on behind a reply with a longer log makes the log longer. -/
private theorem andThen {earlier : List Lexeme} {x : Reply α} {f : α → Cursor → Reply β}
    (hf : ∀ a c, x = .ok a c → f a (c.logged earlier) = Reply.logged earlier (f a c)) :
    Reply.andThen (Reply.logged earlier x) f = Reply.logged earlier (Reply.andThen x f) := by
  cases x with
  | ok a c => exact hf a c rfl
  | error e c => rfl

private theorem bind {p : Parse α} {f : α → Parse β} (hp : Frames p) (hf : ∀ a, Frames (f a)) :
    Frames (p >>= f) := by
  intro earlier c
  rw [Parse.bind_apply, Parse.bind_apply, hp]
  exact andThen fun a c _ => hf a earlier c

end Frames

namespace Parse

variable {earlier : List Lexeme} {c : Cursor}

private theorem frames_boundedName (l : Lexeme) : Frames (boundedName l) := by
  unfold boundedName
  split
  · exact .throw _
  · exact .pure _

private theorem frames_value : Frames value := by
  refine .bind .next fun l => ?_
  split
  · exact .bind (frames_boundedName l) fun _ => .pure _
  · exact .pure _
  · exact .throw _

private theorem frames_close (l : Lexeme) (e : Expr) : Frames (close l e) := by
  intro earlier c
  unfold close
  split <;> rfl

private theorem termTail_logged (left : Expr) (c : Cursor) :
    termTail left (c.logged earlier) = Reply.logged earlier (termTail left c) := by
  -- the recursion is on what is left to read, and this is the same with a longer log
  rw [termTail_eq, termTail_eq left c, Frames.next]
  refine Frames.andThen fun l middle hl => ?_
  split
  · next op hk =>
    split
    · rw [frames_value]
      refine Frames.andThen fun right after hv => ?_
      have := Cursor.size_lt_of_next hl (by simp [hk])
      have := nonGrowing_value hv
      exact termTail_logged _ after
    · rfl
  · exact frames_close l left earlier middle
termination_by c.size

private theorem expression_logged (left : Expr) (c : Cursor) :
    expression left (c.logged earlier) = Reply.logged earlier (expression left c) := by
  rw [expression_eq, expression_eq left c, Frames.next]
  refine Frames.andThen fun l middle hl => ?_
  split
  · next op hk =>
    have := Cursor.size_lt_of_next hl (by simp [hk])
    rw [frames_value]
    refine Frames.andThen fun first after hv => ?_
    have := nonGrowing_value hv
    split
    · exact expression_logged _ after
    · rw [termTail_logged]
      refine Frames.andThen fun right beyond ht => ?_
      have := nonGrowing_termTail first ht
      exact expression_logged _ beyond
  · exact frames_close l left earlier middle
termination_by c.size

private theorem frames_declaration (ty : Ty) (keyword : Lexeme) :
    Frames (declaration ty keyword) := by
  refine .bind .next fun l => ?_
  split
  · exact .bind (frames_boundedName l) fun _ => .pure _
  all_goals exact .throw _

private theorem declarations_logged (c : Cursor) :
    declarations (c.logged earlier) = Reply.logged earlier (declarations c) := by
  rw [declarations_eq, declarations_eq c, Frames.next]
  refine Frames.andThen fun l middle hl => ?_
  split
  · next ty hty =>
    have := Cursor.size_lt_of_next hl (by intro hk; simp [hk, declaredTy?] at hty)
    rw [frames_declaration]
    refine Frames.andThen fun d after hd => ?_
    have := nonGrowing_declaration ty l hd
    rw [declarations_logged after]
    exact Frames.andThen fun _ _ _ => rfl
  · split <;> rfl
termination_by c.size

private theorem frames_assignment (target : Lexeme) : Frames (assignment target) := by
  refine .bind (frames_boundedName target) fun _ => .bind .next fun l => ?_
  split
  · refine .bind frames_value fun first => .bind ?_ fun _ => .pure _
    exact fun earlier c => expression_logged first c
  · exact .throw _

private theorem frames_printing (keyword : Lexeme) : Frames (printing keyword) := by
  refine .bind .next fun l => ?_
  split
  · exact .bind (frames_boundedName l) fun _ => .pure _
  · exact .throw _

private theorem frames_statement (l : Lexeme) : Frames (statement l) := by
  unfold statement
  split
  · exact frames_assignment l
  · exact frames_printing l
  · exact .throw _

private theorem statements_logged (c : Cursor) :
    statements (c.logged earlier) = Reply.logged earlier (statements c) := by
  rw [statements_eq, statements_eq c, Frames.next]
  refine Frames.andThen fun l middle hl => ?_
  split
  · rfl
  · next hk =>
    have := Cursor.size_lt_of_next hl hk
    rw [frames_statement]
    refine Frames.andThen fun s after hs => ?_
    have := nonGrowing_statement l hs
    rw [statements_logged after]
    exact Frames.andThen fun _ _ _ => rfl
termination_by c.size

/-- A program is read alike whatever was obtained before. -/
theorem program_logged : Frames program := by
  refine .bind (fun _ c => declarations_logged c) fun ds => ?_
  exact .bind (fun _ c => statements_logged c) fun ss => .pure _

end Parse

/-! ## Where a parse ends -/

def Reply.failed {α : Type} : Reply α → Bool
  | .ok _ _ => false
  | .error _ _ => true

/-- A parse that fails has read on, and something at least. The end at which it may fail is not the
first lexeme, as there is an empty program. -/
private theorem Rejects.leads {r : Reader} {e : ParseError} {c : Cursor} (h : Rejects r e c) :
    r.Leads c.reader ∧ c.reader.size < r.size := by
  cases h with
  | @lexical before middle e c hreads _ hnext =>
    have hleads := hreads.leads_next
    obtain ⟨r', -, hsame, hsize⟩ := hreads.exists_leads
    rw [hnext] at hleads hsame
    -- what forms no lexeme costs a character
    have := Reader.size_lt_of_next_error hsame
    exact ⟨hleads, by omega⟩
  | @unexpected before middle expected found c hreads _ hnext hbad =>
    have hleads := hreads.leads_next
    obtain ⟨r', -, hsame, hsize⟩ := hreads.exists_leads
    rw [hnext] at hleads hsame
    refine ⟨hleads, ?_⟩
    by_cases hk : found.kind = .endOfFile
    · -- a source may end at once, so a lexeme was read before
      have hne : before ≠ [] := by
        rintro rfl
        apply hbad
        refine ⟨(Grammar.isViable_iff_stage? _).2 ?_, by simp [NamesFit, hk]⟩
        simp [hk, Grammar.Stage.of?, Grammar.Stage.after, Grammar.Stage.opening]
      have := List.length_pos_iff.2 hne
      have := Reader.next_size hsame
      omega
    · have := Reader.size_lt_of_next hsame hk
      omega

private theorem Cursor.Finished.leads {r : Reader} {c : Cursor} (h : c.Finished r) :
    r.Leads c.reader ∧ Parse.Ahead (· = .endOfFile) c.reader := by
  obtain ⟨before, l, middle, hreads, hnext, hk, -, -⟩ := h
  have hleads := hreads.leads_next
  rw [hnext] at hleads
  exact ⟨hleads, l, _, Reader.next_of_endOfFile hnext hk, hk⟩

namespace Parse

/-- A parse goes as from a new cursor at the same reader. -/
private theorem program_eq_logged (c : Cursor) :
    program c = Reply.logged c.obtained (program (.ofReader c.reader)) := by
  rw [← program_logged]
  rfl

variable {c c' : Cursor}

/-- A parse that succeeds reads on to the end. -/
private theorem leads_of_ok {p : Program} (h : program c = .ok p c') :
    c.reader.Leads c'.reader ∧ Ahead (· = .endOfFile) c'.reader := by
  have hreaches := program_reaches c.reader
  -- what is known of parses is about new cursors, so the log is taken off
  rw [program_eq_logged] at h
  revert h hreaches
  cases program (.ofReader c.reader) with
  | ok q behind =>
    rintro h (hfinished | _)
    cases h
    exact hfinished.leads
  | error e behind => exact nofun

/-- A parse that fails reads on, over something at least. -/
private theorem leads_of_error {e : ParseError} (h : program c = .error e c') :
    c.reader.Leads c'.reader ∧ c'.reader.size < c.reader.size := by
  have hreaches := program_reaches c.reader
  rw [program_eq_logged] at h
  revert h hreaches
  cases program (.ofReader c.reader) with
  | ok p behind => exact nofun
  | error e behind =>
    rintro h (_ | hrejects)
    cases h
    exact hrejects.leads

/-- At the end the empty program is read, and the end is still ahead. -/
private theorem program_of_end (h : Ahead (· = .endOfFile) c.reader) :
    ∃ c', program c = .ok ⟨[], []⟩ c' ∧ Ahead (· = .endOfFile) c'.reader := by
  obtain ⟨l, behind, hnext, hk⟩ := h
  -- the declarations hand the end on to the statements, which end there
  obtain ⟨middle, hl, -⟩ := exists_next_of_reader hnext
  obtain ⟨after, hdeclarations, hback⟩ := declarations_of_closing hl (.inr (.inr hk))
  obtain ⟨beyond, hl', rfl⟩ := exists_next_of_reader (Eq.trans hback hnext)
  refine ⟨beyond, ?_, l, _, Reader.next_of_endOfFile hnext hk, hk⟩
  exact bind_eq_ok_iff.2
    ⟨[], after, hdeclarations, bind_eq_ok_iff.2 ⟨[], beyond, statements_of_end hl' hk, rfl⟩⟩

/-! ## Parsing again and again -/

/-- The cursor behind a parse, where another one can start. -/
def resume (c : Cursor) : Cursor := Reply.cursor (program c)

private theorem resume_of_ok {p : Program} (h : program c = .ok p c') : resume c = c' := by
  rw [resume, h, Reply.cursor]

private theorem leads_resume (c : Cursor) : c.reader.Leads (resume c).reader := by
  rw [resume]
  cases hprogram : program c with
  | ok p c' => exact (leads_of_ok hprogram).1
  | error e c' => exact (leads_of_error hprogram).1

/-- Whatever the parses of a source came to, nothing is left handed back. -/
private theorem exists_amid (source : String) (n : Nat) :
    ∃ read rest, source.toList = read ++ rest ∧
      (resume^[n] (.ofString source)).reader = .amid read rest := by
  induction n with
  | zero => exact ⟨[], source.toList, rfl, rfl⟩
  | succ n ih =>
    obtain ⟨read, rest, hsource, hreader⟩ := ih
    -- each parse reads on from where the one before left off
    have hleads := leads_resume (resume^[n] (.ofString source))
    rw [hreader] at hleads
    obtain ⟨run, rest', rfl, hreader'⟩ := hleads.amid
    rw [Function.iterate_succ_apply']
    exact ⟨read ++ run, rest', by simp [hsource], hreader'⟩

/-- Behind the end all parses read the empty program. -/
private theorem program_resume_of_end (h : Ahead (· = .endOfFile) c.reader) (m : Nat) :
    ∃ c', program (resume^[m] c) = .ok ⟨[], []⟩ c' := by
  induction m generalizing c with
  | zero =>
    obtain ⟨c', hc', -⟩ := program_of_end h
    exact ⟨c', hc'⟩
  | succ m ih =>
    obtain ⟨c', hc', hend⟩ := program_of_end h
    rw [Function.iterate_succ_apply, resume_of_ok hc']
    exact ih hend

/-- A parse leaves no more to read than there was, and less if it fails. -/
private theorem failed_add_size_le (c : Cursor) :
    (if Reply.failed (program c) then 1 else 0) + (resume c).size ≤ c.size := by
  rw [resume]
  cases hprogram : program c with
  | ok p c' =>
    simpa [Reply.failed, Reply.cursor, Cursor.size] using (leads_of_ok hprogram).1.size_le
  | error e c' =>
    have hsize := (leads_of_error hprogram).2
    rw [Reply.failed, if_pos rfl, Reply.cursor, Cursor.size, Cursor.size]
    omega

/-- Each parse that fails is paid for by what is left to read. -/
private theorem countP_failed_le (c : Cursor) (n : Nat) :
    (List.range n).countP (fun i => Reply.failed (program (resume^[i] c))) + (resume^[n] c).size ≤
      c.size := by
  induction n with
  | zero => simp
  | succ n ih =>
    -- the parse that comes last pays for itself out of what it has read
    have hstep := failed_add_size_le (resume^[n] c)
    rw [List.range_succ, List.countP_append, List.countP_singleton, Function.iterate_succ_apply']
    omega

end Parse

/-- A source is parsed again and again, each time from where the parse before left off. Whatever
that came to, nothing is left handed back: the parse goes as it would from a new cursor behind the
characters read, at the place that these lead to, but for the log of lexemes. One that fails has
read one character at least, so no more of them fail than the source has characters; and behind one
that succeeds all others read the empty program. -/
theorem program_resumed (source : String) (n : Nat) :
    (List.range n).countP
        (fun i => Reply.failed (Parse.program (Parse.resume^[i] (.ofString source)))) ≤
      source.length ∧
    let c := Parse.resume^[n] (.ofString source)
    ∃ read rest, source.toList = read ++ rest ∧ c.reader = .amid read rest ∧
      Parse.program c =
        Reply.logged c.obtained (Parse.program (.ofReader (.amid read rest))) ∧
      (∀ e c', Parse.program c = .error e c' → ∃ first run rest',
        rest = first :: run ++ rest' ∧ c'.reader = .amid (read ++ first :: run) rest') ∧
      ∀ p c', Parse.program c = .ok p c' →
        ∀ m, ∃ c'', Parse.program (Parse.resume^[m] c') = .ok ⟨[], []⟩ c'' := by
  refine ⟨?_, ?_⟩
  · have hpaid := Parse.countP_failed_le (.ofString source) n
    have hsize : (Cursor.ofString source).size = source.length := by
      simp [Cursor.size, Cursor.ofString, Cursor.ofReader, Reader.size, Reader.ofString,
        String.length_toList]
    omega
  · intro c
    obtain ⟨read, rest, hsource, hreader⟩ := Parse.exists_amid source n
    have hfresh : Parse.program c =
        Reply.logged c.obtained (Parse.program (.ofReader (.amid read rest))) := by
      rw [← hreader]
      exact Parse.program_eq_logged c
    refine ⟨read, rest, hsource, hreader, hfresh, ?_, ?_⟩
    · intro e c' hprogram
      obtain ⟨hleads, hsize⟩ := Parse.leads_of_error hprogram
      rw [hreader] at hleads hsize
      obtain ⟨run, rest', rfl, hc'⟩ := hleads.amid
      -- a run of no characters would leave as much as there was
      cases run with
      | nil => simp [hc', Reader.amid] at hsize
      | cons first run => exact ⟨first, run, rest', rfl, hc'⟩
    · intro p c' hprogram m
      exact Parse.program_resume_of_end (Parse.leads_of_ok hprogram).2 m

/-- Each of the first two characters starts no lexeme, and a declaration stands behind them. -/
example : (List.range 4).map (fun i =>
    Reply.failed (Parse.program (Parse.resume^[i] (.ofString "%?i a")))) =
      [true, true, false, false] := by
  decide +kernel

end DeskCalc
