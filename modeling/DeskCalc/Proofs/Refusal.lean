import DeskCalc.Proofs.Progress

/-!
# Where a source is refused

From the start of a source lexemes are read as long as a program begins with them. There is one
place where this ends: behind it lies no lexeme, one that no program goes on with, or the end. A
parse gets exactly there, so it fails at the first lexeme at which it is certain that the source is
no program, and characters that form no lexeme are met only if no lexeme before them was refused.

Main statements: `Reader.Stops.unique` and `program_refused_iff`.
-/

namespace DeskCalc

private theorem BeginsProgram.of_append {ls more : List Lexeme} (h : BeginsProgram (ls ++ more)) :
    BeginsProgram ls := by
  obtain ⟨⟨rest, hsentence⟩, hfits⟩ := h
  rw [List.map_append, List.append_assoc] at hsentence
  exact ⟨⟨_, hsentence⟩, (namesFit_append.1 hfits).1⟩

/-- A lexeme with which no program goes on cannot follow, or is a name that is too long. -/
private theorem not_beginsProgram_concat_iff {ls : List Lexeme} {l : Lexeme} (h : NamesFit ls) :
    ¬ BeginsProgram (ls ++ [l]) ↔ ¬ Grammar.IsViable ((ls ++ [l]).map Lexeme.kind) ∨
      l.kind = .identifier ∧ maxNameLength < l.text.length := by
  rw [BeginsProgram, namesFit_concat_iff h, not_and_or, Classical.not_imp, Nat.not_le]

namespace Reader

variable {r middle middle' : Reader} {before before' ls ls' more : List Lexeme}

/-- What was read first is read first, however far the reading goes. -/
private theorem Reads.of_append (hls : r.Reads ls middle) (h : r.Reads (ls ++ more) middle') :
    middle.Reads more middle' := by
  induction ls generalizing r with
  | nil => exact Reads.of_next_eq hls.symm h
  | cons l ls ih =>
    obtain ⟨behind, hnext, -, hrest⟩ := hls
    obtain ⟨behind', hnext', -, hrest'⟩ := h
    -- a reader reads one lexeme next, so both readings agree on it
    cases hnext.symm.trans hnext'
    exact ih hrest hrest'

/-- Of what is read from one reader on, one part is the beginning of the other. -/
private theorem Reads.comparable (h : r.Reads ls middle) (h' : r.Reads ls' middle') :
    ls <+: ls' ∨ ls' <+: ls := by
  induction ls generalizing r ls' with
  | nil => exact .inl List.nil_prefix
  | cons l ls ih =>
    cases ls' with
    | nil => exact .inr List.nil_prefix
    | cons l' ls' =>
      obtain ⟨behind, hnext, -, hrest⟩ := h
      obtain ⟨behind', hnext', -, hrest'⟩ := h'
      cases hnext.symm.trans hnext'
      simpa only [List.prefix_cons_inj] using ih hrest hrest'

/-- Behind `before` the reading of a program comes to a stop, at `middle`. -/
structure Stops (r : Reader) (before : List Lexeme) (middle : Reader) : Prop where
  reads : r.Reads before middle
  begins : BeginsProgram before
  ends : ∀ l behind, middle.next = .ok l behind → l.kind ≠ .endOfFile →
    ¬ BeginsProgram (before ++ [l])

namespace Stops

/-- The reading does not go on behind a stop. -/
private theorem eq_of_shorter (h : r.Stops before middle) (h' : r.Stops before' middle')
    (hshorter : before <+: before') : before = before' ∧ middle.next = middle'.next := by
  obtain ⟨more, rfl⟩ := hshorter
  have hmore := Reads.of_append h.reads h'.reads
  cases more with
  | nil => exact ⟨(List.append_nil _).symm, hmore⟩
  | cons l more =>
    obtain ⟨behind, hnext, hl, -⟩ := hmore
    -- the longer one would go on with a lexeme that no program has here
    have hbegins : BeginsProgram ((before ++ [l]) ++ more) := by
      rw [List.append_assoc]
      exact h'.begins
    exact absurd hbegins.of_append (h.ends l behind hnext hl)

/-- There is one stop only. -/
theorem unique (h : r.Stops before middle) (h' : r.Stops before' middle') :
    before = before' ∧ middle.next = middle'.next := by
  rcases Reads.comparable h.reads h'.reads with hshorter | hshorter
  · exact h.eq_of_shorter h' hshorter
  · obtain ⟨hbefore, hnext⟩ := h'.eq_of_shorter h hshorter
    exact ⟨hbefore.symm, hnext.symm⟩

end Stops

end Reader

namespace Parse

variable {r : Reader}

/-- A parse gets to the stop, and what lies there tells its outcome. -/
private theorem program_stops (r : Reader) :
    ∃ before middle, r.Stops before middle ∧
      match program (.ofReader r) with
      | .ok _ c => ∃ l, middle.next = .ok l c.reader ∧ BeginsProgram (before ++ [l])
      | .error (.unexpected _ found) c =>
        middle.next = .ok found c.reader ∧ ¬ BeginsProgram (before ++ [found])
      | .error (.lexical e) c => middle.next = .error e c.reader := by
  have hreaches := Parse.program_reaches r
  revert hreaches
  cases program (.ofReader r) with
  | ok p c =>
    rintro ⟨before, l, middle, hreads, hnext, hk, hbegins, -⟩
    refine ⟨before, middle, ⟨hreads, hbegins.of_append, ?_⟩, l, hnext, hbegins⟩
    intro l' behind hnext' hl'
    cases hnext.symm.trans hnext'
    -- what was read next is the end, and the reading need not go on behind it
    exact absurd hk hl'
  | error e c =>
    rintro (_ | hrejects)
    cases hrejects with
    | @lexical before middle e c hreads hbegins hnext =>
      refine ⟨before, middle, ⟨hreads, hbegins, ?_⟩, hnext⟩
      intro l behind hnext'
      cases hnext.symm.trans hnext'
    | @unexpected before middle expected found c hreads hbegins hnext hbad =>
      refine ⟨before, middle, ⟨hreads, hbegins, ?_⟩, hnext, hbad⟩
      intro l behind hnext' _
      cases hnext.symm.trans hnext'
      exact hbad

private theorem program_eq_unexpected_iff {found : Lexeme} :
    (∃ expected c, program (.ofReader r) = .error (.unexpected expected found) c) ↔
      ∃ before middle behind, r.Stops before middle ∧ middle.next = .ok found behind ∧
        ¬ BeginsProgram (before ++ [found]) := by
  obtain ⟨before, middle, hstops, houtcome⟩ := program_stops r
  constructor
  · rintro ⟨expected, c, hprogram⟩
    rw [hprogram] at houtcome
    exact ⟨before, middle, c.reader, hstops, houtcome⟩
  · rintro ⟨before', middle', behind, hstops', hfound, hbad⟩
    -- the parse gets to this stop too, as there is no other one
    obtain ⟨rfl, hnext⟩ := hstops.unique hstops'
    rw [hnext, hfound] at houtcome
    split at houtcome
    · obtain ⟨l, hl, hbegins⟩ := houtcome
      cases hl
      exact absurd hbegins hbad
    · next expected l c hprogram =>
      cases houtcome.1
      exact ⟨expected, c, hprogram⟩
    · cases houtcome

private theorem program_eq_lexical_iff {e : LexicalError} :
    (∃ c, program (.ofReader r) = .error (.lexical e) c) ↔
      ∃ before middle final, r.Stops before middle ∧ middle.next = .error e final := by
  obtain ⟨before, middle, hstops, houtcome⟩ := program_stops r
  constructor
  · rintro ⟨c, hprogram⟩
    rw [hprogram] at houtcome
    exact ⟨before, middle, c.reader, hstops, houtcome⟩
  · rintro ⟨before', middle', final, hstops', herror⟩
    -- the parse stops here too, and finds the same error
    obtain ⟨rfl, hnext⟩ := hstops.unique hstops'
    rw [hnext, herror] at houtcome
    split at houtcome
    · obtain ⟨l, hl, -⟩ := houtcome
      cases hl
    · cases houtcome.1
    · next e' c hprogram =>
      cases houtcome
      exact ⟨c, hprogram⟩

end Parse

/-- A source is refused at the earliest lexeme. It is refused for a lexeme exactly if a program
begins with those before it, but none with this one behind them; and for characters that form no
lexeme, which no reading of the source gets past, exactly if a program begins with the lexemes
before them. -/
theorem program_refused_iff (source : String) :
    (∀ found,
      (∃ expected c, Parse.program (.ofString source) = .error (.unexpected expected found) c) ↔
        ∃ before middle behind, (Reader.ofString source).Reads before middle ∧
          middle.next = .ok found behind ∧
          Grammar.IsViable (before.map Lexeme.kind) ∧ NamesFit before ∧
          (¬ Grammar.IsViable ((before ++ [found]).map Lexeme.kind) ∨
            found.kind = .identifier ∧ maxNameLength < found.text.length)) ∧
    ∀ e,
      (∃ c, Parse.program (.ofString source) = .error (.lexical e) c) ↔
        ∃ before middle final, (Reader.ofString source).Reads before middle ∧
          middle.next = .error e final ∧ (Reader.ofString source).tokenize = .error e final ∧
          Grammar.IsViable (before.map Lexeme.kind) ∧ NamesFit before := by
  refine ⟨fun found => ⟨?_, ?_⟩, fun e => ⟨?_, ?_⟩⟩
  · intro h
    obtain ⟨before, middle, behind, hstops, hfound, hbad⟩ := Parse.program_eq_unexpected_iff.1 h
    obtain ⟨hviable, hfits⟩ := hstops.begins
    exact ⟨before, middle, behind, hstops.reads, hfound, hviable, hfits,
      (not_beginsProgram_concat_iff hfits).1 hbad⟩
  · rintro ⟨before, middle, behind, hreads, hfound, hviable, hfits, hbad⟩
    rw [← not_beginsProgram_concat_iff hfits] at hbad
    refine Parse.program_eq_unexpected_iff.2 ⟨before, middle, behind, ?_, hfound, hbad⟩
    refine ⟨hreads, ⟨hviable, hfits⟩, ?_⟩
    intro l behind' hl _
    cases hfound.symm.trans hl
    exact hbad
  · intro h
    obtain ⟨before, middle, final, hstops, herror⟩ := Parse.program_eq_lexical_iff.1 h
    -- what the parser cannot read stops the reading of all lexemes as well
    have htokens : (Reader.ofString source).tokenize = .error e final :=
      Reader.tokenize_eq_error_iff.2 ⟨before, middle, hstops.reads, herror⟩
    obtain ⟨hviable, hfits⟩ := hstops.begins
    exact ⟨before, middle, final, hstops.reads, herror, htokens, hviable, hfits⟩
  · rintro ⟨before, middle, final, hreads, herror, -, hviable, hfits⟩
    refine Parse.program_eq_lexical_iff.2 ⟨before, middle, final, ?_, herror⟩
    refine ⟨hreads, ⟨hviable, hfits⟩, ?_⟩
    intro l behind hl
    cases herror.symm.trans hl

end DeskCalc
