import DeskCalc.Proofs.Resumption

/-!
# Characters handed back are as good as characters of the source

A reader may be used in any order: lexemes are read one by one or all to the end, whatever comes of
it, and any lexemes are handed back, also some that were never read. What it reads next then depends
on one text only, the characters handed back with those left of the source behind them. A new reader
of that text reads the same, but for the places: each character keeps the place that it was handed
back with, and a lexeme stands at the place of its first character.

The reader's own place is that of the source. It is told by how much of the source has been taken,
and nothing that is handed back moves it.

Main statements: `Reader.flat_next_congr` — what is read depends on the text only — and
`Reader.used_reads_flat`.
-/

namespace DeskCalc

/-! ## Answers without places -/

/-- The lexeme without its place. -/
def Lexeme.unplaced (l : Lexeme) : Lexeme := { l with location := .start }

/-- The error without its place. -/
def LexicalError.unplaced : LexicalError → LexicalError
  | invalidCharacter c _ => invalidCharacter c .start
  | malformedFloat found _ => malformedFloat found .start
  | tooLong _ => tooLong .start
  | intOutOfRange digits _ => intOutOfRange digits .start

namespace Reader

/-- What was read, without places, and the text that is left. -/
def Outcome.flat : Outcome Lexeme → EStateM.Result LexicalError (List Char) Lexeme
  | .ok l behind => .ok l.unplaced behind.chars
  | .error e behind => .error e.unplaced behind.chars

/-- The end of the source was read. -/
def Outcome.isEnd : Outcome Lexeme → Bool
  | .ok l _ => l.isEnd
  | .error .. => false

variable {r r' : Reader}

private theorem peek?_congr (h : r.chars = r'.chars) : r.peek? = r'.peek? := by
  rw [peek?_eq_head?, peek?_eq_head?, h]

/-- Where one reader reads a character the other one reads it as well. -/
private theorem exists_pop?_of_chars {c : Char} {cs : List Char} (h : r.chars = c :: cs) :
    ∃ behind, r.pop? = some (c, behind) ∧ behind.chars = cs := by
  cases hp : r.pop? with
  | none => cases (pop?_eq_none_iff.1 hp).symm.trans h
  | some p =>
    obtain ⟨d, behind⟩ := p
    cases (chars_of_pop? hp).symm.trans h
    exact ⟨behind, rfl, rfl⟩

/-- Runs of the same text are the same, and the same text is left behind them. -/
private theorem span_congr (h : r.chars = r'.chars) (accept : Char → Bool) (room : Nat) :
    (r.span accept room).1 = (r'.span accept room).1 ∧
      (r.span accept room).2.chars = (r'.span accept room).2.chars := by
  have hrun : (r.span accept room).1 = (r'.span accept room).1 := by
    rw [fst_span, fst_span, h]
  refine ⟨hrun, ?_⟩
  -- what is left is the text without the run
  have hall : (r.span accept room).1 ++ (r.span accept room).2.chars =
      (r'.span accept room).1 ++ (r'.span accept room).2.chars := by
    rw [chars_span, chars_span, h]
  rw [hrun] at hall
  exact List.append_cancel_left hall

private theorem flat_word_congr (h : r.chars = r'.chars) (first : Char) (start start' : Location) :
    Outcome.flat (word first start r) = Outcome.flat (word first start' r') := by
  obtain ⟨hrun, hbehind⟩ := span_congr h Char.isLower (Lexeme.maxLength - 1)
  have hpeek := peek?_congr hbehind
  unfold word
  dsimp only
  -- the outcome is chosen by the run and by what stops it, which are the same
  rw [hrun, hpeek]
  split
  · simp only [Outcome.flat, LexicalError.unplaced, hbehind]
  · simp only [Outcome.flat, Lexeme.unplaced, hbehind]

private theorem flat_fraction_congr (h : r.chars = r'.chars) (whole : List Char)
    (start start' : Location) :
    Outcome.flat (fraction whole start r) = Outcome.flat (fraction whole start' r') := by
  obtain ⟨hrun, hbehind⟩ :=
    span_congr h Char.isDigit (Lexeme.maxLength - (whole.length + 1))
  have hpeek := peek?_congr hbehind
  unfold fraction
  dsimp only
  -- whether a digit follows the point and where the run ends is the same
  rw [peek?_congr h, hrun, hpeek]
  split
  · split
    · simp only [Outcome.flat, LexicalError.unplaced, hbehind]
    · simp only [Outcome.flat, Lexeme.unplaced, hbehind]
  · simp only [Outcome.flat, LexicalError.unplaced, h]

private theorem flat_number_congr (h : r.chars = r'.chars) (first : Char)
    (start start' : Location) :
    Outcome.flat (number first start r) = Outcome.flat (number first start' r') := by
  obtain ⟨hrun, hbehind⟩ := span_congr h Char.isDigit (Lexeme.maxLength - 1)
  have hpeek := peek?_congr hbehind
  unfold number
  dsimp only
  rw [hrun, hpeek]
  -- behind the digits only the text that is left counts
  generalize (r.span Char.isDigit (Lexeme.maxLength - 1)).2 = s at *
  generalize (r'.span Char.isDigit (Lexeme.maxLength - 1)).2 = s' at *
  split
  · simp only [Outcome.flat, LexicalError.unplaced, hbehind]
  · generalize Lexeme.intValue? _ = value
    cases hchars : s'.chars with
    | nil =>
      rw [pop?_eq_none_iff.2 (hbehind.trans hchars), pop?_eq_none_iff.2 hchars]
      cases value with
      | none => simp only [Outcome.flat, LexicalError.unplaced, hbehind]
      | some value => simp only [Outcome.flat, Lexeme.unplaced, hbehind]
    | cons c cs =>
      obtain ⟨t, ht, htext⟩ := exists_pop?_of_chars (hbehind.trans hchars)
      obtain ⟨t', ht', htext'⟩ := exists_pop?_of_chars hchars
      rw [ht, ht']
      by_cases hpoint : c = '.'
      · subst hpoint
        exact flat_fraction_congr (htext.trans htext'.symm) _ _ _
      · -- without a point the digits alone are the number
        simp only [Option.some.injEq, Prod.mk.injEq, hpoint, false_and, imp_self, implies_true]
        cases value with
        | none => simp only [Outcome.flat, LexicalError.unplaced, hbehind]
        | some value => simp only [Outcome.flat, Lexeme.unplaced, hbehind]

/-- What is read, and the text that is left behind it, depend on the text only, whether it was
handed back or comes from the source. -/
theorem flat_next_congr (h : r.chars = r'.chars) :
    Outcome.flat r.next = Outcome.flat r'.next := by
  have hskip : r.skipBlanks.chars = r'.skipBlanks.chars := by
    rw [chars_skipBlanks, chars_skipBlanks, h]
  unfold next
  dsimp only
  -- behind the white space both readers are at the same character, or both at the end
  generalize r.skipBlanks = s at *
  generalize r'.skipBlanks = s' at *
  cases hchars : s'.chars with
  | nil =>
    rw [pop?_eq_none_iff.2 (hskip.trans hchars), pop?_eq_none_iff.2 hchars]
    simp only [Outcome.flat, Lexeme.unplaced, Lexeme.endOfFile, hskip]
  | cons c cs =>
    obtain ⟨t, ht, htext⟩ := exists_pop?_of_chars (hskip.trans hchars)
    obtain ⟨t', ht', htext'⟩ := exists_pop?_of_chars hchars
    have hbehind : t.chars = t'.chars := htext.trans htext'.symm
    rw [ht, ht']
    dsimp only
    split
    · exact flat_number_congr hbehind c _ _
    · split
      · exact flat_word_congr hbehind c _ _
      · split
        · simp only [Outcome.flat, Lexeme.unplaced, hbehind]
        · simp only [Outcome.flat, LexicalError.unplaced, hbehind]

end Reader

/-! ## The place of a lexeme -/

/-- The characters `cs` laid out from `l`, each with its line and column. -/
def Location.across (l : Location) : List Char → List (Char × Location)
  | [] => []
  | c :: cs => (c, l) :: (l.after c).across cs

private theorem Location.map_fst_across (l : Location) (cs : List Char) :
    (l.across cs).map Prod.fst = cs := by
  induction cs generalizing l with
  | nil => rfl
  | cons c cs ih => rw [across, List.map_cons, ih]

namespace Reader

/-- All characters left to read, each with the place that it carries. -/
def placed (r : Reader) : List (Char × Location) := r.returned ++ r.position.across r.rest

variable {r behind : Reader} {l : Lexeme}

private theorem map_fst_placed (r : Reader) : r.placed.map Prod.fst = r.chars := by
  rw [placed, chars, List.map_append, Location.map_fst_across]

/-- The character that is read next carries the place of the reader. -/
private theorem placed_of_pop? {c : Char} (h : r.pop? = some (c, behind)) :
    r.placed = (c, r.here) :: behind.placed := by
  obtain ⟨returned, rest, position⟩ := r
  cases returned with
  | cons p returned =>
    cases h
    rfl
  | nil =>
    cases rest with
    | nil => cases h
    | cons d rest =>
      cases h
      rfl

private theorem exists_blanks_placed (r : Reader) :
    ∃ blanks, r.placed = blanks ++ r.skipBlanks.placed ∧ ∀ p ∈ blanks, isBlank p.1 := by
  fun_induction skipBlanks r with
  | case1 r c behind hp _ hc ih =>
    -- one more blank carries the place of the reader in front of it
    obtain ⟨blanks, hplaced, hblanks⟩ := ih
    refine ⟨(c, r.here) :: blanks, ?_, List.forall_mem_cons.2 ⟨hc, hblanks⟩⟩
    rw [placed_of_pop? hp, hplaced, List.cons_append]
  | case2 => exact ⟨[], rfl, List.forall_mem_nil _⟩
  | case3 => exact ⟨[], rfl, List.forall_mem_nil _⟩

private theorem location_of_word {first : Char} {start : Location}
    (h : word first start r = .ok l behind) : l.location = start := by
  unfold word at h
  dsimp only at h
  split at h
  · cases h
  · cases h
    rfl

private theorem location_of_fraction {whole : List Char} {start : Location}
    (h : fraction whole start r = .ok l behind) : l.location = start := by
  unfold fraction at h
  dsimp only at h
  split at h
  · split at h
    · cases h
    · cases h
      rfl
  · cases h

private theorem location_of_number {first : Char} {start : Location}
    (h : number first start r = .ok l behind) : l.location = start := by
  unfold number at h
  dsimp only at h
  split at h
  · cases h
  · split at h
    · exact location_of_fraction h
    · split at h
      · cases h
        rfl
      · cases h

/-- A lexeme is placed where its reading starts. -/
private theorem location_of_next (h : r.next = .ok l behind) : l.location = r.skipBlanks.here := by
  unfold next at h
  dsimp only at h
  -- the place is taken in front of the first character, and handed on unchanged
  split at h
  · cases h
    rfl
  · split at h
    · exact location_of_number h
    · split at h
      · exact location_of_word h
      · split at h
        · cases h
          rfl
        · cases h

/-- Reading takes the characters in front, and leaves the places of those behind. -/
private theorem Leads.exists_placed (h : r.Leads behind) :
    ∃ taken, r.placed = taken ++ behind.placed := by
  induction h with
  | refl => exact ⟨[], rfl⟩
  | @tail middle behind _ hpop ih =>
    -- the character read last comes behind those taken before
    obtain ⟨taken, htaken⟩ := ih
    obtain ⟨c, hpop⟩ := hpop
    refine ⟨taken ++ [(c, middle.here)], ?_⟩
    rw [htaken, placed_of_pop? hpop, List.append_assoc, List.singleton_append]

/-- Behind white space stand the characters of a lexeme, the first with the place of the lexeme. -/
private theorem placed_of_next (h : r.next = .ok l behind) (hl : l.kind ≠ .endOfFile) :
    ∃ blanks own, r.placed = blanks ++ own ++ behind.placed ∧ (∀ p ∈ blanks, isBlank p.1) ∧
      own.map Prod.fst = l.text.toList ∧ own.head?.map Prod.snd = some l.location := by
  obtain ⟨c, cs, htext, -⟩ := (endsAt_of_next h).cons_of_ne_endOfFile hl
  obtain ⟨blanks, hplaced, hblanks⟩ := exists_blanks_placed r
  have hleads : r.Leads behind := by
    have hread := Leads.next r
    rwa [h] at hread
  obtain ⟨taken, htaken⟩ := hleads.exists_placed
  have hchars : r.skipBlanks.placed.map Prod.fst = l.text.toList ++ behind.placed.map Prod.fst := by
    rw [map_fst_placed, map_fst_placed, chars_skipBlanks, chars_of_next h]
  -- what was taken are the white space and more: the lexeme is not empty
  have hboth : blanks ++ r.skipBlanks.placed = taken ++ behind.placed := hplaced.symm.trans htaken
  obtain ⟨own, rfl, hown⟩ | ⟨more, rfl, hmore⟩ := List.append_eq_append_iff.1 hboth
  · rw [hown, List.map_append] at hchars
    have hfst : own.map Prod.fst = l.text.toList := List.append_cancel_right hchars
    refine ⟨blanks, own, htaken, hblanks, hfst, ?_⟩
    have hskip : r.skipBlanks.chars = c :: (cs ++ behind.chars) := by
      rw [chars_skipBlanks, chars_of_next h, htext, List.cons_append]
    obtain ⟨s, hs, -⟩ := exists_pop?_of_chars hskip
    cases own with
    | nil => cases hfst.trans htext
    | cons p own =>
      rw [placed_of_pop? hs, List.cons_append, List.cons.injEq] at hown
      rw [location_of_next h, List.head?_cons, ← hown.1, Option.map_some]
  · -- otherwise white space would reach into what lies behind the lexeme
    have hlength := congrArg List.length hchars
    rw [hmore, htext] at hlength
    simp at hlength
    omega

/-- The end stands at the reader's own place. -/
private theorem location_of_end (h : r.next = .ok l behind) (hl : l.kind = .endOfFile) :
    l.location = behind.position := by
  obtain ⟨hend, rfl⟩ := (endsAt_of_next h).eq_endOfFile hl
  obtain ⟨returned, rest, position⟩ := behind
  -- nothing is handed back at the end, so the place is that of the source
  cases returned with
  | cons p returned => cases hend
  | nil => rfl

/-! ## Any use of a reader -/

/-- What can be done with a reader. A lexeme that is handed back need not have been read. -/
inductive Use where
  | next
  | tokenize
  | unread (l : Lexeme)

/-- The reader behind one use, whatever came of it. -/
def use (r : Reader) : Use → Reader
  | .next => Outcome.behind r.next
  | .tokenize => Outcome.behind r.tokenize
  | .unread l => r.unread l.text l.location

/-- The reader behind uses in a row. -/
def useAll (r : Reader) (uses : List Use) : Reader := uses.foldl use r

/-- The reader has taken some characters of the source, and stands where these lead to. -/
def IsWithin (source : List Char) (r : Reader) : Prop :=
  ∃ taken, source = taken ++ r.rest ∧ r.position = .reached taken

variable {source : List Char}

/-- Reading a character takes it from what was handed back or from the source. -/
private theorem IsWithin.pop {c : Char} (h : r.IsWithin source) (hp : r.pop? = some (c, behind)) :
    behind.IsWithin source := by
  obtain ⟨taken, hsource, hposition⟩ := h
  obtain ⟨returned, rest, position⟩ := r
  cases returned with
  | cons p returned =>
    cases hp
    exact ⟨taken, hsource, hposition⟩
  | nil =>
    cases rest with
    | nil => cases hp
    | cons d rest =>
      cases hp
      refine ⟨taken ++ [c], by simpa using hsource, ?_⟩
      rw [Location.reached_concat, ← hposition]

private theorem IsWithin.leads (h : r.IsWithin source) (hleads : r.Leads behind) :
    behind.IsWithin source := by
  induction hleads with
  | refl => exact h
  | tail _ hpop ih =>
    obtain ⟨c, hpop⟩ := hpop
    exact ih.pop hpop

/-- Reading to the end goes on over one lexeme after the other. -/
private theorem leads_tokenize (r : Reader) : r.Leads (Outcome.behind r.tokenize) := by
  fun_induction tokenize r with
  | case1 r e behind hnext =>
    have hread := Leads.next r
    rwa [hnext] at hread
  | case2 r l behind hnext hl =>
    have hread := Leads.next r
    rwa [hnext] at hread
  | case3 r l behind hnext hl _ ls after hrest ih =>
    have hread := Leads.next r
    rw [hnext] at hread
    rw [hrest] at ih
    exact hread.trans ih
  | case4 r l behind hnext hl _ e after hrest ih =>
    have hread := Leads.next r
    rw [hnext] at hread
    rw [hrest] at ih
    exact hread.trans ih

/-- No use moves the reader but over characters of the source. -/
private theorem IsWithin.use (h : r.IsWithin source) (u : Use) : (r.use u).IsWithin source := by
  cases u with
  | next => exact h.leads (.next r)
  | tokenize => exact h.leads r.leads_tokenize
  | unread l => exact h

private theorem IsWithin.useAll (h : r.IsWithin source) (uses : List Use) :
    (r.useAll uses).IsWithin source := by
  induction uses generalizing r with
  | nil => exact h
  | cons u uses ih => exact ih (h.use u)

/-! ## Reading on to the end -/

/-- The reader behind what is read next, be it a lexeme or an error. -/
def proceed (r : Reader) : Reader := Outcome.behind r.next

/-- All but the end takes a character at least. -/
private theorem length_chars_proceed_lt (h : Outcome.isEnd r.next = false) :
    r.proceed.chars.length < r.chars.length := by
  rw [← size_eq_length_chars, ← size_eq_length_chars, proceed]
  cases hnext : r.next with
  | error e behind => exact size_lt_of_next_error hnext
  | ok l behind =>
    rw [hnext] at h
    exact size_lt_of_next hnext (by simpa [Outcome.isEnd, Lexeme.isEnd] using h)

/-- The end is read over and over. -/
private theorem isEnd_proceed (h : Outcome.isEnd r.next = true) :
    Outcome.isEnd r.proceed.next = true := by
  rw [proceed]
  cases hnext : r.next with
  | error e behind =>
    rw [hnext] at h
    cases h
  | ok l behind =>
    rw [hnext] at h
    have hl : l.kind = .endOfFile := by simpa [Outcome.isEnd, Lexeme.isEnd] using h
    rw [Outcome.behind, next_of_endOfFile hnext hl]
    exact h

/-- Reading on, through errors too, comes to the end and stays there. -/
private theorem exists_isEnd (r : Reader) :
    ∃ n ≤ r.chars.length, ∀ m, n ≤ m → Outcome.isEnd (proceed^[m] r).next = true := by
  by_cases h : Outcome.isEnd r.next = true
  · refine ⟨0, Nat.zero_le _, ?_⟩
    intro m _
    induction m with
    | zero => exact h
    | succ m ih =>
      rw [Function.iterate_succ_apply']
      exact isEnd_proceed (ih (Nat.zero_le m))
  · have hlt := length_chars_proceed_lt (Bool.eq_false_iff.2 h)
    obtain ⟨n, hn, hend⟩ := exists_isEnd r.proceed
    refine ⟨n + 1, by omega, ?_⟩
    intro m hm
    obtain ⟨m, rfl⟩ : ∃ k, m = k + 1 := ⟨m - 1, by omega⟩
    rw [Function.iterate_succ_apply]
    exact hend m (by omega)
termination_by r.chars.length

/-- Use a reader of a source in any way. What it reads next, and the text that is left behind it,
are those that a new reader of the text left reads and leaves, but for places: the characters handed
back, the next one first, and then those of the source that have not been taken. The reader's own
place is the line and column that the characters taken lead to. A lexeme has the place that its first
character carries, and the end has the reader's own. Anything but the end shortens the text, so that
reading on through errors comes to the end. -/
theorem used_reads_flat (source : String) (uses : List Use) :
    let r := (ofString source).useAll uses
    (Outcome.flat r.next = Outcome.flat (ofString (String.ofList r.chars)).next ∧
      r.chars = r.returned.map Prod.fst ++ r.rest) ∧
    (∃ taken, source.toList = taken ++ r.rest ∧ r.position = .reached taken) ∧
    (∀ l behind, r.next = .ok l behind →
      (l.kind = .endOfFile → l.location = behind.position) ∧
      (l.kind ≠ .endOfFile → ∃ blanks own, r.placed = blanks ++ own ++ behind.placed ∧
        (∀ p ∈ blanks, isBlank p.1) ∧ own.map Prod.fst = l.text.toList ∧
        own.head?.map Prod.snd = some l.location)) ∧
    (Outcome.isEnd r.next = false → r.proceed.chars.length < r.chars.length) ∧
    ∃ n ≤ r.chars.length, ∀ m, n ≤ m → Outcome.isEnd (proceed^[m] r).next = true := by
  intro r
  have hstart : (ofString source).IsWithin source.toList := ⟨[], rfl, rfl⟩
  have hfresh : r.chars = (ofString (String.ofList r.chars)).chars := by
    rw [chars_ofString, String.toList_ofList]
  refine ⟨⟨flat_next_congr hfresh, rfl⟩, hstart.useAll uses, ?_, length_chars_proceed_lt,
    exists_isEnd r⟩
  intro l behind hnext
  exact ⟨location_of_end hnext, placed_of_next hnext⟩

/-- A number may begin with characters handed back and end with characters of the source. -/
example : Outcome.flat ((ofString "1+").useAll [.unread ⟨.endOfFile, " 2", .start⟩]).next =
    .ok ⟨.number (.int 21), "21", .start⟩ ['+'] := by
  decide +kernel

end Reader

end DeskCalc
