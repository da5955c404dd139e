import DeskCalc.Proofs.Spelling

/-!
# Reading a lexeme from a source

A reader in the middle of a source, to which nothing was handed back, has some characters behind it
and the rest in front of it. From there it reads the lexeme that is written first, if nothing
continues it, at the place of its first character; and if the rest is stuck it tells why.

Main statements: `Reader.next_of_spells` and `Reader.next_of_stuck`.
-/

namespace DeskCalc.Reader

open Lexeme (Kind)

/-- A reader in a source, behind the characters `read` and in front of the characters `rest`. -/
def amid (read rest : List Char) : Reader := ⟨[], rest, .reached read⟩

variable (read : List Char) {rest more : List Char} {accept : Char → Bool}

@[simp] theorem chars_amid (rest : List Char) : (amid read rest).chars = rest := rfl

@[simp] theorem here_amid (rest : List Char) : (amid read rest).here = .reached read := rfl

@[simp] theorem pop?_amid_nil : (amid read []).pop? = none := rfl

@[simp] theorem pop?_amid_cons (rest : List Char) (c : Char) :
    (amid read (c :: rest)).pop? = some (c, amid (read ++ [c]) rest) := by
  simp [amid, pop?, Location.reached_concat]

@[simp] theorem peek?_amid (rest : List Char) : (amid read rest).peek? = rest.head? := by
  rw [peek?_eq_head?, chars_amid]

/-! ## Runs and white space -/

/-- A run that ends in time is read to its end. -/
private theorem span_amid {run : List Char} (hrun : ∀ c ∈ run, accept c)
    (hstop : more.head?.any accept = false) {room : Nat} (hroom : run.length ≤ room) :
    (amid read (run ++ more)).span accept room = (run, amid (read ++ run) more) := by
  induction run generalizing read room with
  | nil =>
    -- an empty run stops at once
    have hpeek : (amid read more).peek?.any accept = false := by rw [peek?_amid, hstop]
    rw [List.nil_append, List.append_nil, span_of_stop hpeek]
  | cons c run ih =>
    obtain ⟨room, rfl⟩ : ∃ n, room = n + 1 := ⟨room - 1, by simp at hroom; omega⟩
    have hc : accept c := hrun c List.mem_cons_self
    have hrest := ih (read ++ [c]) (fun d hd => hrun d (List.mem_cons_of_mem _ hd))
      (by simpa using hroom)
    simp [span, hc, hrest]

/-- Behind a run that is too long one of its characters is left. -/
private theorem peek?_span_amid (more : List Char) {run : List Char} (hrun : ∀ c ∈ run, accept c)
    {room : Nat} (hroom : room < run.length) :
    ((amid read (run ++ more)).span accept room).2.peek?.any accept = true := by
  induction run generalizing read room with
  | nil => cases hroom
  | cons c run ih =>
    have hc : accept c := hrun c List.mem_cons_self
    cases room with
    -- without room the next character of the run is left
    | zero => simp [span, hc]
    | succ room =>
      have hrest := @ih (read ++ [c]) (fun d hd => hrun d (List.mem_cons_of_mem _ hd)) room
        (by simpa using hroom)
      simpa [span, hc] using hrest

/-- Behind the first character of a run the others are read. -/
private theorem span_tail {c : Char} {cs : List Char} (h : IsRun accept (c :: cs))
    (hstop : more.head?.any accept = false) :
    (amid (read ++ [c]) (cs ++ more)).span accept (Lexeme.maxLength - 1) =
      (cs, amid (read ++ c :: cs) more) := by
  have hroom : cs.length ≤ Lexeme.maxLength - 1 := Nat.le_sub_one_of_lt h.length_le
  rw [span_amid _ (fun d hd => h.accepted d (List.mem_cons_of_mem c hd)) hstop hroom,
    List.append_assoc, List.singleton_append]

/-- Behind the first character of a run that is too long the others are not all read. -/
private theorem peek?_span_tail (more : List Char) {c : Char} {cs : List Char}
    (hrun : ∀ d ∈ c :: cs, accept d) (hlong : 1024 < (c :: cs).length) :
    ((amid (read ++ [c]) (cs ++ more)).span accept (Lexeme.maxLength - 1)).2.peek?.any accept :=
  peek?_span_amid _ more (fun d hd => hrun d (List.mem_cons_of_mem c hd))
    (Nat.lt_of_succ_lt_succ hlong)

theorem skipBlanks_amid {blanks : List Char} (hblanks : ∀ c ∈ blanks, isBlank c)
    (hstop : rest.head?.any isBlank = false) :
    (amid read (blanks ++ rest)).skipBlanks = amid (read ++ blanks) rest := by
  induction blanks generalizing read with
  | nil =>
    rw [List.nil_append, List.append_nil]
    cases rest with
    | nil => exact skipBlanks_of_pop?_eq_none rfl
    | cons c rest => exact skipBlanks_of_pop? (pop?_amid_cons read rest c) (by simpa using hstop)
  | cons c blanks ih =>
    have hc : isBlank c := hblanks c List.mem_cons_self
    rw [List.cons_append, skipBlanks]
    split
    · next d behind hpop =>
      rw [pop?_amid_cons] at hpop
      cases hpop
      rw [if_pos hc, ih _ fun d hd => hblanks d (List.mem_cons_of_mem _ hd), List.append_assoc,
        List.singleton_append]
    · next hpop => simp at hpop

/-! ## Behind a point -/

private theorem fraction_amid {whole digits : List Char} {start : Location} (hne : digits ≠ [])
    (hdigits : ∀ c ∈ digits, c.isDigit) (hstop : more.head?.any Char.isDigit = false)
    (hroom : digits.length ≤ Lexeme.maxLength - (whole.length + 1)) :
    fraction whole start (amid read (digits ++ more)) =
      .ok ⟨.number (.float (Lexeme.floatValue whole digits)),
        String.ofList (whole ++ '.' :: digits), start⟩ (amid (read ++ digits) more) := by
  obtain ⟨c, cs, rfl⟩ := List.exists_cons_of_ne_nil hne
  -- a digit follows the point, so the fraction is read
  have hfirst : (amid read (c :: cs ++ more)).peek?.any Char.isDigit := hdigits c List.mem_cons_self
  rw [fraction, if_pos hfirst]
  simp only [span_amid read hdigits hstop hroom, peek?_amid, hstop, Bool.false_eq_true, if_false]

private theorem fraction_of_long {whole digits : List Char} {start : Location}
    (hdigits : ∀ c ∈ digits, c.isDigit)
    (hroom : Lexeme.maxLength - (whole.length + 1) < digits.length) :
    ∃ final, fraction whole start (amid read (digits ++ more)) = .error (.tooLong start) final := by
  obtain ⟨c, cs, rfl⟩ := List.exists_cons_of_length_pos (Nat.zero_lt_of_lt hroom)
  have hfirst : (amid read (c :: cs ++ more)).peek?.any Char.isDigit := hdigits c List.mem_cons_self
  have hleft := peek?_span_amid read more hdigits hroom
  unfold fraction
  rw [if_pos hfirst]
  exact ⟨_, if_pos hleft⟩

private theorem fraction_of_missing {whole : List Char} {start : Location}
    (hmissing : more.head?.any Char.isDigit = false) :
    fraction whole start (amid read more) =
      .error (.malformedFloat more.head? (.reached read)) (amid read more) := by
  unfold fraction
  rw [peek?_amid, if_neg (by simp [hmissing])]
  rfl

/-! ## One lexeme -/

variable {blanks : List Char} (hblanks : ∀ c ∈ blanks, isBlank c)

include hblanks

/-- Behind white space only the end is left. -/
theorem next_of_blanks :
    (amid read blanks).next =
      .ok (.endOfFile (.reached (read ++ blanks))) (amid (read ++ blanks) []) := by
  have hskip : (amid read (blanks ++ [])).skipBlanks = amid (read ++ blanks) [] :=
    skipBlanks_amid read hblanks rfl
  rw [List.append_nil] at hskip
  simp [next, hskip]

/-- Behind white space the next character tells what is read. -/
private theorem next_amid {c : Char} (hc : isBlank c = false) :
    (amid read (blanks ++ c :: rest)).next =
      if c.isDigit then number c (.reached (read ++ blanks)) (amid (read ++ blanks ++ [c]) rest)
      else if c.isLower then word c (.reached (read ++ blanks)) (amid (read ++ blanks ++ [c]) rest)
      else
        match Kind.ofSymbol? c with
        | some kind => .ok ⟨kind, String.ofList [c], .reached (read ++ blanks)⟩
            (amid (read ++ blanks ++ [c]) rest)
        | none => .error (.invalidCharacter c (.reached (read ++ blanks)))
            (amid (read ++ blanks ++ [c]) rest) := by
  have hskip : (amid read (blanks ++ c :: rest)).skipBlanks = amid (read ++ blanks) (c :: rest) :=
    skipBlanks_amid read hblanks (by simpa using hc)
  unfold next
  cases hkind : Kind.ofSymbol? c with
  | none => simp only [hskip, pop?_amid_cons, here_amid, hkind]
  | some kind => simp only [hskip, pop?_amid_cons, here_amid, hkind]

private theorem next_of_symbol {c : Char} {k : Kind} (hc : Kind.ofSymbol? c = some k) :
    (amid read (blanks ++ ([c] ++ more))).next =
      .ok ⟨k, String.ofList [c], .reached (read ++ blanks)⟩
        (amid (read ++ blanks ++ [c]) more) := by
  obtain ⟨hdigit, hlower, hblank⟩ := classes_of_ofSymbol? hc
  rw [List.singleton_append, next_amid read hblanks hblank]
  simp [hdigit, hlower, hc]

private theorem next_of_word {text : List Char} (h : IsRun Char.isLower text)
    (hstop : more.head?.any Char.isLower = false) :
    (amid read (blanks ++ (text ++ more))).next =
      .ok ⟨.ofWord text, String.ofList text, .reached (read ++ blanks)⟩
        (amid (read ++ blanks ++ text) more) := by
  obtain ⟨c, cs, rfl⟩ := List.exists_cons_of_ne_nil h.ne_nil
  have hlower : c.isLower := h.accepted c List.mem_cons_self
  -- a letter is no digit, so a word is begun
  rw [List.cons_append, next_amid read hblanks (isBlank_eq_false (.inl hlower)),
    if_neg (by simp [isDigit_of_isLower hlower]), if_pos hlower, word]
  simp only [span_tail _ h hstop, peek?_amid, hstop, Bool.false_eq_true, if_false]

/-- Digits are read to their end. -/
private theorem next_of_digits {digits : List Char} (h : IsRun Char.isDigit digits)
    (hstop : more.head?.any Char.isDigit = false) (hpoint : more.head? ≠ some '.') :
    (amid read (blanks ++ (digits ++ more))).next =
      match Lexeme.intValue? digits with
      | some value =>
        .ok ⟨.number (.int value), String.ofList digits, .reached (read ++ blanks)⟩
          (amid (read ++ blanks ++ digits) more)
      | none => .error (.intOutOfRange (String.ofList digits) (.reached (read ++ blanks)))
          (amid (read ++ blanks ++ digits) more) := by
  obtain ⟨c, cs, rfl⟩ := List.exists_cons_of_ne_nil h.ne_nil
  have hdigit : c.isDigit := h.accepted c List.mem_cons_self
  rw [List.cons_append, next_amid read hblanks (isBlank_eq_false (.inr hdigit)), if_pos hdigit,
    number]
  simp only [span_tail _ h hstop, peek?_amid, hstop, Bool.false_eq_true, if_false]
  split
  · -- a point would be the next character
    next hpop =>
    cases more with
    | nil => simp at hpop
    | cons d more =>
      rw [pop?_amid_cons] at hpop
      cases hpop
      exact absurd rfl hpoint
  · rfl

/-- Behind digits and a point a fraction is read. -/
private theorem next_of_point {whole : List Char} (h : IsRun Char.isDigit whole) :
    (amid read (blanks ++ (whole ++ '.' :: more))).next =
      fraction whole (.reached (read ++ blanks))
        (amid (read ++ blanks ++ whole ++ ['.']) more) := by
  obtain ⟨c, cs, rfl⟩ := List.exists_cons_of_ne_nil h.ne_nil
  have hdigit : c.isDigit := h.accepted c List.mem_cons_self
  rw [List.cons_append, next_amid read hblanks (isBlank_eq_false (.inr hdigit)), if_pos hdigit,
    number]
  have hstop : ('.' :: more).head?.any Char.isDigit = false := rfl
  simp only [span_tail _ h hstop, peek?_amid, pop?_amid_cons, hstop, Bool.false_eq_true, if_false]

/-- Digits of which there are more than a lexeme may have are too long. -/
private theorem next_of_long_digits {run : List Char} (hrun : ∀ c ∈ run, c.isDigit)
    (hlong : 1024 < run.length) :
    ∃ final, (amid read (blanks ++ (run ++ more))).next =
      .error (.tooLong (.reached (read ++ blanks))) final := by
  obtain ⟨c, cs, rfl⟩ := List.exists_cons_of_length_pos (Nat.zero_lt_of_lt hlong)
  have hdigit : c.isDigit := hrun c List.mem_cons_self
  rw [List.cons_append, next_amid read hblanks (isBlank_eq_false (.inr hdigit)), if_pos hdigit,
    number]
  exact ⟨_, if_pos (peek?_span_tail _ more hrun hlong)⟩

private theorem next_of_long_word {run : List Char} (hrun : ∀ c ∈ run, c.isLower)
    (hlong : 1024 < run.length) :
    ∃ final, (amid read (blanks ++ (run ++ more))).next =
      .error (.tooLong (.reached (read ++ blanks))) final := by
  obtain ⟨c, cs, rfl⟩ := List.exists_cons_of_length_pos (Nat.zero_lt_of_lt hlong)
  have hlower : c.isLower := hrun c List.mem_cons_self
  rw [List.cons_append, next_amid read hblanks (isBlank_eq_false (.inl hlower)),
    if_neg (by simp [isDigit_of_isLower hlower]), if_pos hlower, word]
  exact ⟨_, if_pos (peek?_span_tail _ more hrun hlong)⟩

/-! ## Lexemes and errors -/

/-- A lexeme that nothing continues is read, with the place behind the white space. -/
theorem next_of_spells {text : List Char} {k : Kind} (h : Spells text k)
    (hend : k.isContinuedBy more.head? = false) :
    (amid read (blanks ++ (text ++ more))).next =
      .ok ⟨k, String.ofList text, .reached (read ++ blanks)⟩
        (amid (read ++ blanks ++ text) more) := by
  cases h with
  | floatKeyword => exact next_of_word read hblanks (isRun_singleton rfl) hend
  | intKeyword => exact next_of_word read hblanks (isRun_singleton rfl) hend
  | printKeyword => exact next_of_word read hblanks (isRun_singleton rfl) hend
  | name hrun hfree =>
    -- a word is a name if it is none of the keywords
    have hkind : Kind.ofWord text = .identifier := by
      rw [Kind.ofWord_eq_identifier_iff]
      simpa using hfree
    rw [next_of_word read hblanks hrun hend, hkind]
  | @int _ value hrun hrange hvalue =>
    simp only [Kind.isContinuedBy, Bool.or_eq_false_iff, decide_eq_false_iff_not] at hend
    -- there is one 32-bit integer with this value
    have hread : Lexeme.intValue? text = some value := by
      have hof : (Int32.ofNat (Nat.ofDigitChars 10 text 0)).toInt = Nat.ofDigitChars 10 text 0 :=
        Int32.toInt_ofNat_of_lt (by omega)
      exact (if_pos hrange).trans (congrArg some (Int32.toInt_inj.1 (hof.trans hvalue.symm)))
    rw [next_of_digits read hblanks hrun hend.1 hend.2, hread]
  | @float whole digits hwhole hdigits hlength =>
    -- the point and the digits in front of it take their share of the length
    have hroom : digits.length ≤ Lexeme.maxLength - (whole.length + 1) := by
      simp only [List.length_append, List.length_cons] at hlength
      simp only [Lexeme.maxLength]
      omega
    rw [List.append_assoc, List.cons_append, next_of_point read hblanks hwhole,
      fraction_amid _ hdigits.ne_nil hdigits.accepted hend hroom]
    simp
  | assign => exact next_of_symbol read hblanks rfl
  | add => exact next_of_symbol read hblanks rfl
  | sub => exact next_of_symbol read hblanks rfl
  | mul => exact next_of_symbol read hblanks rfl
  | div => exact next_of_symbol read hblanks rfl

/-- Where no lexeme can be read the error says why. -/
theorem next_of_stuck {e : LexicalError} (h : Stuck (read ++ blanks) rest e) :
    ∃ final, (amid read (blanks ++ rest)).next = .error e final := by
  cases h with
  | invalidCharacter hrest hblank hlower hdigit hsymbol =>
    subst hrest
    rw [next_amid read hblanks hblank, if_neg (by simp [hdigit]), if_neg (by simp [hlower])]
    -- a character that is a lexeme by itself is one of the five
    split
    · next hkind => exact absurd (mem_of_ofSymbol? hkind) hsymbol
    · exact ⟨_, rfl⟩
  | longWord hrest hrun hlong =>
    subst hrest
    exact next_of_long_word read hblanks hrun hlong
  | longInt hrest hrun hlong =>
    subst hrest
    exact next_of_long_digits read hblanks hrun hlong
  | @longFloat whole digits more hrest hwhole hne hdigits hlong =>
    subst hrest
    -- some digit is left over, also if there is no room for any
    have hroom : Lexeme.maxLength - (whole.length + 1) < digits.length := by
      have hpos := List.length_pos_iff.2 hne
      simp only [List.length_append, List.length_cons] at hlong
      simp only [Lexeme.maxLength]
      omega
    rw [next_of_point read hblanks hwhole]
    exact fraction_of_long _ hdigits hroom
  | malformedFloat hrest hwhole hmissing =>
    subst hrest
    rw [next_of_point read hblanks hwhole, fraction_of_missing _ hmissing]
    exact ⟨_, rfl⟩
  | intOutOfRange hrest hdigits hend hpoint hrange =>
    subst hrest
    have hread : Lexeme.intValue? _ = none := if_neg (Nat.not_le.2 hrange)
    rw [next_of_digits read hblanks hdigits hend hpoint, hread]
    exact ⟨_, rfl⟩

end DeskCalc.Reader
