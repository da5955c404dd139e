import DeskCalc.Proofs.Lookahead
import DeskCalc.Proofs.Scanning

/-!
# How a source splits into lexemes

A source is read in full exactly if it is written as lexemes with white space around them, where no
two words and no two numbers touch. There is one way only to split it so, and the lexemes are read
in that order, each with the place of its first character. Any other source splits like that up to a
place where it is stuck, and reading fails there.

Main statement: `Reader.tokenize_layout`.
-/

namespace DeskCalc

open Lexeme (Kind)

/-! ## Pieces of a source -/

/-- A lexeme as it is written, with the white space in front of it. -/
structure Piece where
  blanks : List Char
  text : List Char
  /-- What the text is. -/
  kind : Kind

/-- The characters of a piece. -/
def Piece.chars (p : Piece) : List Char := p.blanks ++ p.text

/-- The characters `cs` are the pieces `ps`, white space and a rest. The last piece does not go on
with the rest. -/
structure IsSplit (cs : List Char) (ps : List Piece) (blanks rest : List Char) : Prop where
  chars_eq : cs = ps.flatMap Piece.chars ++ (blanks ++ rest)
  blank_before : ∀ p ∈ ps, ∀ c ∈ p.blanks, isBlank c
  spells : ∀ p ∈ ps, Spells p.text p.kind
  apart : ps.IsChain fun p q => q.blanks = [] →
    ¬ (p.kind.isWord ∧ q.kind.isWord) ∧ ¬ (p.kind.isNumber ∧ q.kind.isNumber)
  blank_behind : ∀ c ∈ blanks, isBlank c
  ended : ∀ p ∈ ps.getLast?, blanks = [] → p.kind.isContinuedBy rest.head? = false

/-- The lexeme that a piece is, where it stands behind the characters `read`. -/
def Piece.lexeme (read : List Char) (p : Piece) : Lexeme :=
  ⟨p.kind, String.ofList p.text, .reached (read ++ p.blanks)⟩

/-- The lexemes that the pieces are, where they stand behind the characters `read`. -/
def lexemesOf (read : List Char) : List Piece → List Lexeme
  | [] => []
  | p :: ps => p.lexeme read :: lexemesOf (read ++ p.chars) ps

/-- The text starts with the piece, whose lexeme does not go on with what is behind it. -/
structure Piece.Starts (p : Piece) (cs more : List Char) : Prop where
  chars_eq : cs = p.chars ++ more
  blank_before : ∀ c ∈ p.blanks, isBlank c
  spells : Spells p.text p.kind
  ended : p.kind.isContinuedBy more.head? = false

/-- Behind the characters `read` there is no lexeme any more: the source ends or is stuck. -/
def Halts (read rest : List Char) : Prop := rest = [] ∨ ∃ e, Stuck read rest e

variable {cs blanks rest blanks' rest' : List Char} {p : Piece} {ps ps' : List Piece}

/-- White space ends every lexeme. -/
private theorem isContinuedBy_append_iff (hblanks : ∀ c ∈ blanks, isBlank c) (k : Kind) :
    k.isContinuedBy (blanks ++ rest).head? = false ↔
      (blanks = [] → k.isContinuedBy rest.head? = false) := by
  cases blanks with
  | nil => simp
  | cons c blanks => simp [isContinuedBy_of_isBlank (hblanks c List.mem_cons_self)]

/-- No lexeme is empty. -/
private theorem Spells.ne_nil {text : List Char} {k : Kind} (h : Spells text k) : text ≠ [] := by
  rintro rfl
  obtain ⟨c, hc, -⟩ := h.head?
  cases hc

private theorem Spells.ne_endOfFile {text : List Char} {k : Kind} (h : Spells text k) :
    k ≠ .endOfFile := by
  cases h <;> simp

/-- What is stuck does not start with white space. -/
private theorem Stuck.head? {read : List Char} {e : LexicalError} (h : Stuck read rest e) :
    rest.head?.any isBlank = false := by
  -- a run of letters or digits begins with one, which is no white space
  have hrun {accept : Char → Bool} {run more : List Char} (hne : run ≠ [])
      (haccept : ∀ c ∈ run, accept c) (hclass : ∀ c, accept c → c.isLower ∨ c.isDigit) :
      (run ++ more).head?.any isBlank = false := by
    obtain ⟨c, run, rfl⟩ := List.exists_cons_of_ne_nil hne
    exact isBlank_eq_false (hclass c (haccept c List.mem_cons_self))
  cases h with
  | invalidCharacter hrest hblank => simpa [hrest] using hblank
  | longWord hrest hword hlong =>
    rw [hrest]
    exact hrun (List.ne_nil_of_length_pos (Nat.zero_lt_of_lt hlong)) hword fun _ => .inl
  | longInt hrest hdigits hlong =>
    rw [hrest]
    exact hrun (List.ne_nil_of_length_pos (Nat.zero_lt_of_lt hlong)) hdigits fun _ => .inr
  | longFloat hrest hwhole =>
    rw [hrest]
    exact hrun hwhole.ne_nil hwhole.accepted fun _ => .inr
  | malformedFloat hrest hwhole =>
    rw [hrest]
    exact hrun hwhole.ne_nil hwhole.accepted fun _ => .inr
  | intOutOfRange hrest hdigits =>
    rw [hrest]
    exact hrun hdigits.ne_nil hdigits.accepted fun _ => .inr

private theorem Halts.head? {read : List Char} (h : Halts read rest) :
    rest.head?.any isBlank = false := by
  rcases h with rfl | ⟨e, hstuck⟩
  · rfl
  · exact hstuck.head?

/-- White space in front of a place where no lexeme is left has one end. -/
private theorem Halts.blanks_unique {read read' : List Char} (h : Halts read rest)
    (h' : Halts read' rest')
    (hblanks : ∀ c ∈ blanks, isBlank c) (hblanks' : ∀ c ∈ blanks', isBlank c)
    (heq : blanks ++ rest = blanks' ++ rest') : blanks = blanks' ∧ rest = rest' := by
  -- the white space is the longest in front, since what follows begins with none
  have htake {blanks rest : List Char} (hblanks : ∀ c ∈ blanks, isBlank c)
      (hhead : rest.head?.any isBlank = false) : (blanks ++ rest).takeWhile isBlank = blanks := by
    rw [List.takeWhile_append_of_pos hblanks]
    cases rest with
    | nil => simp
    | cons c rest => simpa using hhead
  have hsame : blanks = blanks' := by
    rw [← htake hblanks h.head?, ← htake hblanks' h'.head?, heq]
  subst hsame
  exact ⟨rfl, List.append_cancel_left heq⟩

namespace IsSplit

private theorem nil_iff :
    IsSplit cs [] blanks rest ↔ cs = blanks ++ rest ∧ ∀ c ∈ blanks, isBlank c := by
  constructor
  · intro h
    exact ⟨h.chars_eq, h.blank_behind⟩
  · intro h
    exact ⟨h.1, by simp, by simp, .nil, h.2, by simp⟩

/-- What stands behind a piece tells whether its lexeme goes on: the next piece, or the rest if
there is none. -/
private theorem isContinuedBy_flatMap_iff (hspells : ∀ q ∈ ps, Spells q.text q.kind)
    (hbefore : ∀ q ∈ ps, ∀ c ∈ q.blanks, isBlank c) (hbehind : ∀ c ∈ blanks, isBlank c) (k : Kind) :
    k.isContinuedBy (ps.flatMap Piece.chars ++ (blanks ++ rest)).head? = false ↔
      (∀ q ∈ ps.head?, q.blanks = [] →
        ¬ (k.isWord ∧ q.kind.isWord) ∧ ¬ (k.isNumber ∧ q.kind.isNumber)) ∧
      (ps = [] → blanks = [] → k.isContinuedBy rest.head? = false) := by
  cases ps with
  | nil => simpa using isContinuedBy_append_iff hbehind k
  | cons q qs =>
    have hq := hspells q List.mem_cons_self
    -- a piece has a character of its own, and this is the first one behind its blanks
    have hhead : (q.text ++ (qs.flatMap Piece.chars ++ (blanks ++ rest))).head? = q.text.head? :=
      List.head?_append_of_ne_nil _ hq.ne_nil
    simp only [List.flatMap_cons, Piece.chars, List.append_assoc]
    rw [isContinuedBy_append_iff (hbefore q List.mem_cons_self), hhead, hq.isContinuedBy_iff]
    simp

/-- A text that splits starts with the first piece, and the others split what is behind it. -/
private theorem cons_iff :
    IsSplit cs (p :: ps) blanks rest ↔ ∃ more, p.Starts cs more ∧ IsSplit more ps blanks rest := by
  constructor
  · intro h
    have hbefore := List.forall_mem_cons.1 h.blank_before
    have hspells := List.forall_mem_cons.1 h.spells
    have hapart := List.isChain_cons.1 h.apart
    refine ⟨ps.flatMap Piece.chars ++ (blanks ++ rest), ⟨?_, hbefore.1, hspells.1, ?_⟩, ?_⟩
    · simpa using h.chars_eq
    · rw [isContinuedBy_flatMap_iff hspells.2 hbefore.2 h.blank_behind]
      refine ⟨hapart.1, ?_⟩
      rintro rfl
      exact h.ended p rfl
    · refine ⟨rfl, hbefore.2, hspells.2, hapart.2, h.blank_behind, ?_⟩
      intro q hq
      exact h.ended q (List.mem_getLast?_cons hq)
  · rintro ⟨more, hstarts, hsplit⟩
    -- the first piece ends before the next one or before the rest, whatever there is
    have hend := hstarts.ended
    rw [hsplit.chars_eq,
      isContinuedBy_flatMap_iff hsplit.spells hsplit.blank_before hsplit.blank_behind] at hend
    refine ⟨?_, ?_, ?_, ?_, hsplit.blank_behind, ?_⟩
    · rw [hstarts.chars_eq, hsplit.chars_eq, List.flatMap_cons, List.append_assoc]
    · exact List.forall_mem_cons.2 ⟨hstarts.blank_before, hsplit.blank_before⟩
    · exact List.forall_mem_cons.2 ⟨hstarts.spells, hsplit.spells⟩
    · exact List.isChain_cons.2 ⟨hend.1, hsplit.apart⟩
    · intro q hq
      -- the last piece is the first one only if there is no other
      cases ps with
      | nil =>
        cases hq
        exact hend.2 rfl
      | cons p' ps => exact hsplit.ended q (by simpa using hq)

/-- A text splits up to a place where it ends or is stuck. -/
theorem exists_of_chars (read cs : List Char) :
    ∃ ps blanks rest, IsSplit cs ps blanks rest ∧
      Halts (read ++ ps.flatMap Piece.chars ++ blanks) rest := by
  obtain ⟨blanks, rest, rfl, hblanks, hstop⟩ := exists_longest isBlank cs
  cases rest with
  | nil => exact ⟨[], blanks, [], nil_iff.2 ⟨rfl, hblanks⟩, .inl rfl⟩
  | cons c rest =>
    have hc : isBlank c = false := by simpa using hstop
    rcases exists_spells_or_stuck (read ++ blanks) hc rest with hspells | hstuck
    · obtain ⟨text, more, k, hrest, hspells, hend⟩ := hspells
      -- what is behind a lexeme is shorter
      have hlength : more.length < (blanks ++ c :: rest).length := by
        have hpos := List.length_pos_iff.2 hspells.ne_nil
        rw [hrest]
        simp only [List.length_append]
        omega
      obtain ⟨ps, behind, rest', hsplit, hhalt⟩ := exists_of_chars (read ++ blanks ++ text) more
      refine ⟨⟨blanks, text, k⟩ :: ps, behind, rest', ?_, ?_⟩
      · have hall : blanks ++ c :: rest = (blanks ++ text) ++ more := by
          rw [hrest, List.append_assoc]
        exact cons_iff.2 ⟨more, ⟨hall, hblanks, hspells, hend⟩, hsplit⟩
      · simpa [Piece.chars] using hhalt
    · exact ⟨[], blanks, c :: rest, nil_iff.2 ⟨rfl, hblanks⟩, .inr (by simpa using hstuck)⟩
termination_by cs.length

end IsSplit

/-! ## Reading the pieces -/

namespace Reader

variable (read : List Char)

/-- The piece that a text starts with is read first. -/
private theorem next_of_starts {more : List Char} (h : p.Starts cs more) :
    (amid read cs).next = .ok (p.lexeme read) (amid (read ++ p.chars) more) := by
  rw [h.chars_eq, Piece.chars, List.append_assoc,
    next_of_spells read h.blank_before h.spells h.ended, List.append_assoc]
  rfl

/-- So a text starts with one piece only. -/
private theorem starts_unique {p' : Piece} {more more' : List Char} (h : p.Starts cs more)
    (h' : p'.Starts cs more') : p = p' ∧ more = more' := by
  have hsame := (next_of_starts [] h).symm.trans (next_of_starts [] h')
  simp only [EStateM.Result.ok.injEq, Piece.lexeme, Lexeme.mk.injEq, String.ofList_inj] at hsame
  obtain ⟨⟨hkind, htext, -⟩, hbehind⟩ := hsame
  have hmore : more = more' := congrArg chars hbehind
  subst hmore
  -- the white space is what is left of the text in front
  have hblanks : p.blanks = p'.blanks := by
    have hchars : p.chars = p'.chars := List.append_cancel_right (h.chars_eq.symm.trans h'.chars_eq)
    rw [Piece.chars, Piece.chars, ← htext] at hchars
    exact List.append_cancel_right hchars
  cases p
  cases p'
  simp only at hkind htext hblanks
  subst hkind htext hblanks
  exact ⟨rfl, rfl⟩

/-- The pieces are read one after the other. -/
theorem reads_pieces (h : IsSplit cs ps blanks rest) :
    (amid read cs).Reads (lexemesOf read ps)
      (amid (read ++ ps.flatMap Piece.chars) (blanks ++ rest)) := by
  induction ps generalizing cs read with
  | nil =>
    rw [(IsSplit.nil_iff.1 h).1]
    simpa [lexemesOf] using Reads.refl (amid read (blanks ++ rest))
  | cons p ps ih =>
    obtain ⟨more, hstarts, hsplit⟩ := IsSplit.cons_iff.1 h
    refine ⟨_, next_of_starts read hstarts, hstarts.spells.ne_endOfFile, ?_⟩
    simpa using ih (read ++ p.chars) hsplit

/-- Behind all pieces comes the end. -/
theorem tokenize_of_isSplit (h : IsSplit cs ps blanks []) :
    (amid read cs).tokenize =
      .ok (lexemesOf read ps ++ [.endOfFile (.reached (read ++ cs))]) (amid (read ++ cs) []) := by
  have hcs : cs = ps.flatMap Piece.chars ++ blanks := by simpa using h.chars_eq
  -- the pieces are read, and only white space is left behind them
  have hreads := reads_pieces read h
  have hnext := next_of_blanks (read ++ ps.flatMap Piece.chars) h.blank_behind
  rw [List.append_nil] at hreads
  rw [List.append_assoc, ← hcs] at hnext
  exact tokenize_eq_ok_iff.2 ⟨_, _, _, rfl, hreads, hnext, rfl⟩

/-- Behind all pieces comes the error, where the rest is stuck. -/
theorem tokenize_of_stuck {e : LexicalError} (h : IsSplit cs ps blanks rest)
    (hstuck : Stuck (read ++ ps.flatMap Piece.chars ++ blanks) rest e) :
    ∃ final, (amid read cs).tokenize = .error e final := by
  obtain ⟨final, hnext⟩ := next_of_stuck (read ++ ps.flatMap Piece.chars) h.blank_behind hstuck
  exact ⟨final, tokenize_eq_error_iff.2 ⟨_, _, reads_pieces read h, hnext⟩⟩

/-- In front of a place where no lexeme is left there is no piece. -/
private theorem not_starts_of_halts (hblanks : ∀ c ∈ blanks, isBlank c)
    (hhalts : Halts (read ++ blanks) rest) (more : List Char) :
    ¬ p.Starts (blanks ++ rest) more := by
  intro h
  have hnext := next_of_starts read h
  -- a piece would be read, but the end is, or reading fails
  rcases hhalts with rfl | ⟨e, hstuck⟩
  · rw [List.append_nil, next_of_blanks read hblanks] at hnext
    have hkind : Kind.endOfFile = p.kind := congrArg Lexeme.kind (EStateM.Result.ok.inj hnext).1
    exact h.spells.ne_endOfFile hkind.symm
  · obtain ⟨final, herror⟩ := next_of_stuck read hblanks hstuck
    cases hnext.symm.trans herror

/-- A text splits in one way only up to a place where no lexeme is left. -/
private theorem isSplit_unique (h : IsSplit cs ps blanks rest) (h' : IsSplit cs ps' blanks' rest')
    (hhalts : Halts (read ++ ps.flatMap Piece.chars ++ blanks) rest)
    (hhalts' : Halts (read ++ ps'.flatMap Piece.chars ++ blanks') rest') :
    ps = ps' ∧ blanks = blanks' ∧ rest = rest' := by
  induction ps generalizing cs ps' read with
  | nil =>
    obtain ⟨rfl, hblanks⟩ := IsSplit.nil_iff.1 h
    rw [List.flatMap_nil, List.append_nil] at hhalts
    cases ps' with
    | nil =>
      obtain ⟨heq, hblanks'⟩ := IsSplit.nil_iff.1 h'
      exact ⟨rfl, hhalts.blanks_unique hhalts' hblanks hblanks' heq⟩
    | cons p' ps' =>
      -- one split has no piece left where the other one has
      obtain ⟨more, hstarts, -⟩ := IsSplit.cons_iff.1 h'
      exact absurd hstarts (not_starts_of_halts read hblanks hhalts more)
  | cons p ps ih =>
    obtain ⟨more, hstarts, hsplit⟩ := IsSplit.cons_iff.1 h
    cases ps' with
    | nil =>
      obtain ⟨rfl, hblanks'⟩ := IsSplit.nil_iff.1 h'
      rw [List.flatMap_nil, List.append_nil] at hhalts'
      exact absurd hstarts (not_starts_of_halts read hblanks' hhalts' more)
    | cons p' ps' =>
      obtain ⟨more', hstarts', hsplit'⟩ := IsSplit.cons_iff.1 h'
      -- both splits begin with the one piece that the text starts with
      obtain ⟨rfl, rfl⟩ := starts_unique hstarts hstarts'
      have hrest := ih (read ++ p.chars) hsplit hsplit' (by simpa using hhalts)
        (by simpa using hhalts')
      exact ⟨congrArg (p :: ·) hrest.1, hrest.2⟩

end Reader

/-- A source is read in full exactly if it splits into lexemes and white space. There is one way
only to split a source up to its end or to where it is stuck. The lexemes of a full split are read in
order, each with its place, and then the end with its own; where a source is stuck behind such
pieces, and only there, reading it fails. -/
theorem Reader.tokenize_layout (source : String) :
    ((∃ ls final, (ofString source).tokenize = .ok ls final) ↔
        ∃ ps blanks, IsSplit source.toList ps blanks []) ∧
      (∀ ps blanks rest ps' blanks' rest', IsSplit source.toList ps blanks rest →
        Halts (ps.flatMap Piece.chars ++ blanks) rest → IsSplit source.toList ps' blanks' rest' →
        Halts (ps'.flatMap Piece.chars ++ blanks') rest' →
        ps = ps' ∧ blanks = blanks' ∧ rest = rest') ∧
      (∀ ps blanks, IsSplit source.toList ps blanks [] → ∃ final, (ofString source).tokenize =
        .ok (lexemesOf [] ps ++ [.endOfFile (.reached source.toList)]) final) ∧
      ∀ e, (∃ final, (ofString source).tokenize = .error e final) ↔
        ∃ ps blanks rest, IsSplit source.toList ps blanks rest ∧
          Stuck (ps.flatMap Piece.chars ++ blanks) rest e := by
  -- the source splits in some way, and whether it is stuck then tells what is read
  obtain ⟨ps, blanks, rest, hsplit, hhalts⟩ := IsSplit.exists_of_chars [] source.toList
  have hread {qs : List Piece} {ws : List Char} (h : IsSplit source.toList qs ws []) :
      ∃ final, (ofString source).tokenize =
        .ok (lexemesOf [] qs ++ [.endOfFile (.reached source.toList)]) final :=
    ⟨amid source.toList [], tokenize_of_isSplit [] h⟩
  refine ⟨⟨?_, ?_⟩, ?_, fun _ _ => hread, ?_⟩
  · rintro ⟨ls, final, htokenize⟩
    rcases hhalts with rfl | ⟨e, hstuck⟩
    · exact ⟨ps, blanks, hsplit⟩
    · obtain ⟨final', herror⟩ := tokenize_of_stuck [] hsplit hstuck
      cases htokenize.symm.trans herror
  · rintro ⟨qs, ws, h⟩
    obtain ⟨final, htokenize⟩ := hread h
    exact ⟨_, final, htokenize⟩
  · intro qs ws us qs' ws' us' h hhalt h' hhalt'
    exact isSplit_unique [] h h' hhalt hhalt'
  · intro e
    constructor
    · rintro ⟨final, htokenize⟩
      rcases hhalts with rfl | ⟨e', hstuck⟩
      · obtain ⟨final', hall⟩ := hread hsplit
        cases htokenize.symm.trans hall
      · obtain ⟨final', herror⟩ := tokenize_of_stuck [] hsplit hstuck
        cases htokenize.symm.trans herror
        exact ⟨ps, blanks, rest, hsplit, hstuck⟩
    · rintro ⟨qs, ws, rest', h, hstuck⟩
      exact tokenize_of_stuck [] h hstuck

end DeskCalc
