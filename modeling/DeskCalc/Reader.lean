import DeskCalc.Lexeme

/-!
# Reading lexemes on demand

A reader hands out one lexeme at a time and takes lexemes back. Characters handed back lie on a
stack in front of the source and keep the places they came from, so a lexeme that is returned is
read again with its own location, and two that are returned without a separator may be read as one.
The reader's own position counts source characters only and never moves while returned characters
are read.

Main statements: `Reader.next_size` — a lexeme costs at least as many characters as it has;
`Reader.size_lt_of_next` — every lexeme but the last shortens what is left to read.
-/

namespace DeskCalc

/-- What is left to read. -/
structure Reader where
  /-- Characters handed back, the next one first, each with the place it came from. -/
  returned : List (Char × Location)
  /-- Source characters not read yet. -/
  rest : List Char
  /-- The place of the first character of `rest`. -/
  position : Location
deriving DecidableEq, Inhabited

/-- The six white-space characters that separate lexemes. -/
def isBlank (c : Char) : Bool :=
  c = ' ' || c = '\t' || c = '\n' || c = '\r' || c = '\x0b' || c = '\x0c'

namespace Reader

/-- A reader at the start of `source`. -/
def ofString (source : String) : Reader := ⟨[], source.toList, .start⟩

/-- All characters left to read, in the order in which they will be read. -/
def chars (r : Reader) : List Char := r.returned.map Prod.fst ++ r.rest

/-- How many characters are left to read. -/
def size (r : Reader) : Nat := r.returned.length + r.rest.length

/-- The place of the next character. -/
def here (r : Reader) : Location :=
  match r.returned with
  | (_, l) :: _ => l
  | [] => r.position

/-- The next character and the reader behind it. -/
def pop? (r : Reader) : Option (Char × Reader) :=
  match r.returned, r.rest with
  | (c, _) :: returned, _ => some (c, { r with returned })
  | [], c :: rest => some (c, ⟨[], rest, r.position.after c⟩)
  | [], [] => none

/-- The next character. -/
def peek? (r : Reader) : Option Char := r.pop?.map Prod.fst

/-- The longest run of at most `room` characters that satisfy `accept`, and the reader behind it. -/
def span (accept : Char → Bool) : Nat → Reader → List Char × Reader
  | 0, r => ([], r)
  | room + 1, r =>
    match r.pop? with
    | some (c, behind) =>
      if accept c then
        let (run, after) := span accept room behind
        (c :: run, after)
      else ([], r)
    | none => ([], r)

/-- A character costs one. -/
theorem size_pop? {r behind : Reader} {c : Char} (h : r.pop? = some (c, behind)) :
    behind.size + 1 = r.size := by
  unfold pop? at h
  split at h <;> simp only [Option.some.injEq, Prod.mk.injEq, reduceCtorEq] at h
  · obtain ⟨rfl, rfl⟩ := h
    simp_all [size]
    omega
  · obtain ⟨rfl, rfl⟩ := h
    simp_all [size]

/-- The reader behind any white space. -/
def skipBlanks (r : Reader) : Reader :=
  match h : r.pop? with
  | some (c, behind) =>
    have := size_pop? h
    if isBlank c then behind.skipBlanks else r
  | none => r
termination_by r.size

/-! ## Handing characters back -/

/-- Put the characters of `text` in front of what is left to read, placed on one line from
`location`. -/
def unread (r : Reader) (text : String) (location : Location) : Reader :=
  { r with returned := location.along text.toList ++ r.returned }

/-! ## Lexemes -/

/-- The outcome of reading: a value or the error met, and the reader behind what was read. -/
abbrev Outcome := EStateM.Result LexicalError Reader

deriving instance DecidableEq for EStateM.Result

/-- A word that begins with `first` at `start`. -/
def word (first : Char) (start : Location) (r : Reader) : Outcome Lexeme :=
  let (more, r) := r.span Char.isLower (Lexeme.maxLength - 1)
  -- the run was cut short by its length, not by its end
  if r.peek?.any Char.isLower then .error (.tooLong start) r
  else .ok ⟨.ofWord (first :: more), String.ofList (first :: more), start⟩ r

/-- The part of a number behind its point, given the digits before the point. -/
def fraction (whole : List Char) (start : Location) (r : Reader) : Outcome Lexeme :=
  if r.peek?.any Char.isDigit then
    let (digits, r) := r.span Char.isDigit (Lexeme.maxLength - (whole.length + 1))
    if r.peek?.any Char.isDigit then .error (.tooLong start) r
    else
      .ok ⟨.number (.float (Lexeme.floatValue whole digits)),
        String.ofList (whole ++ '.' :: digits), start⟩ r
  else .error (.malformedFloat r.peek? r.here) r

/-- A number that begins with the digit `first` at `start`. -/
def number (first : Char) (start : Location) (r : Reader) : Outcome Lexeme :=
  let (more, r) := r.span Char.isDigit (Lexeme.maxLength - 1)
  let digits := first :: more
  if r.peek?.any Char.isDigit then .error (.tooLong start) r
  else
    match r.pop? with
    -- behind digits a point never stands for itself
    | some ('.', behind) => fraction digits start behind
    | _ =>
      match Lexeme.intValue? digits with
      | some value => .ok ⟨.number (.int value), String.ofList digits, start⟩ r
      | none => .error (.intOutOfRange (String.ofList digits) start) r

/-- The next lexeme. At the end of the source that is the end, again and again; a character that
starts no lexeme is consumed by the error. -/
def next (r : Reader) : Outcome Lexeme :=
  let r := r.skipBlanks
  match r.pop? with
  | none => .ok (.endOfFile r.here) r
  | some (c, behind) =>
    if c.isDigit then number c r.here behind
    else if c.isLower then word c r.here behind
    else
      match Lexeme.Kind.ofSymbol? c with
      | some kind => .ok ⟨kind, String.ofList [c], r.here⟩ behind
      | none => .error (.invalidCharacter c r.here) behind

/-! ## What reading costs -/

theorem size_span (accept : Char → Bool) (room : Nat) (r : Reader) :
    (r.span accept room).2.size + (r.span accept room).1.length = r.size := by
  induction room generalizing r with
  | zero => simp [span]
  | succ room ih =>
    unfold span
    split
    · next c behind h =>
      have := size_pop? h
      have := ih behind
      split
      · simp only [List.length_cons]
        omega
      · simp
    · simp

theorem size_skipBlanks_le (r : Reader) : r.skipBlanks.size ≤ r.size := by
  fun_induction skipBlanks r with
  | case1 r c behind hp hsize hc ih => omega
  | case2 => exact Nat.le_refl _
  | case3 => exact Nat.le_refl _

@[simp] theorem size_unread (r : Reader) (text : String) (location : Location) :
    (r.unread text location).size = text.length + r.size := by
  simp [unread, size, ← String.length_toList]
  omega

/-- `o` is an outcome of reading from at most `budget` characters: a lexeme is paid for character
by character and only the end of the source is free, and an error costs something. -/
def PaidFrom (budget : Nat) (o : Outcome Lexeme) : Prop :=
  match o with
  | .ok l behind =>
    behind.size + l.text.length ≤ budget ∧ (l.kind ≠ .endOfFile → 0 < l.text.length)
  | .error _ behind => behind.size < budget

private theorem paidFrom_mono {a b : Nat} {o : Outcome Lexeme} (h : PaidFrom a o) (hab : a ≤ b) :
    PaidFrom b o := by
  cases o <;> simp only [PaidFrom] at * <;> grind

private theorem paidFrom_word (first : Char) (start : Location) (r : Reader) :
    PaidFrom (r.size + 1) (word first start r) := by
  have := size_span Char.isLower (Lexeme.maxLength - 1) r
  unfold word
  dsimp only
  split <;> simp [PaidFrom] <;> omega

private theorem paidFrom_fraction (whole : List Char) (start : Location) (r : Reader) :
    PaidFrom (r.size + 1 + whole.length) (fraction whole start r) := by
  have := size_span Char.isDigit (Lexeme.maxLength - (whole.length + 1)) r
  unfold fraction
  dsimp only
  split
  · split
    · simp only [PaidFrom]
      omega
    · simp only [PaidFrom, String.length_ofList, List.length_append, List.length_cons]
      omega
  · simp only [PaidFrom]
    omega

private theorem paidFrom_number (first : Char) (start : Location) (r : Reader) :
    PaidFrom (r.size + 1) (number first start r) := by
  have hspan := size_span Char.isDigit (Lexeme.maxLength - 1) r
  unfold number
  dsimp only
  split
  · simp [PaidFrom]
    omega
  · split
    · next behind h =>
      have hpop := size_pop? h
      refine paidFrom_mono (paidFrom_fraction _ start behind) ?_
      simp
      omega
    · split <;> simp [PaidFrom] <;> omega

/-- Reading a lexeme is paid for out of what is left to read. -/
theorem paidFrom_next (r : Reader) : PaidFrom r.size r.next := by
  have hskip := size_skipBlanks_le r
  unfold next
  dsimp only
  split
  · simp [PaidFrom, Lexeme.endOfFile]
    omega
  · next c behind h =>
    have hpop := size_pop? h
    split
    · exact paidFrom_mono (paidFrom_number c _ behind) (by omega)
    · split
      · exact paidFrom_mono (paidFrom_word c _ behind) (by omega)
      · split <;> simp [PaidFrom] <;> omega

/-- A lexeme costs at least as many characters as it has. -/
theorem next_size {r behind : Reader} {l : Lexeme} (h : r.next = .ok l behind) :
    behind.size + l.text.length ≤ r.size := by
  have := paidFrom_next r
  rw [h] at this
  exact this.1

/-- Every lexeme but the last shortens what is left to read. -/
theorem size_lt_of_next {r behind : Reader} {l : Lexeme} (h : r.next = .ok l behind)
    (hl : l.kind ≠ .endOfFile) : behind.size < r.size := by
  have := paidFrom_next r
  rw [h] at this
  have := this.1
  have := ‹PaidFrom _ (.ok l behind)›.2 hl
  omega

/-- An error consumes at least one character. -/
theorem size_lt_of_next_error {r behind : Reader} {e : LexicalError}
    (h : r.next = .error e behind) : behind.size < r.size := by
  have := paidFrom_next r
  rw [h] at this
  exact this

/-! ## Reading to the end -/

/-- All lexemes up to the end of the source, which is the last of them. -/
def tokenize (r : Reader) : Outcome (List Lexeme) :=
  match h : r.next with
  | .error e behind => .error e behind
  | .ok l behind =>
    if hl : l.kind = .endOfFile then .ok [l] behind
    else
      have := size_lt_of_next h hl
      match tokenize behind with
      | .ok ls after => .ok (l :: ls) after
      | .error e after => .error e after
termination_by r.size

end Reader

end DeskCalc
