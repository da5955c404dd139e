import Mathlib.Data.List.TakeWhile
import DeskCalc.Reader.Characters

/-!
# Reading again what was handed back

A lexeme that has just been read and is handed back is read again: with its kind, its text and its
place, and with the same reader behind it. The reader that is left behind a lexeme fixes where the
lexeme had to end, so a scan of the returned characters ends there too.

Main statement: `Reader.next_unread`.
-/

namespace DeskCalc

/-! ## Classes of characters -/

theorem isDigit_of_isLower {c : Char} (h : c.isLower) : c.isDigit = false := by
  have hlower : 'a'.val ≤ c.val ∧ c.val ≤ 'z'.val := by
    simpa only [Bool.and_eq_true, decide_eq_true_eq] using
      (show (decide ('a'.val ≤ c.val) && decide (c.val ≤ 'z'.val)) = true from h)
  simp only [Char.isDigit, Bool.and_eq_false_iff, decide_eq_false_iff_not,
    UInt32.le_iff_toNat_le, ge_iff_le] at *
  -- the letters lie behind the digits
  have : 'a'.val.toNat = 97 := rfl
  have : '9'.val.toNat = 57 := rfl
  omega

theorem isBlank_eq_false {c : Char} (h : c.isLower ∨ c.isDigit) : isBlank c = false := by
  by_contra hb
  simp only [isBlank, Bool.not_eq_false, Bool.or_eq_true, decide_eq_true_eq] at hb
  rcases hb with ((((rfl | rfl) | rfl) | rfl) | rfl) | rfl <;> exact absurd h (by decide)

/-- The characters that are lexemes by themselves. -/
theorem mem_of_ofSymbol? {c : Char} {k : Lexeme.Kind} (h : Lexeme.Kind.ofSymbol? c = some k) :
    c ∈ ['=', '+', '-', '*', '/'] := by
  unfold Lexeme.Kind.ofSymbol? at h
  split at h
  · next hc => simp [hc]
  · unfold Operator.ofSymbol? at h
    split at h <;> simp at *

/-- A character that is a lexeme by itself is in no other class. -/
theorem classes_of_ofSymbol? {c : Char} {k : Lexeme.Kind}
    (h : Lexeme.Kind.ofSymbol? c = some k) :
    c.isDigit = false ∧ c.isLower = false ∧ isBlank c = false := by
  have hmem := mem_of_ofSymbol? h
  simp only [List.mem_cons, List.not_mem_nil, or_false] at hmem
  rcases hmem with rfl | rfl | rfl | rfl | rfl <;> decide

namespace Reader

/-! ## Characters in front of a reader -/

/-- The reader with characters in front of what is left to read, each with its place. -/
def restore (r : Reader) (run : List (Char × Location)) : Reader :=
  { r with returned := run ++ r.returned }

private theorem unread_eq_restore (r : Reader) (text : String) (location : Location) :
    r.unread text location = r.restore (location.along text.toList) := rfl

@[simp] theorem restore_nil (r : Reader) : r.restore [] = r := rfl

private theorem restore_restore (r : Reader) (run more : List (Char × Location)) :
    (r.restore more).restore run = r.restore (run ++ more) := by
  simp [restore]

@[simp] theorem pop?_restore_cons (r : Reader) (c : Char) (l : Location)
    (run : List (Char × Location)) :
    (r.restore ((c, l) :: run)).pop? = some (c, r.restore run) := by
  simp [restore, pop?]

@[simp] theorem here_restore_cons (r : Reader) (c : Char) (l : Location)
    (run : List (Char × Location)) : (r.restore ((c, l) :: run)).here = l := rfl

/-- No run starts at a character that is not accepted. -/
theorem span_of_stop {accept : Char → Bool} {r : Reader} (h : r.peek?.any accept = false)
    (room : Nat) : r.span accept room = ([], r) := by
  cases room with
  | zero => rfl
  | succ room =>
    unfold span
    split
    · next c behind hp =>
      -- the character that is read next is the one that was looked at
      have hc : accept c = false := by simpa [peek?, hp] using h
      simp [hc]
    · rfl

/-- Accepted characters for which there is room are taken into a run. -/
private theorem span_restore {accept : Char → Bool} {r : Reader}
    (hstop : r.peek?.any accept = false) {run : List (Char × Location)}
    (hrun : ∀ p ∈ run, accept p.1) (room : Nat) (hroom : run.length ≤ room) :
    (r.restore run).span accept room = (run.map Prod.fst, r) := by
  induction run generalizing room with
  | nil => exact span_of_stop hstop room
  | cons p run ih =>
    obtain ⟨c, l⟩ := p
    obtain ⟨room, rfl⟩ : ∃ n, room = n + 1 := ⟨room - 1, by simp at hroom; omega⟩
    have hc : accept c := hrun (c, l) List.mem_cons_self
    have hrest := ih (fun p hp => hrun p (List.mem_cons_of_mem _ hp)) room (by simpa using hroom)
    simp [span, hc, hrest]

/-- A character that is not white space stops the skipping at once. -/
theorem skipBlanks_of_pop? {r behind : Reader} {c : Char} (h : r.pop? = some (c, behind))
    (hc : isBlank c = false) : r.skipBlanks = r := by
  unfold skipBlanks
  split
  · next c' behind' h' =>
    cases h.symm.trans h'
    simp [hc]
  · rfl

theorem skipBlanks_of_pop?_eq_none {r : Reader} (h : r.pop? = none) : r.skipBlanks = r := by
  unfold skipBlanks
  split
  · next h' => simp [h] at h'
  · rfl

/-! ## What a run leaves behind -/

private theorem accept_of_mem_span {accept : Char → Bool} {room : Nat} {r : Reader} {c : Char}
    (h : c ∈ (r.span accept room).1) : accept c := by
  rw [fst_span] at h
  exact List.mem_takeWhile_imp h

private theorem length_span_le (accept : Char → Bool) (room : Nat) (r : Reader) :
    (r.span accept room).1.length ≤ room := by
  rw [fst_span]
  calc ((r.chars.take room).takeWhile accept).length
      ≤ (r.chars.take room).length := (List.takeWhile_sublist _).length_le
    _ ≤ room := List.length_take_le _ _

end Reader

/-! ## Lexemes in front of a reader -/

open Lexeme in
/-- The lexeme ends where the reader begins: the characters left to read neither continue it nor
change what it is. -/
inductive Lexeme.EndsAt (behind : Reader) : Lexeme → Prop where
  | word {first : Char} {more : List Char} {start : Location} (hfirst : first.isLower)
      (hmore : ∀ c ∈ more, c.isLower) (hroom : more.length ≤ maxLength - 1)
      (hstop : behind.peek?.any Char.isLower = false) :
      EndsAt behind ⟨.ofWord (first :: more), String.ofList (first :: more), start⟩
  | int {first : Char} {more : List Char} {start : Location} {value : Int32}
      (hfirst : first.isDigit) (hmore : ∀ c ∈ more, c.isDigit)
      (hroom : more.length ≤ maxLength - 1) (hstop : behind.peek?.any Char.isDigit = false)
      (hpoint : behind.peek? ≠ some '.') (hvalue : intValue? (first :: more) = some value) :
      EndsAt behind ⟨.number (.int value), String.ofList (first :: more), start⟩
  | float {first digit : Char} {more digits : List Char} {start : Location}
      (hfirst : first.isDigit) (hmore : ∀ c ∈ more, c.isDigit)
      (hroom : more.length ≤ maxLength - 1) (hdigits : ∀ c ∈ digit :: digits, c.isDigit)
      (hroom' : (digit :: digits).length ≤ maxLength - ((first :: more).length + 1))
      (hstop : behind.peek?.any Char.isDigit = false) :
      EndsAt behind ⟨.number (.float (floatValue (first :: more) (digit :: digits))),
        String.ofList (first :: more ++ '.' :: digit :: digits), start⟩
  | symbol {c : Char} {kind : Kind} {start : Location} (hc : Kind.ofSymbol? c = some kind) :
      EndsAt behind ⟨kind, String.ofList [c], start⟩
  | endOfFile (hend : behind.pop? = none) : EndsAt behind (endOfFile behind.here)

namespace Reader

/-- A word that has been read ends where the reader behind it begins. -/
private theorem endsAt_of_word {first : Char} (hfirst : first.isLower) {start : Location}
    {r behind : Reader} {l : Lexeme} (h : word first start r = .ok l behind) :
    l.EndsAt behind := by
  unfold word at h
  dsimp only at h
  split at h
  · cases h
  · next hstop =>
    -- there is a character of the word or a stop, since room was left
    cases h
    exact .word hfirst (fun c hc => accept_of_mem_span hc) (length_span_le ..)
      (by simpa using hstop)

/-- A number with a point ends where the reader behind it begins. -/
private theorem endsAt_of_fraction {first : Char} {more : List Char} (hfirst : first.isDigit)
    (hmore : ∀ c ∈ more, c.isDigit) (hroom : more.length ≤ Lexeme.maxLength - 1)
    {start : Location} {r behind : Reader} {l : Lexeme}
    (h : fraction (first :: more) start r = .ok l behind) : l.EndsAt behind := by
  unfold fraction at h
  dsimp only at h
  split at h
  · next hpeek =>
    split at h
    · cases h
    · next hstop =>
      -- the digit that was looked at stands first in the run, for which there is room
      cases hrun : (r.span Char.isDigit (Lexeme.maxLength - ((first :: more).length + 1))).1 with
      | nil =>
        -- no digit was taken, so the one looked at would be the stop
        exfalso
        have hall := chars_span Char.isDigit (Lexeme.maxLength - ((first :: more).length + 1)) r
        rw [hrun, List.nil_append] at hall
        rw [peek?_eq_head?] at hpeek hstop
        rw [hall] at hstop
        exact hstop hpeek
      | cons digit digits =>
        rw [hrun] at h
        cases h
        have hlength := length_span_le Char.isDigit
          (Lexeme.maxLength - ((first :: more).length + 1)) r
        rw [hrun] at hlength
        refine .float hfirst hmore hroom ?_ hlength (by simpa using hstop)
        intro c hc
        rw [← hrun] at hc
        exact accept_of_mem_span hc
  · cases h

/-- A number that has been read ends where the reader behind it begins. -/
private theorem endsAt_of_number {first : Char} (hfirst : first.isDigit) {start : Location}
    {r behind : Reader} {l : Lexeme} (h : number first start r = .ok l behind) :
    l.EndsAt behind := by
  have hmore (c : Char) (hc : c ∈ (r.span Char.isDigit (Lexeme.maxLength - 1)).1) : c.isDigit :=
    accept_of_mem_span hc
  have hroom := length_span_le Char.isDigit (Lexeme.maxLength - 1) r
  unfold number at h
  dsimp only at h
  split at h
  · cases h
  · next hstop =>
    split at h
    · exact endsAt_of_fraction hfirst hmore hroom h
    · next hpoint =>
      split at h
      · next value hvalue =>
        cases h
        refine .int hfirst hmore hroom (by simpa using hstop) ?_ hvalue
        -- a point ahead would have led to the other branch
        intro hpeek
        rw [peek?, Option.map_eq_some_iff] at hpeek
        obtain ⟨⟨c, r'⟩, hp, rfl⟩ := hpeek
        exact hpoint r' hp
      · cases h

/-- A lexeme that has been read ends where the reader behind it begins. -/
theorem endsAt_of_next {r behind : Reader} {l : Lexeme} (h : r.next = .ok l behind) :
    l.EndsAt behind := by
  unfold next at h
  dsimp only at h
  split at h
  · next hp =>
    cases h
    exact .endOfFile hp
  · split at h
    · next hc => exact endsAt_of_number hc h
    · split at h
      · next hc => exact endsAt_of_word hc h
      · split at h
        · next kind hk =>
          cases h
          exact .symbol hk
        · cases h

/-! ## Reading again -/

/-- The first character of a returned lexeme is read first. -/
private theorem next_restore_cons {behind : Reader} {c : Char} {start : Location}
    {run : List (Char × Location)} (hc : isBlank c = false) :
    (behind.restore ((c, start) :: run)).next =
      if c.isDigit then number c start (behind.restore run)
      else if c.isLower then word c start (behind.restore run)
      else
        match Lexeme.Kind.ofSymbol? c with
        | some kind => .ok ⟨kind, String.ofList [c], start⟩ (behind.restore run)
        | none => .error (.invalidCharacter c start) (behind.restore run) := by
  -- the character is no white space, so nothing is skipped
  have hskip : (behind.restore ((c, start) :: run)).skipBlanks =
      behind.restore ((c, start) :: run) :=
    skipBlanks_of_pop? (pop?_restore_cons ..) hc
  unfold next
  cases hkind : Lexeme.Kind.ofSymbol? c with
  | none => simp only [hskip, pop?_restore_cons, here_restore_cons, hkind]
  | some kind => simp only [hskip, pop?_restore_cons, here_restore_cons, hkind]

/-- Characters laid out in two parts; the second one starts where the first one ends. -/
private theorem exists_along_append (l : Location) (text more : List Char) :
    ∃ l' : Location, l.along (text ++ more) = l.along text ++ l'.along more := by
  induction text generalizing l with
  | nil => exact ⟨l, rfl⟩
  | cons c text ih =>
    obtain ⟨l', h⟩ := ih l.right
    exact ⟨l', by simp [Location.along, h]⟩

private theorem forall_mem_along {accept : Char → Bool} {text : List Char}
    (h : ∀ c ∈ text, accept c) (l : Location) : ∀ p ∈ l.along text, accept p.1 := by
  intro p hp
  apply h
  rw [← Location.map_fst_along l text]
  exact List.mem_map_of_mem hp

/-- A lexeme is read again where it ends at the reader behind it. -/
theorem next_unread_of_endsAt {behind : Reader} {l : Lexeme} (h : l.EndsAt behind) :
    (behind.unread l.text l.location).next = .ok l behind := by
  cases h with
  | @word first more start hfirst hmore hroom hstop =>
    rw [unread_eq_restore, String.toList_ofList, Location.along,
      next_restore_cons (isBlank_eq_false (.inl hfirst)),
      if_neg (by simp [isDigit_of_isLower hfirst]), if_pos hfirst, word]
    have hspan := span_restore hstop (forall_mem_along hmore start.right) (Lexeme.maxLength - 1)
      (by simpa using hroom)
    simp [hspan, hstop]
  | @int first more start value hfirst hmore hroom hstop hpoint hvalue =>
    rw [unread_eq_restore, String.toList_ofList, Location.along,
      next_restore_cons (isBlank_eq_false (.inr hfirst)), if_pos hfirst, number]
    have hspan := span_restore hstop (forall_mem_along hmore start.right) (Lexeme.maxLength - 1)
      (by simpa using hroom)
    simp only [hspan, hstop, Location.map_fst_along, Bool.false_eq_true, if_false]
    split
    · -- a point would make it a number with places
      next r' hp => exact absurd (by simp [peek?, hp]) hpoint
    · simp [hvalue]
  | @float first digit more digits start hfirst hmore hroom hdigits hroom' hstop =>
    obtain ⟨point, hlayout⟩ := exists_along_append start.right more ('.' :: digit :: digits)
    rw [unread_eq_restore, String.toList_ofList, List.cons_append, Location.along,
      next_restore_cons (isBlank_eq_false (.inr hfirst)), if_pos hfirst, number, hlayout,
      ← restore_restore, Location.along]
    -- the digits before the point are read up to the point, which is no digit
    have hpoint : (behind.restore
        (('.', point) :: point.right.along (digit :: digits))).peek?.any Char.isDigit = false := by
      simp [peek?]
    have hwhole := span_restore hpoint (forall_mem_along hmore start.right)
      (Lexeme.maxLength - 1) (by simpa using hroom)
    have hfraction := span_restore hstop (forall_mem_along hdigits point.right)
      (Lexeme.maxLength - ((first :: more).length + 1)) (by simpa using hroom')
    have hpeek : (behind.restore (point.right.along (digit :: digits))).peek?.any Char.isDigit := by
      simpa [Location.along, peek?] using hdigits digit List.mem_cons_self
    simp only [hwhole, pop?_restore_cons, peek?, Option.map_some, Location.map_fst_along]
    rw [if_neg (by decide), fraction, if_pos hpeek, hfraction]
    simp [hstop]
  | @symbol c kind start hc =>
    obtain ⟨hdigit, hlower, hblank⟩ := classes_of_ofSymbol? hc
    rw [unread_eq_restore, String.toList_ofList, Location.along, next_restore_cons hblank]
    simp [hdigit, hlower, hc, Location.along]
  | endOfFile hend =>
    -- the end hands back no characters
    have hskip : behind.skipBlanks = behind := skipBlanks_of_pop?_eq_none hend
    change behind.next = _
    simp [next, hskip, hend]

/-- A lexeme that has just been read and is handed back is read again, and leaves the same reader
behind it. -/
theorem next_unread {r behind : Reader} {l : Lexeme} (h : r.next = .ok l behind) :
    (behind.unread l.text l.location).next = .ok l behind :=
  next_unread_of_endsAt (endsAt_of_next h)

/-- The end of the source is read again and again. -/
theorem next_of_endOfFile {r behind : Reader} {l : Lexeme} (h : r.next = .ok l behind)
    (hl : l.kind = .endOfFile) : behind.next = .ok l behind := by
  have hnext := next_unread h
  -- no lexeme but the end is of its kind
  cases endsAt_of_next h with
  | @word first more =>
    unfold Lexeme.Kind.ofWord at hl
    split at hl <;> cases hl
  | int | float => cases hl
  | @symbol c kind start hc =>
    simp only at hl
    subst hl
    unfold Lexeme.Kind.ofSymbol? at hc
    split at hc <;> simp at hc
  | endOfFile => exact hnext

end Reader

end DeskCalc
