import Mathlib.Data.List.Chain
import DeskCalc.Proofs.Rereading

/-!
# Handing back several lexemes

Lexemes that were read one after the other are handed back, the last one first, and lie in front of
the reader without the white space that stood between them. So they can run together: two words
become one, and so do two numbers. Nothing else continues a lexeme, so all other lexemes are read
again as they were.

Main statements: `Reader.chars_of_next` — reading loses nothing but white space — and
`Reader.nextMany_unreadAll_iff`.
-/

namespace DeskCalc

theorem isLower_of_isDigit {c : Char} (h : c.isDigit) : c.isLower = false := by
  by_contra hlower
  rw [isDigit_of_isLower (by simpa using hlower)] at h
  cases h

theorem ne_point_of_class {c : Char} (h : c.isLower ∨ c.isDigit) : c ≠ '.' := by
  rintro rfl
  exact absurd h (by decide)

/-! ## Lexemes that run together -/

namespace Lexeme

/-- The lexeme is a run of letters. -/
def Kind.isWord : Kind → Bool
  | floatKeyword | intKeyword | printKeyword | identifier => true
  | assign | operator _ | number _ | endOfFile => false

def Kind.isNumber : Kind → Bool
  | number _ => true
  | _ => false

/-- Without white space between them the lexemes would be read as one. -/
def RunsInto (l next : Lexeme) : Prop :=
  (l.kind.isWord ∧ next.kind.isWord) ∨ (l.kind.isNumber ∧ next.kind.isNumber)

instance (l next : Lexeme) : Decidable (l.RunsInto next) := inferInstanceAs (Decidable (_ ∨ _))

private theorem isWord_ofWord (word : List Char) : (Kind.ofWord word).isWord = true := by
  unfold Kind.ofWord
  split <;> rfl

private theorem isNumber_ofWord (word : List Char) : (Kind.ofWord word).isNumber = false := by
  unfold Kind.ofWord
  split <;> rfl

/-- A character that is a lexeme by itself makes neither a word nor a number nor the end. -/
private theorem kind_of_ofSymbol? {c : Char} {k : Kind} (h : Kind.ofSymbol? c = some k) :
    k.isWord = false ∧ k.isNumber = false ∧ k ≠ .endOfFile := by
  unfold Kind.ofSymbol? at h
  split at h
  · cases h
    exact ⟨rfl, rfl, nofun⟩
  · obtain ⟨op, _, rfl⟩ := Option.map_eq_some_iff.1 h
    exact ⟨rfl, rfl, nofun⟩

variable {l : Lexeme} {r r' : Reader}

/-- The first character of a lexeme tells whether it is a word or a number. A point is the first
character of none. -/
private theorem EndsAt.first (h : l.EndsAt r) :
    l.text.toList.head?.any Char.isLower = l.kind.isWord ∧
      l.text.toList.head?.any Char.isDigit = l.kind.isNumber ∧
      l.text.toList.head? ≠ some '.' := by
  cases h with
  | word hfirst =>
    simp [hfirst, isDigit_of_isLower hfirst, isWord_ofWord, isNumber_ofWord,
      ne_point_of_class (.inl hfirst)]
  | int hfirst =>
    simp [hfirst, isLower_of_isDigit hfirst, Kind.isWord, Kind.isNumber,
      ne_point_of_class (.inr hfirst)]
  | float hfirst =>
    simp [hfirst, isLower_of_isDigit hfirst, Kind.isWord, Kind.isNumber,
      ne_point_of_class (.inr hfirst)]
  | @symbol c kind start hc =>
    obtain ⟨hdigit, hlower, _⟩ := classes_of_ofSymbol? hc
    obtain ⟨hword, hnumber, _⟩ := kind_of_ofSymbol? hc
    have hpoint : c ≠ '.' := by
      rintro rfl
      cases hc
    -- a character that is a lexeme by itself is of no class, and none is a point
    simp [hdigit, hlower, hword, hnumber, hpoint]
  | endOfFile => exact ⟨rfl, rfl, nofun⟩

/-- A lexeme with a character is not the end, and begins with no white space. -/
theorem EndsAt.cons_of_ne_endOfFile (h : l.EndsAt r) (hl : l.kind ≠ .endOfFile) :
    ∃ c cs, l.text.toList = c :: cs ∧ isBlank c = false := by
  cases h with
  | word hfirst => exact ⟨_, _, String.toList_ofList, isBlank_eq_false (.inl hfirst)⟩
  | int hfirst => exact ⟨_, _, String.toList_ofList, isBlank_eq_false (.inr hfirst)⟩
  | float hfirst => exact ⟨_, _, String.toList_ofList, isBlank_eq_false (.inr hfirst)⟩
  | symbol hc => exact ⟨_, _, String.toList_ofList, (classes_of_ofSymbol? hc).2.2⟩
  | endOfFile => exact absurd rfl hl

theorem EndsAt.eq_endOfFile (h : l.EndsAt r) (hl : l.kind = .endOfFile) :
    r.pop? = none ∧ l = Lexeme.endOfFile r.here := by
  cases h with
  | @word first more =>
    -- a word is a keyword or a name, never the end
    have hword := isWord_ofWord (first :: more)
    rw [show Kind.ofWord (first :: more) = .endOfFile from hl] at hword
    cases hword
  | int => cases hl
  | float => cases hl
  | symbol hc => exact absurd hl (kind_of_ofSymbol? hc).2.2
  | endOfFile hend => exact ⟨hend, rfl⟩

/-- What follows a lexeme does not continue it. -/
private theorem EndsAt.stops (h : l.EndsAt r) :
    (l.kind.isWord → r.peek?.any Char.isLower = false) ∧
      (l.kind.isNumber → r.peek?.any Char.isDigit = false) ∧
      ∀ v, l.kind = .number (.int v) → r.peek? ≠ some '.' := by
  cases h with
  | @word first more _ _ _ _ hstop =>
    -- a word is no number, so only what goes on with a word is asked for
    have hnumber := isNumber_ofWord (first :: more)
    refine ⟨fun _ => hstop, fun h => ?_, fun v h => ?_⟩
    · rw [hnumber] at h
      cases h
    · rw [show Kind.ofWord (first :: more) = _ from h] at hnumber
      cases hnumber
  | int _ _ _ hstop hpoint => exact ⟨nofun, fun _ => hstop, fun _ _ => hpoint⟩
  | float _ _ _ _ _ hstop => exact ⟨nofun, fun _ => hstop, nofun⟩
  | @symbol c kind start hc =>
    obtain ⟨hword, hnumber, _⟩ := kind_of_ofSymbol? hc
    refine ⟨fun h => ?_, fun h => ?_, fun v h => ?_⟩
    · rw [hword] at h
      cases h
    · rw [hnumber] at h
      cases h
    · rw [show kind = _ from h] at hnumber
      cases hnumber
  | endOfFile => exact ⟨nofun, nofun, nofun⟩

/-- A lexeme ends at any reader that does not continue it. -/
theorem EndsAt.of_stops (h : l.EndsAt r) (hl : l.kind ≠ .endOfFile)
    (hword : l.kind.isWord → r'.peek?.any Char.isLower = false)
    (hnumber : l.kind.isNumber → r'.peek?.any Char.isDigit = false)
    (hpoint : ∀ v, l.kind = .number (.int v) → r'.peek? ≠ some '.') : l.EndsAt r' := by
  -- how a lexeme was read does not depend on the reader, only where it stops does
  cases h with
  | word hfirst hmore hroom => exact .word hfirst hmore hroom (hword (isWord_ofWord _))
  | int hfirst hmore hroom _ _ hvalue =>
    exact .int hfirst hmore hroom (hnumber rfl) (hpoint _ rfl) hvalue
  | float hfirst hmore hroom hdigits hroom' =>
    exact .float hfirst hmore hroom hdigits hroom' (hnumber rfl)
  | symbol hc => exact .symbol hc
  | endOfFile => exact absurd rfl hl

end Lexeme

namespace Reader

variable {l : Lexeme} {ls : List Lexeme} {r behind r' : Reader}

/-! ## Nothing but white space is lost -/

private theorem chars_of_word {first : Char} {start : Location}
    (h : word first start r = .ok l behind) : l.text.toList ++ behind.chars = first :: r.chars := by
  unfold word at h
  dsimp only at h
  split at h
  · cases h
  · cases h
    simp [chars_span]

private theorem chars_of_fraction {whole : List Char} {start : Location}
    (h : fraction whole start r = .ok l behind) :
    l.text.toList ++ behind.chars = whole ++ '.' :: r.chars := by
  unfold fraction at h
  dsimp only at h
  split at h
  · split at h
    · cases h
    · cases h
      simp [chars_span]
  · cases h

private theorem chars_of_number {first : Char} {start : Location}
    (h : number first start r = .ok l behind) :
    l.text.toList ++ behind.chars = first :: r.chars := by
  have hspan := chars_span Char.isDigit (Lexeme.maxLength - 1) r
  unfold number at h
  dsimp only at h
  -- with a point the digits in front are part of the text of a fraction
  split at h
  · cases h
  · split at h
    · next middle hp =>
      rw [chars_of_fraction h, ← hspan, chars_of_pop? hp, List.cons_append]
    · split at h
      · cases h
        simp [hspan]
      · cases h

/-- Behind white space, the characters to be read are those of the next lexeme and then those that
it leaves. -/
theorem chars_of_next (h : r.next = .ok l behind) :
    r.chars.dropWhile isBlank = l.text.toList ++ behind.chars := by
  rw [← chars_skipBlanks]
  unfold next at h
  dsimp only at h
  -- the same choices as in reading, by the first character behind white space
  split at h
  · cases h
    rfl
  · next c middle hp =>
    rw [chars_of_pop? hp]
    split at h
    · exact (chars_of_number h).symm
    · split at h
      · exact (chars_of_word h).symm
      · split at h
        · cases h
          simp
        · cases h

/-! ## Reading and handing back one after the other -/

/-- The next `n` lexemes. -/
def nextMany : Nat → Reader → Outcome (List Lexeme)
  | 0, r => .ok [] r
  | n + 1, r =>
    match r.next with
    | .error e behind => .error e behind
    | .ok l behind =>
      match nextMany n behind with
      | .error e after => .error e after
      | .ok ls after => .ok (l :: ls) after

/-- Hand lexemes back, the last one first. -/
def unreadAll (r : Reader) (ls : List Lexeme) : Reader :=
  ls.foldr (fun l r => r.unread l.text l.location) r

private theorem unreadAll_cons (r : Reader) (l : Lexeme) (ls : List Lexeme) :
    r.unreadAll (l :: ls) = (r.unreadAll ls).unread l.text l.location := rfl

private theorem nextMany_zero_iff : r.nextMany 0 = .ok ls r' ↔ ls = [] ∧ r' = r := by
  simp [nextMany, eq_comm]

private theorem nextMany_succ_iff {n : Nat} : r.nextMany (n + 1) = .ok ls r' ↔
    ∃ l more behind, ls = l :: more ∧ r.next = .ok l behind ∧ behind.nextMany n = .ok more r' := by
  rw [nextMany]
  constructor
  · intro h
    split at h
    · cases h
    · next l behind hl =>
      split at h
      · cases h
      · next more after hmore =>
        cases h
        exact ⟨l, more, behind, rfl, hl, hmore⟩
  · intro h
    obtain ⟨l, more, behind, rfl, hl, hmore⟩ := h
    simp only [hl, hmore]

/-- At the end of the source only the end is read, and handing it back changes nothing. -/
private theorem unreadAll_of_endOfFile (h : r.next = .ok l behind) (hl : l.kind = .endOfFile)
    {n : Nat} (hls : behind.nextMany n = .ok ls r') : r' = behind ∧ r'.unreadAll ls = behind := by
  induction n generalizing ls with
  | zero =>
    obtain ⟨rfl, rfl⟩ := nextMany_zero_iff.1 hls
    exact ⟨rfl, rfl⟩
  | succ n ih =>
    obtain ⟨l', more, behind', rfl, hnext, hmore⟩ := nextMany_succ_iff.1 hls
    -- the end is read again, and no reader moves
    cases (next_of_endOfFile h hl).symm.trans hnext
    obtain ⟨hr', hunread⟩ := ih hmore
    obtain ⟨_, rfl⟩ := (endsAt_of_next h).eq_endOfFile hl
    refine ⟨hr', ?_⟩
    rw [unreadAll_cons, hunread]
    rfl

/-- What is read first where lexemes were handed back is the first character of the first of
them. -/
private theorem peek?_unreadAll (h : r.next = .ok l behind) {n : Nat}
    (hls : behind.nextMany n = .ok ls r') :
    (r'.unreadAll (l :: ls)).peek? = l.text.toList.head? := by
  rw [peek?_eq_head?, unreadAll_cons, chars_unread]
  -- the end has no character, but then nothing else was read either
  by_cases hl : l.kind = .endOfFile
  · obtain ⟨hend, rfl⟩ := (endsAt_of_next h).eq_endOfFile hl
    rw [(unreadAll_of_endOfFile h hl hls).2, pop?_eq_none_iff.1 hend]
    rfl
  · obtain ⟨c, cs, htext, _⟩ := (endsAt_of_next h).cons_of_ne_endOfFile hl
    simp [htext]

/-- A lexeme that was read ends where those read behind it were handed back unless it runs into the
first of them. -/
private theorem endsAt_unreadAll_iff (h : r.next = .ok l behind) {n : Nat}
    (hls : behind.nextMany n = .ok ls r') :
    l.EndsAt (r'.unreadAll ls) ↔ ∀ next ∈ ls.head?, ¬ l.RunsInto next := by
  have hends := endsAt_of_next h
  by_cases hl : l.kind = .endOfFile
  · -- the end runs into nothing, and it comes again and again
    have hnever (next : Lexeme) : ¬ l.RunsInto next := by
      simp [Lexeme.RunsInto, hl, Lexeme.Kind.isWord, Lexeme.Kind.isNumber]
    rw [(unreadAll_of_endOfFile h hl hls).2]
    exact ⟨fun _ next _ => hnever next, fun _ => hends⟩
  cases n with
  | zero =>
    obtain ⟨rfl, rfl⟩ := nextMany_zero_iff.1 hls
    exact ⟨fun _ => nofun, fun _ => hends⟩
  | succ n =>
    obtain ⟨next, more, middle, rfl, hnext, hmore⟩ := nextMany_succ_iff.1 hls
    -- the first character of what was read next tells whether it goes on with `l`
    obtain ⟨hlower, hdigit, hpoint⟩ := (endsAt_of_next hnext).first
    rw [← peek?_unreadAll hnext hmore] at hlower hdigit hpoint
    simp only [List.head?_cons, Option.mem_some_iff, forall_eq', Lexeme.RunsInto, not_or, not_and,
      Bool.not_eq_true]
    constructor
    · intro hagain
      obtain ⟨hword, hnumber, _⟩ := hagain.stops
      rw [hlower] at hword
      rw [hdigit] at hnumber
      exact ⟨hword, hnumber⟩
    · intro hapart
      refine hends.of_stops hl ?_ ?_ fun _ _ => hpoint
      · rw [hlower]
        exact hapart.1
      · rw [hdigit]
        exact hapart.2

/-- A lexeme that is handed back is read again exactly if it ends where the reader begins, and then
it leaves that reader. -/
private theorem next_unread_iff (hl : l.kind ≠ .endOfFile) :
    (r.unread l.text l.location).next = .ok l behind ↔ l.EndsAt r ∧ behind = r := by
  constructor
  · intro h
    have hends := endsAt_of_next h
    -- the reader left has the same characters, so the lexeme ends at the one before as well
    have hchars : behind.chars = r.chars := by
      obtain ⟨c, cs, htext, hc⟩ := hends.cons_of_ne_endOfFile hl
      have hall := chars_of_next h
      rw [chars_unread, htext, List.cons_append, List.dropWhile_cons, if_neg (by simp [hc])] at hall
      exact (List.append_cancel_left (List.cons.inj hall).2).symm
    have hpeek : r.peek? = behind.peek? := by rw [peek?_eq_head?, peek?_eq_head?, hchars]
    have hagain : l.EndsAt r := by
      obtain ⟨hword, hnumber, hpoint⟩ := hends.stops
      rw [← hpeek] at hword hnumber hpoint
      exact hends.of_stops hl hword hnumber hpoint
    cases (next_unread_of_endsAt hagain).symm.trans h
    exact ⟨hagain, rfl⟩
  · rintro ⟨hends, rfl⟩
    exact next_unread_of_endsAt hends

/-- Lexemes handed back are read again exactly if the first of them ends at the others and these are
read again. -/
private theorem nextMany_unreadAll_cons_iff {n : Nat} (h : r.next = .ok l behind)
    (hls : behind.nextMany n = .ok ls r') :
    (r'.unreadAll (l :: ls)).nextMany (n + 1) = .ok (l :: ls) r' ↔
      l.EndsAt (r'.unreadAll ls) ∧ (r'.unreadAll ls).nextMany n = .ok ls r' := by
  rw [nextMany_succ_iff, unreadAll_cons]
  by_cases hl : l.kind = .endOfFile
  · obtain ⟨hend, heq⟩ := (endsAt_of_next h).eq_endOfFile hl
    have htext : l.text = "" := by rw [heq]; rfl
    -- handing the end back changes nothing, so it is read again in any case
    rw [(unreadAll_of_endOfFile h hl hls).2, htext]
    exact iff_of_true ⟨l, ls, behind, rfl, next_of_endOfFile h hl, hls⟩ ⟨endsAt_of_next h, hls⟩
  · constructor
    · intro hagain
      obtain ⟨_, _, middle, hcons, hnext, hmore⟩ := hagain
      cases hcons
      obtain ⟨hends, rfl⟩ := (next_unread_iff hl).1 hnext
      exact ⟨hends, hmore⟩
    · rintro ⟨hends, hmore⟩
      exact ⟨l, ls, _, rfl, (next_unread_iff hl).2 ⟨hends, rfl⟩, hmore⟩

/-- The lexeme that was read last is read again. -/
private theorem next_unread_of_getLast? {n : Nat} (h : r.nextMany n = .ok ls r')
    (hl : ls.getLast? = some l) : (r'.unread l.text l.location).next = .ok l r' := by
  induction n generalizing r ls with
  | zero =>
    obtain ⟨rfl, _⟩ := nextMany_zero_iff.1 h
    cases hl
  | succ n ih =>
    obtain ⟨first, more, behind, rfl, hfirst, hmore⟩ := nextMany_succ_iff.1 h
    cases more with
    | nil =>
      cases hl
      -- there is one lexeme only, since none is read behind it
      cases n with
      | zero =>
        obtain ⟨_, rfl⟩ := nextMany_zero_iff.1 hmore
        exact next_unread hfirst
      | succ n =>
        obtain ⟨_, _, _, hcons, _⟩ := nextMany_succ_iff.1 hmore
        cases hcons
    | cons second more =>
      rw [List.getLast?_cons_cons] at hl
      exact ih hmore hl

/-- Read `n` lexemes from any reader and hand all of them back. They are read again, and leave the
same reader behind them, exactly if none of them runs into the next one. The last of them alone is
always read again. -/
theorem nextMany_unreadAll_iff {n : Nat} (h : r.nextMany n = .ok ls r') :
    ((r'.unreadAll ls).nextMany n = .ok ls r' ↔ ls.IsChain fun l next => ¬ l.RunsInto next) ∧
      ∀ l, ls.getLast? = some l → (r'.unread l.text l.location).next = .ok l r' := by
  refine ⟨?_, fun l hl => next_unread_of_getLast? h hl⟩
  induction n generalizing r ls with
  | zero =>
    obtain ⟨rfl, rfl⟩ := nextMany_zero_iff.1 h
    exact iff_of_true rfl .nil
  | succ n ih =>
    obtain ⟨l, more, behind, rfl, hl, hmore⟩ := nextMany_succ_iff.1 h
    -- the chain grows by one condition: the first lexeme does not run into the second
    rw [nextMany_unreadAll_cons_iff hl hmore, endsAt_unreadAll_iff hl hmore, ih hmore,
      List.isChain_cons]

/-- A word in front of a number is read again, and a number in front of a number is not. -/
theorem nextMany_unreadAll_of_numbers :
    let r := (ofString " 7 8").unread "ab" ⟨1, 5⟩
    let ab : Lexeme := ⟨.identifier, "ab", ⟨1, 5⟩⟩
    let seven : Lexeme := ⟨.number (.int 7), "7", ⟨1, 2⟩⟩
    let eight : Lexeme := ⟨.number (.int 8), "8", ⟨1, 4⟩⟩
    (∃ r', r.nextMany 2 = .ok [ab, seven] r' ∧
      (r'.unreadAll [ab, seven]).nextMany 2 = .ok [ab, seven] r') ∧
    ∃ r', r.nextMany 3 = .ok [ab, seven, eight] r' ∧
      (r'.unreadAll [ab, seven, eight]).nextMany 3 ≠ .ok [ab, seven, eight] r' ∧
      (r'.unread eight.text eight.location).next = .ok eight r' := by
  intro r ab seven eight
  have htwo : r.nextMany 2 = .ok [ab, seven] ⟨[], [' ', '8'], ⟨1, 3⟩⟩ := by
    decide +kernel
  have hthree : r.nextMany 3 = .ok [ab, seven, eight] ⟨[], [], ⟨1, 5⟩⟩ := by decide +kernel
  obtain ⟨hagain, hlast⟩ := nextMany_unreadAll_iff hthree
  refine ⟨⟨_, htwo, (nextMany_unreadAll_iff htwo).1.2 (by decide)⟩, _, hthree, ?_, hlast eight rfl⟩
  rw [Ne, hagain]
  decide

end Reader

end DeskCalc
