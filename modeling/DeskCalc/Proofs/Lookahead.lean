import DeskCalc.Grammar.Reading
import DeskCalc.Proofs.Rereading

/-!
# Lexemes that lie ahead

The parser reads lexemes on demand and hands back those that it has read too far. What it consumes
is described up to such returns: a returned lexeme is read again, so a reader that it was returned
to is as good as the reader before it was read.

Main statements: `Reader.tokenize_eq_ok_iff`, `Reader.tokenize_eq_error_iff` and
`Cursor.reader_next_unread`.
-/

namespace DeskCalc

/-! ## Lexemes that lie ahead -/

/-- From `r` on, the lexemes `ls` are read, none of them the end, and what is read next is what is
read from `r'` on. -/
def Reader.Reads (r : Reader) (ls : List Lexeme) (r' : Reader) : Prop :=
  match ls with
  | [] => r.next = r'.next
  | l :: ls => ∃ behind, r.next = .ok l behind ∧ l.kind ≠ .endOfFile ∧ behind.Reads ls r'

namespace Reader.Reads

theorem refl (r : Reader) : r.Reads [] r := rfl

/-- What is read depends on the next lexeme only. -/
theorem of_next_eq {r middle r' : Reader} {ls : List Lexeme} (h : r.next = middle.next)
    (hls : middle.Reads ls r') : r.Reads ls r' := by
  cases ls with
  | nil => exact h.trans hls
  | cons l ls =>
    obtain ⟨behind, hnext, hl, hrest⟩ := hls
    exact ⟨behind, h.trans hnext, hl, hrest⟩

theorem append {r middle r' : Reader} {ls more : List Lexeme} (h : r.Reads ls middle)
    (hmore : middle.Reads more r') : r.Reads (ls ++ more) r' := by
  induction ls generalizing r with
  | nil => exact of_next_eq h hmore
  | cons l ls ih =>
    obtain ⟨behind, hnext, hl, hrest⟩ := h
    exact ⟨behind, hnext, hl, ih hrest⟩

theorem exists_of_append {r r' : Reader} {ls more : List Lexeme} (h : r.Reads (ls ++ more) r') :
    ∃ middle, r.Reads ls middle ∧ middle.Reads more r' := by
  induction ls generalizing r with
  | nil => exact ⟨r, refl r, h⟩
  | cons l ls ih =>
    obtain ⟨behind, hnext, hl, hrest⟩ := h
    obtain ⟨middle, hls, hmore⟩ := ih hrest
    exact ⟨middle, ⟨behind, hnext, hl, hls⟩, hmore⟩

end Reader.Reads

namespace Reader

theorem tokenize_of_end {r behind : Reader} {l : Lexeme} (h : r.next = .ok l behind)
    (hl : l.kind = .endOfFile) : r.tokenize = .ok [l] behind := by
  rw [tokenize]
  split
  · next h' => cases h.symm.trans h'
  · next h' =>
    cases h.symm.trans h'
    rw [dif_pos hl]

theorem tokenize_of_error {r behind : Reader} {e : LexicalError} (h : r.next = .error e behind) :
    r.tokenize = .error e behind := by
  rw [tokenize]
  split
  · next h' =>
    cases h.symm.trans h'
    rfl
  · next h' => cases h.symm.trans h'

theorem tokenize_of_next {r behind : Reader} {l : Lexeme} (h : r.next = .ok l behind)
    (hl : l.kind ≠ .endOfFile) :
    r.tokenize =
      match behind.tokenize with
      | .ok ls after => .ok (l :: ls) after
      | .error e after => .error e after := by
  rw [tokenize]
  split
  · next h' => cases h.symm.trans h'
  · next h' =>
    cases h.symm.trans h'
    exact dif_neg hl

/-- Reading to the end gives the lexemes that lie ahead and then the end. -/
theorem tokenize_eq_ok_iff {r final : Reader} {all : List Lexeme} :
    r.tokenize = .ok all final ↔
      ∃ ls l middle, all = ls ++ [l] ∧ r.Reads ls middle ∧ middle.next = .ok l final ∧
        l.kind = .endOfFile := by
  constructor
  · intro h
    fun_induction tokenize r generalizing all with
    | case1 => cases h
    | case2 r l behind hnext hl =>
      -- the end comes first: nothing lies before it
      cases h
      exact ⟨[], l, r, rfl, .refl r, hnext, hl⟩
    | case3 r l behind hnext hl _ ls after hrest ih =>
      -- a lexeme and then what the rest of the source has
      cases h
      obtain ⟨ls', last, middle, rfl, hreads, hlast, hkind⟩ := ih hrest
      exact ⟨l :: ls', last, middle, rfl, ⟨behind, hnext, hl, hreads⟩, hlast, hkind⟩
    | case4 => cases h
  · intro h
    obtain ⟨ls, l, middle, rfl, hreads, hnext, hl⟩ := h
    induction ls generalizing r with
    -- nothing lies before the end, where both readers read the same
    | nil => exact tokenize_of_end (hreads.trans hnext) hl
    | cons l' ls ih =>
      obtain ⟨behind, hnext', hl', hrest⟩ := hreads
      rw [tokenize_of_next hnext' hl', ih hrest]
      rfl

/-- Reading to the end fails at the error that comes behind some lexemes. -/
theorem tokenize_eq_error_iff {r final : Reader} {e : LexicalError} :
    r.tokenize = .error e final ↔
      ∃ ls middle, r.Reads ls middle ∧ middle.next = .error e final := by
  constructor
  · intro h
    fun_induction tokenize r with
    -- the error comes first, or behind a lexeme and what is read behind that
    | case1 r e' behind hnext =>
      cases h
      exact ⟨[], r, .refl r, hnext⟩
    | case2 => cases h
    | case3 => cases h
    | case4 r l behind hnext hl _ e' after hrest ih =>
      cases h
      obtain ⟨ls, middle, hreads, herror⟩ := ih hrest
      exact ⟨l :: ls, middle, ⟨behind, hnext, hl, hreads⟩, herror⟩
  · intro h
    obtain ⟨ls, middle, hreads, herror⟩ := h
    induction ls generalizing r with
    | nil => exact tokenize_of_error (hreads.trans herror)
    | cons l ls ih =>
      obtain ⟨behind, hnext, hl, hrest⟩ := hreads
      rw [tokenize_of_next hnext hl, ih hrest]

end Reader

/-! ## Cursors -/

/-- No name among the lexemes is too long. -/
def NamesFit (ls : List Lexeme) : Prop :=
  ∀ l ∈ ls, l.kind = .identifier → l.text.length ≤ maxNameLength

theorem namesFit_append {ls more : List Lexeme} :
    NamesFit (ls ++ more) ↔ NamesFit ls ∧ NamesFit more := by
  simp only [NamesFit, List.mem_append, or_imp, forall_and]

theorem namesFit_cons {l : Lexeme} {ls : List Lexeme} :
    NamesFit (l :: ls) ↔ (l.kind = .identifier → l.text.length ≤ maxNameLength) ∧ NamesFit ls := by
  simp only [NamesFit, List.mem_cons, forall_eq_or_imp]

namespace Cursor

/-- Between the cursors the lexemes `ls` were consumed, in which no name is too long. -/
def Consumed (c : Cursor) (ls : List Lexeme) (c' : Cursor) : Prop :=
  c.reader.Reads ls c'.reader ∧ NamesFit ls

theorem next_eq_ok_iff {c c' : Cursor} {l : Lexeme} :
    c.next = .ok l c' ↔ c.reader.next = .ok l c'.reader ∧ c'.obtained = l :: c.obtained := by
  unfold next
  split
  · next l' r h =>
    constructor
    · intro hc
      cases hc
      exact ⟨h, rfl⟩
    · intro hc
      obtain ⟨hr, ho⟩ := hc
      -- the reader goes on in one way, and the cursor notes the lexeme
      cases h.symm.trans hr
      rw [← ho]
  · next e r h => simp [h]

/-- A lexeme handed back lies ahead again. -/
theorem reader_next_unread {c c' : Cursor} {l : Lexeme} (h : c.next = .ok l c') :
    (c'.unread l).reader.next = c.reader.next := by
  have hr := (next_eq_ok_iff.1 h).1
  rw [hr]
  exact Reader.next_unread hr

end Cursor

namespace Cursor.Consumed

theorem nil {c c' : Cursor} (h : c'.reader.next = c.reader.next) : c.Consumed [] c' :=
  ⟨h.symm, by simp [NamesFit]⟩

theorem append {c middle c' : Cursor} {ls more : List Lexeme} (h : c.Consumed ls middle)
    (hmore : middle.Consumed more c') : c.Consumed (ls ++ more) c' :=
  ⟨h.1.append hmore.1, namesFit_append.2 ⟨h.2, hmore.2⟩⟩

/-- A lexeme was consumed and then others. -/
theorem cons {c middle c' : Cursor} {l : Lexeme} {ls : List Lexeme} (h : c.next = .ok l middle)
    (hl : l.kind ≠ .endOfFile) (hfit : l.kind = .identifier → l.text.length ≤ maxNameLength)
    (hls : middle.Consumed ls c') : c.Consumed (l :: ls) c' :=
  ⟨⟨_, (next_eq_ok_iff.1 h).1, hl, hls.1⟩, namesFit_cons.2 ⟨hfit, hls.2⟩⟩

end Cursor.Consumed

end DeskCalc
