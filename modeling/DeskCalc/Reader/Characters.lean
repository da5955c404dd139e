import DeskCalc.Reader

/-!
# The characters of a reader

What a reader reads depends on one list of characters only, whether they were handed back or come
from the source. Each operation of a reader is an operation on that list.

Main statements: `Reader.fst_span` and `Reader.chars_span` — a run is the longest accepted one that
has room, and the characters behind it are left; `Reader.chars_skipBlanks` — exactly the white space
in front is dropped; `Reader.chars_unread` — characters handed back are read next.
-/

namespace DeskCalc.Reader

/-! ## One character -/

@[simp] theorem chars_ofString (source : String) : (ofString source).chars = source.toList := rfl

/-- The size of a reader is the number of its characters. -/
theorem size_eq_length_chars (r : Reader) : r.size = r.chars.length := by
  simp [size, chars]

/-- Reading a character takes it from the front. -/
theorem chars_of_pop? {r behind : Reader} {c : Char} (h : r.pop? = some (c, behind)) :
    r.chars = c :: behind.chars := by
  unfold pop? at h
  split at h <;> simp only [Option.some.injEq, Prod.mk.injEq, reduceCtorEq] at h
  · obtain ⟨rfl, rfl⟩ := h
    simp_all [chars]
  · obtain ⟨rfl, rfl⟩ := h
    simp_all [chars]

/-- There is nothing to read exactly if there are no characters. -/
theorem pop?_eq_none_iff {r : Reader} : r.pop? = none ↔ r.chars = [] := by
  constructor
  · intro h
    unfold pop? at h
    split at h <;> simp_all [chars]
  · intro h
    match hp : r.pop? with
    | none => rfl
    | some (c, behind) => simp [chars_of_pop? hp] at h

/-- The next character is the first one. -/
theorem peek?_eq_head? (r : Reader) : r.peek? = r.chars.head? := by
  unfold peek?
  match hp : r.pop? with
  | none => simp [pop?_eq_none_iff.1 hp]
  | some (c, behind) => simp [chars_of_pop? hp]

/-! ## Runs of characters -/

/-- A run is the longest one that is accepted and has room. -/
theorem fst_span (accept : Char → Bool) (room : Nat) (r : Reader) :
    (r.span accept room).1 = (r.chars.take room).takeWhile accept := by
  induction room generalizing r with
  | zero => simp [span]
  | succ room ih =>
    unfold span
    split
    · next c behind hp =>
      rw [chars_of_pop? hp, List.take_succ_cons, List.takeWhile_cons]
      split
      · simp [ih]
      · rfl
    · next hp => simp [pop?_eq_none_iff.1 hp]

/-- No character is lost between a run and what is left behind it. -/
theorem chars_span (accept : Char → Bool) (room : Nat) (r : Reader) :
    (r.span accept room).1 ++ (r.span accept room).2.chars = r.chars := by
  induction room generalizing r with
  | zero => simp [span]
  | succ room ih =>
    unfold span
    split
    · next c behind hp =>
      rw [chars_of_pop? hp]
      split
      · simp [ih]
      · simp [chars_of_pop? hp]
    · simp

/-- Exactly the white space in front is dropped. -/
theorem chars_skipBlanks (r : Reader) : r.skipBlanks.chars = r.chars.dropWhile isBlank := by
  fun_induction skipBlanks r with
  | case1 r c behind hp hsize hc ih =>
    rw [ih, chars_of_pop? hp, List.dropWhile_cons, if_pos hc]
  | case2 r c behind hp hsize hc =>
    rw [chars_of_pop? hp, List.dropWhile_cons, if_neg hc]
  | case3 r hp => simp [pop?_eq_none_iff.1 hp]

/-! ## Handing back -/

/-- Characters handed back are read next. -/
@[simp] theorem chars_unread (r : Reader) (text : String) (location : Location) :
    (r.unread text location).chars = text.toList ++ r.chars := by
  simp [unread, chars]

/-- Handing characters back does not move the reader in the source. -/
@[simp] theorem position_unread (r : Reader) (text : String) (location : Location) :
    (r.unread text location).position = r.position := rfl

end DeskCalc.Reader
