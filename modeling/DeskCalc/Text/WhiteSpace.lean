/-!
# White space

The characters with the White_Space property of the Unicode standard, and texts without such
characters at their ends.

Main statement: `exists_ends_of_trimmed` — a text is its trimmed form between white space, and no
white space is left at the ends of that form.
-/

namespace DeskCalc

/-- The ranges of code points with the White_Space property. -/
def whiteSpaceRanges : List (Nat × Nat) :=
  [(0x9, 0xd), (0x20, 0x20), (0x85, 0x85), (0xa0, 0xa0), (0x1680, 0x1680), (0x2000, 0x200a),
    (0x2028, 0x2029), (0x202f, 0x202f), (0x205f, 0x205f), (0x3000, 0x3000)]

/-- Whether a character has the White_Space property. -/
def isWhiteSpace (c : Char) : Bool :=
  whiteSpaceRanges.any fun (first, last) => first ≤ c.toNat && c.toNat ≤ last

/-- A text without the white space at its ends. -/
def trimmed (s : String) : String :=
  let front := s.toList.dropWhile isWhiteSpace
  String.ofList (front.reverse.dropWhile isWhiteSpace).reverse

/-- What is left of a text behind its white space begins with another character. -/
private theorem isWhiteSpace_head?_dropWhile (cs : List Char) {c : Char}
    (h : (cs.dropWhile isWhiteSpace).head? = some c) : isWhiteSpace c = false := by
  have hhead := List.head?_dropWhile_not isWhiteSpace cs
  rwa [h] at hhead

/-- A text is its trimmed form between white space, and no white space is left at the ends of that
form. -/
theorem exists_ends_of_trimmed (s : String) :
    ∃ front back : List Char, s.toList = front ++ (trimmed s).toList ++ back ∧
      front.all isWhiteSpace ∧ back.all isWhiteSpace ∧
      (∀ c, (trimmed s).toList.head? = some c → isWhiteSpace c = false) ∧
      ∀ c, (trimmed s).toList.getLast? = some c → isWhiteSpace c = false := by
  generalize hinner : s.toList.dropWhile isWhiteSpace = inner
  have hfront : s.toList.takeWhile isWhiteSpace ++ inner = s.toList := by
    rw [← hinner]
    exact List.takeWhile_append_dropWhile
  have htrimmed : (trimmed s).toList = (inner.reverse.dropWhile isWhiteSpace).reverse := by
    rw [trimmed, hinner, String.toList_ofList]
  have hback : (trimmed s).toList ++ (inner.reverse.takeWhile isWhiteSpace).reverse = inner := by
    rw [htrimmed, ← List.reverse_append, List.takeWhile_append_dropWhile, List.reverse_reverse]
  refine ⟨s.toList.takeWhile isWhiteSpace, (inner.reverse.takeWhile isWhiteSpace).reverse, ?_,
    List.all_takeWhile, ?_, ?_, ?_⟩
  · rw [List.append_assoc, hback, hfront]
  · rw [List.all_reverse]
    exact List.all_takeWhile
  · -- what begins the trimmed form began what was left before its end was cut off
    intro c hc
    apply isWhiteSpace_head?_dropWhile s.toList
    rw [hinner, ← hback, List.head?_append, hc]
    rfl
  · intro c hc
    apply isWhiteSpace_head?_dropWhile inner.reverse
    rwa [htrimmed, List.getLast?_reverse] at hc

end DeskCalc
