import DeskCalc.Grammar.Reading

/-!
# Rounds of the loops of the parser

The loops over operators, declarations and statements carry along why they end. Without that each of
them is a sequence of parses: the next lexeme is read, and it tells what is read behind it and
whether the loop goes on.

Main statements: `Parse.termTail_eq`, `Parse.expression_eq`, `Parse.declarations_eq` and
`Parse.statements_eq`.
-/

namespace DeskCalc

/-! ## Replies one after the other -/

namespace Reply

variable {α β : Type} {x : Reply α} {f : α → Cursor → Reply β} {c : Cursor}

/-- Go on behind a success. -/
def andThen (x : Reply α) (f : α → Cursor → Reply β) : Reply β :=
  match x with
  | .ok a c => f a c
  | .error e c => .error e c

theorem andThen_of_ok {a : α} (h : x = .ok a c) : andThen x f = f a c := by
  rw [h, andThen]

theorem andThen_of_error {e : ParseError} (h : x = .error e c) : andThen x f = .error e c := by
  rw [h, andThen]

end Reply

open Reply (andThen_of_ok andThen_of_error)

namespace Parse

theorem bind_apply {α β : Type} (p : Parse α) (f : α → Parse β) (c : Cursor) :
    (p >>= f) c = Reply.andThen (p c) f := by
  change EStateM.bind p f c = _
  unfold EStateM.bind
  -- the library names the same choice in its own way
  cases p c <;> rfl

/-! ## A round of each loop

The proofs follow the cases of the loops from the outside to the inside. In each of them what a parse
replies is known, so going on behind it is one equation.
-/

theorem termTail_eq (left : Expr) (c : Cursor) :
    termTail left c = c.next.andThen fun l behind =>
      match l.kind with
      | .operator op =>
        if op.bindsTight then
          Reply.andThen (value behind) fun right =>
            termTail (.binary op left right none l.location)
        else .ok left (behind.unread l)
      | _ => close l left behind := by
  rw [termTail]
  split
  · next hl => rw [andThen_of_error hl]
  · next l behind hl =>
    rw [andThen_of_ok hl]
    split
    · next op hk =>
      simp only [hk]
      split
      · split
        · next hv => rw [andThen_of_error hv]
        · next hv => rw [andThen_of_ok hv]
      · rfl
    · next hk =>
      -- no operator, so both sides close the expression
      cases hkind : l.kind with
      | operator op => exact absurd hkind (hk op)
      | _ => rfl

theorem expression_eq (left : Expr) (c : Cursor) :
    expression left c = c.next.andThen fun l behind =>
      match l.kind with
      | .operator op =>
        Reply.andThen (value behind) fun first after =>
          if op.bindsTight then expression (.binary op left first none l.location) after
          else
            (termTail first after).andThen fun right =>
              expression (.binary op left right none l.location)
      | _ => close l left behind := by
  rw [expression]
  split
  · next hl => rw [andThen_of_error hl]
  · next l behind hl =>
    rw [andThen_of_ok hl]
    split
    · next op hk =>
      simp only [hk]
      split
      · next hv => rw [andThen_of_error hv]
      · next hv =>
        rw [andThen_of_ok hv]
        split
        · rfl
        · split
          · next ht => rw [andThen_of_error ht]
          · next ht => rw [andThen_of_ok ht]
    · next hk =>
      -- no operator, as in the loop over a term
      cases hkind : l.kind with
      | operator op => exact absurd hkind (hk op)
      | _ => rfl

theorem declarations_eq (c : Cursor) :
    declarations c = c.next.andThen fun l behind =>
      match declaredTy? l.kind with
      | some ty =>
        Reply.andThen (declaration ty l behind) fun d after =>
          (declarations after).andThen fun ds => .ok (d :: ds)
      | none =>
        match l.kind with
        | .identifier | .printKeyword => .ok [] (behind.unread l)
        | .endOfFile => .ok [] behind
        | _ => .error (.unexpected .declaration l) behind := by
  rw [declarations]
  split
  · next hl => rw [andThen_of_error hl]
  · next l behind hl =>
    rw [andThen_of_ok hl]
    split
    · next ty ht =>
      simp only [ht]
      split
      · next hd => rw [andThen_of_error hd]
      · next hd =>
        rw [andThen_of_ok hd]
        split
        · next hds => rw [andThen_of_error hds]
        · next hds => rw [andThen_of_ok hds]
    · next ht =>
      -- the kinds that are no keyword, one by one
      cases hk : l.kind <;> rw [hk] at ht <;> simp only [ht]

theorem statements_eq (c : Cursor) :
    statements c = c.next.andThen fun l behind =>
      if l.kind = .endOfFile then .ok [] behind
      else
        Reply.andThen (statement l behind) fun s after =>
          (statements after).andThen fun ss => .ok (s :: ss) := by
  rw [statements]
  split
  · next hl => rw [andThen_of_error hl]
  · next l behind hl =>
    rw [andThen_of_ok hl]
    split
    · rfl
    · split
      · next hs => rw [andThen_of_error hs]
      · next hs =>
        rw [andThen_of_ok hs]
        split
        · next hss => rw [andThen_of_error hss]
        · next hss => rw [andThen_of_ok hss]

end Parse

end DeskCalc
