import DeskCalc.Proofs.Grammar
import DeskCalc.Proofs.Lookahead

/-!
# What is read is derived

What each part of the parser consumes derives what it returns.

An operator of either pair can start an operation in the loop over an expression. That a tight one
never does so behind a loose one rests on what the loop over a term leaves behind: it stops before
the first lexeme that is no tight operator.

Main statement: `Parse.program_derives`.
-/

namespace DeskCalc

namespace Parse

open Grammar

variable {α β : Type}

/-- What a parse gives can be computed. -/
instance [DecidableEq α] (p : Parse α) (c : Cursor) (a : α) : Decidable (∃ c', p c = .ok a c') :=
  match p c with
  | .ok a' c' => decidable_of_iff (a' = a) (by simp)
  | .error e c' => isFalse (by simp)

theorem bind_eq_ok_iff {p : Parse α} {f : α → Parse β} {c c' : Cursor} {b : β} :
    (p >>= f) c = .ok b c' ↔ ∃ a middle, p c = .ok a middle ∧ f a middle = .ok b c' := by
  change EStateM.bind p f c = _ ↔ _
  unfold EStateM.bind
  split
  · next a middle h => simp [h]
  · next e middle h => simp [h]

theorem pure_eq_ok_iff {a b : α} {c c' : Cursor} :
    (pure a : Parse α) c = .ok b c' ↔ b = a ∧ c' = c := by
  change EStateM.Result.ok a c = _ ↔ _
  rw [EStateM.Result.ok.injEq, eq_comm, eq_comm (a := c)]

private theorem unexpected_ne_ok {expected : Expectation} {found : Lexeme} {a : α} {c c' : Cursor} :
    (unexpected expected found : Parse α) c ≠ .ok a c' := by
  intro h
  cases h

theorem boundedName_eq_ok_iff {l : Lexeme} {name : String} {c c' : Cursor} :
    boundedName l c = .ok name c' ↔ l.text.length ≤ maxNameLength ∧ name = l.text ∧ c' = c := by
  unfold boundedName
  split
  · next h =>
    simp only [unexpected_ne_ok, false_iff]
    omega
  · next h =>
    rw [pure_eq_ok_iff]
    simp only [Nat.not_lt.1 h, true_and]

private theorem value_derives {c c' : Cursor} {e : Expr} (h : value c = .ok e c') :
    ∃ ls, c.Consumed ls c' ∧ IsValue ls e := by
  unfold value at h
  obtain ⟨l, middle, hl, h⟩ := bind_eq_ok_iff.1 h
  cases hk : l.kind with
  | identifier =>
    simp only [hk] at h
    obtain ⟨name, after, hname, hpure⟩ := bind_eq_ok_iff.1 h
    obtain ⟨hfit, rfl, rfl⟩ := boundedName_eq_ok_iff.1 hname
    obtain ⟨rfl, rfl⟩ := pure_eq_ok_iff.1 hpure
    exact ⟨[l], .cons hl (by simp [hk]) (fun _ => hfit) (.nil rfl), .identifier hk⟩
  | number v =>
    simp only [hk] at h
    obtain ⟨rfl, rfl⟩ := pure_eq_ok_iff.1 h
    exact ⟨[l], .cons hl (by simp [hk]) (by simp [hk]) (.nil rfl), .number hk⟩
  | floatKeyword | intKeyword | printKeyword | assign | operator | endOfFile =>
    simp only [hk] at h
    exact absurd h unexpected_ne_ok

/-- Closing an expression consumes nothing. -/
private theorem consumed_of_close {c middle c' : Cursor} {l : Lexeme} {e e' : Expr}
    (hl : c.next = .ok l middle) (h : close l e middle = .ok e' c') :
    e' = e ∧ c.Consumed [] c' := by
  unfold close at h
  split at h
  -- the lexeme that starts a statement is handed back
  · cases h
    exact ⟨rfl, .nil (Cursor.reader_next_unread hl)⟩
  · cases h
    exact ⟨rfl, .nil (Cursor.reader_next_unread hl)⟩
  · next hk =>
    -- the end is not handed back, but behind it only the end is read
    cases h
    have hr := (Cursor.next_eq_ok_iff.1 hl).1
    refine ⟨rfl, .nil ?_⟩
    rw [hr]
    exact Reader.next_of_endOfFile hr hk
  · cases h

/-- No tight operator lies ahead. -/
def StopsTerm (c : Cursor) : Prop :=
  ∀ l behind op, c.reader.next = .ok l behind → l.kind = .operator op → op.bindsTight = false

private theorem stopsTerm_of_next {c middle c' : Cursor} {l : Lexeme} (hl : c.next = .ok l middle)
    (hstop : ∀ op, l.kind = .operator op → op.bindsTight = false)
    (h : c.Consumed [] c') : StopsTerm c' := by
  intro l' behind op hl' hop
  have hr : c.reader.next = .ok l' behind := h.1.trans hl'
  cases (Cursor.next_eq_ok_iff.1 hl).1.symm.trans hr
  exact hstop op hop

/-- The tight operations that follow a value are steps of a term, and no tight operator is left
ahead. -/
private theorem termTail_derives {left e : Expr} {c c' : Cursor} (h : termTail left c = .ok e c') :
    ∃ ls steps, c.Consumed ls c' ∧ Repeated (IsStep true IsValue) ls steps ∧
      e = steps.foldl Step.apply left ∧ StopsTerm c' := by
  fun_induction termTail left c with
  | case1 => cases h
  | case2 => cases h
  | case3 left c l middle hl op hk htight right after hv _ _ ih =>
    -- a tight operator and the value behind it are one more step
    obtain ⟨vs, hvs, hright⟩ := value_derives hv
    obtain ⟨ls, steps, hls, hsteps, rfl, hstop⟩ := ih h
    refine ⟨(l :: vs) ++ ls, ⟨op, l.location, right⟩ :: steps, ?_, ?_, rfl, hstop⟩
    · exact Cursor.Consumed.append (.cons hl (by simp [hk]) (by simp [hk]) hvs) hls
    · exact .cons (.mk hk htight hright) hsteps
  | case4 left c l middle hl op hk hloose =>
    -- a loose operator is handed back, and so it is what lies ahead
    cases h
    have hnone : c.Consumed [] (middle.unread l) := .nil (Cursor.reader_next_unread hl)
    refine ⟨[], [], hnone, .nil, rfl, stopsTerm_of_next hl ?_ hnone⟩
    intro op' hk'
    cases hk.symm.trans hk'
    simpa using hloose
  | case5 left c l middle hl hk =>
    obtain ⟨rfl, hnone⟩ := consumed_of_close hl h
    exact ⟨[], [], hnone, .nil, rfl, stopsTerm_of_next hl (fun op hop => absurd hop (hk op)) hnone⟩

/-- The operations that follow a value are steps of a term and then steps of an expression. There
are none of a term where no tight operator lies ahead. -/
private theorem expression_derives {left e : Expr} {c c' : Cursor}
    (h : expression left c = .ok e c') : ∃ ls tight more loose, c.Consumed (ls ++ more) c' ∧
      Repeated (IsStep true IsValue) ls tight ∧ Repeated (IsStep false IsTerm) more loose ∧
      e = loose.foldl Step.apply (tight.foldl Step.apply left) ∧ (StopsTerm c → tight = []) := by
  fun_induction expression left c with
  | case1 => cases h
  | case2 => cases h
  | case3 left c l middle hl op hk _ first after hv _ htight ih =>
    -- a tight operator in this loop stands in the first term
    obtain ⟨vs, hvs, hfirst⟩ := value_derives hv
    obtain ⟨ls, tight, more, loose, hls, htights, hlooses, rfl, _⟩ := ih h
    refine ⟨(l :: vs) ++ ls, ⟨op, l.location, first⟩ :: tight, more, loose, ?_, ?_, hlooses, rfl,
      ?_⟩
    · rw [List.append_assoc]
      exact Cursor.Consumed.append (.cons hl (by simp [hk]) (by simp [hk]) hvs) hls
    · exact .cons (.mk hk htight hfirst) htights
    · intro hstop
      have hloose := hstop l _ op (Cursor.next_eq_ok_iff.1 hl).1 hk
      simp [htight] at hloose
  | case4 => cases h
  | case5 left c l middle hl op hk _ first after hv _ hloose right beyond ht _ ih =>
    obtain ⟨vs, hvs, hfirst⟩ := value_derives hv
    obtain ⟨us, steps, hus, hsteps, rfl, hstop⟩ := termTail_derives ht
    obtain ⟨ls, tight, more, loose, hls, htights, hlooses, rfl, hnone⟩ := ih h
    -- the term behind the operator has left no tight operator ahead
    obtain rfl := hnone hstop
    cases htights
    refine ⟨[], [], (l :: (vs ++ us)) ++ more, ⟨op, l.location, _⟩ :: loose, ?_, .nil, ?_, rfl,
      fun _ => rfl⟩
    · have hoperand := Cursor.Consumed.append hvs hus
      rw [List.nil_append]
      exact Cursor.Consumed.append (.cons hl (by simp [hk]) (by simp [hk]) hoperand) hls
    · exact .cons (.mk hk (by simpa using hloose) (.mk hfirst hsteps)) hlooses
  | case6 left c l middle hl hk =>
    obtain ⟨rfl, hnone⟩ := consumed_of_close hl h
    exact ⟨[], [], [], [], hnone, .nil, .nil, rfl, fun _ => rfl⟩

private theorem declaration_derives {ty : Ty} {keyword : Lexeme} {c c' : Cursor} {d : Declaration}
    (hkeyword : declaredTy? keyword.kind = some ty) (h : declaration ty keyword c = .ok d c') :
    ∃ ls, c.Consumed ls c' ∧ IsDeclaration (keyword :: ls) d := by
  unfold declaration at h
  obtain ⟨l, middle, hl, h⟩ := bind_eq_ok_iff.1 h
  cases hk : l.kind with
  | identifier =>
    simp only [hk] at h
    obtain ⟨name, after, hname, hpure⟩ := bind_eq_ok_iff.1 h
    obtain ⟨hfit, rfl, rfl⟩ := boundedName_eq_ok_iff.1 hname
    obtain ⟨rfl, rfl⟩ := pure_eq_ok_iff.1 hpure
    refine ⟨[l], .cons hl (by simp [hk]) (fun _ => hfit) (.nil rfl), ?_⟩
    -- the keyword has given the type, so it is one of the two
    unfold declaredTy? at hkeyword
    split at hkeyword
    · next hf =>
      cases hkeyword
      exact .float hf hk
    · next hi =>
      cases hkeyword
      exact .int hi hk
    · cases hkeyword
  | floatKeyword | intKeyword | printKeyword | assign | operator | number | endOfFile =>
    simp only [hk] at h
    exact absurd h unexpected_ne_ok

private theorem assignment_derives {target : Lexeme} {c c' : Cursor} {s : Statement}
    (htarget : target.kind = .identifier) (h : assignment target c = .ok s c') :
    target.text.length ≤ maxNameLength ∧ ∃ ls, c.Consumed ls c' ∧ IsStatement (target :: ls) s := by
  unfold assignment at h
  obtain ⟨name, middle, hname, hrest⟩ := bind_eq_ok_iff.1 h
  obtain ⟨hfit, rfl, rfl⟩ := boundedName_eq_ok_iff.1 hname
  obtain ⟨l, behind, hl, h⟩ := bind_eq_ok_iff.1 hrest
  by_cases hk : l.kind = .assign
  · rw [if_pos hk] at h
    obtain ⟨first, after, hfirst, h⟩ := bind_eq_ok_iff.1 h
    obtain ⟨e, beyond, he, hpure⟩ := bind_eq_ok_iff.1 h
    obtain ⟨rfl, rfl⟩ := pure_eq_ok_iff.1 hpure
    obtain ⟨vs, hvs, hvalue⟩ := value_derives hfirst
    obtain ⟨ls, tight, more, loose, hls, htight, hloose, rfl, _⟩ := expression_derives he
    refine ⟨hfit, l :: (vs ++ (ls ++ more)), ?_, .assign htarget hk ?_⟩
    · exact .cons hl (by simp [hk]) (by simp [hk]) (hvs.append hls)
    · rw [← List.append_assoc]
      exact .mk (.mk hvalue htight) hloose
  · rw [if_neg hk] at h
    exact absurd h unexpected_ne_ok

private theorem printing_derives {keyword : Lexeme} {c c' : Cursor} {s : Statement}
    (hkeyword : keyword.kind = .printKeyword) (h : printing keyword c = .ok s c') :
    ∃ ls, c.Consumed ls c' ∧ IsStatement (keyword :: ls) s := by
  unfold printing at h
  obtain ⟨l, middle, hl, h⟩ := bind_eq_ok_iff.1 h
  by_cases hk : l.kind = .identifier
  · rw [if_pos hk] at h
    obtain ⟨name, after, hname, hpure⟩ := bind_eq_ok_iff.1 h
    obtain ⟨hfit, rfl, rfl⟩ := boundedName_eq_ok_iff.1 hname
    obtain ⟨rfl, rfl⟩ := pure_eq_ok_iff.1 hpure
    exact ⟨[l], .cons hl (by simp [hk]) (fun _ => hfit) (.nil rfl), .print hkeyword hk⟩
  · rw [if_neg hk] at h
    exact absurd h unexpected_ne_ok

private theorem statement_derives {l : Lexeme} {c middle c' : Cursor} {s : Statement}
    (hl : c.next = .ok l middle) (h : statement l middle = .ok s c') :
    ∃ ls, c.Consumed ls c' ∧ IsStatement ls s := by
  unfold statement at h
  cases hk : l.kind with
  | identifier =>
    simp only [hk] at h
    obtain ⟨hfit, ls, hls, hs⟩ := assignment_derives hk h
    exact ⟨l :: ls, .cons hl (by simp [hk]) (fun _ => hfit) hls, hs⟩
  | printKeyword =>
    simp only [hk] at h
    obtain ⟨ls, hls, hs⟩ := printing_derives hk h
    exact ⟨l :: ls, .cons hl (by simp [hk]) (by simp [hk]) hls, hs⟩
  | floatKeyword | intKeyword | assign | operator | number | endOfFile =>
    simp only [hk] at h
    exact absurd h unexpected_ne_ok

theorem declarations_derive {c c' : Cursor} {ds : List Declaration}
    (h : declarations c = .ok ds c') : ∃ ls, c.Consumed ls c' ∧ Repeated IsDeclaration ls ds := by
  fun_induction declarations c generalizing ds with
  | case1 => cases h
  | case2 => cases h
  | case3 => cases h
  | case4 c l middle hl ty ht d after hd _ _ ds' beyond hrest ih =>
    cases h
    obtain ⟨ls, hls, hdecl⟩ := declaration_derives ht hd
    obtain ⟨more, hmore, hdecls⟩ := ih hrest
    -- a keyword is neither the end nor a name
    have hend : l.kind ≠ .endOfFile := by
      intro hk
      simp [hk, declaredTy?] at ht
    have hname : l.kind = .identifier → l.text.length ≤ maxNameLength := by
      intro hk
      simp [hk, declaredTy?] at ht
    exact ⟨(l :: ls) ++ more, Cursor.Consumed.append (.cons hl hend hname hls) hmore,
      .cons hdecl hdecls⟩
  | case5 c l middle hl ht hk =>
    -- the first lexeme of the first statement is handed back
    cases h
    exact ⟨[], .nil (Cursor.reader_next_unread hl), .nil⟩
  | case6 c l middle hl ht hk =>
    cases h
    exact ⟨[], .nil (Cursor.reader_next_unread hl), .nil⟩
  | case7 c l middle hl ht hk =>
    cases h
    have hr := (Cursor.next_eq_ok_iff.1 hl).1
    refine ⟨[], .nil ?_, .nil⟩
    rw [hr]
    exact Reader.next_of_endOfFile hr hk
  | case8 => cases h

theorem statements_derive {c c' : Cursor} {ss : List Statement} (h : statements c = .ok ss c') :
    ∃ ls middle l behind, c.Consumed ls middle ∧ middle.reader.next = .ok l behind ∧
      l.kind = .endOfFile ∧ Repeated IsStatement ls ss := by
  fun_induction statements c generalizing ss with
  | case1 => cases h
  | case2 c l middle hl hk =>
    cases h
    exact ⟨[], c, l, _, .nil rfl, (Cursor.next_eq_ok_iff.1 hl).1, hk, .nil⟩
  | case3 => cases h
  | case4 => cases h
  | case5 c l middle hl hk s after hs _ _ ss' beyond hrest ih =>
    cases h
    obtain ⟨ls, hls, hstatement⟩ := statement_derives hl hs
    obtain ⟨more, final, last, behind, hmore, hlast, hkind, hstatements⟩ := ih hrest
    exact ⟨ls ++ more, final, last, behind, hls.append hmore, hlast, hkind,
      .cons hstatement hstatements⟩

/-- The source of a program that was read has only lexemes, and they derive the program. -/
theorem program_derives {source : String} {p : Program} {c : Cursor}
    (h : program (.ofString source) = .ok p c) :
    ∃ ls l final, (Reader.ofString source).tokenize = .ok (ls ++ [l]) final ∧
      l.kind = .endOfFile ∧ IsProgram ls p ∧ NamesFit ls := by
  unfold program at h
  obtain ⟨ds, middle, hds, h⟩ := bind_eq_ok_iff.1 h
  obtain ⟨ss, after, hss, hpure⟩ := bind_eq_ok_iff.1 h
  obtain ⟨rfl, rfl⟩ := pure_eq_ok_iff.1 hpure
  obtain ⟨ls, hls, hdecls⟩ := declarations_derive hds
  obtain ⟨more, last, l, behind, hmore, hl, hk, hstatements⟩ := statements_derive hss
  obtain ⟨hreads, hfit⟩ := hls.append hmore
  exact ⟨ls ++ more, l, behind, Reader.tokenize_eq_ok_iff.2 ⟨_, l, _, rfl, hreads, hl, hk⟩, hk,
    .mk hdecls hstatements, hfit⟩

end Parse

end DeskCalc
