import Worldbook.Proofs.Blocks

/-!
# Rounds

More rounds never change what a reader has come to, so a bound that is enough gives the
same result as any greater one. Each of the four loops of the reader is written as one
round and what follows it, and a round that is followed by another has taken a character.
-/

namespace Worldbook

/-! ## More rounds -/

/-- The second result is the first one, unless that ran out of rounds. -/
def Outlasts {α : Type} (r r' : Except SyntaxError α) : Prop := r' = r ∨ ∃ s, r = .error ⟨.exhausted, s⟩

section
variable {α β : Type}

theorem outlasts_refl (r : Except SyntaxError α) : Outlasts r r := .inl rfl

theorem outlasts_fail (c : Cursor) (r : Except SyntaxError α) : Outlasts (c.fail .exhausted) r :=
  .inr ⟨_, rfl⟩

theorem Outlasts.bind {r r' : Except SyntaxError α} {k k' : α → Except SyntaxError β}
    (h : Outlasts r r') (hk : ∀ a, Outlasts (k a) (k' a)) : Outlasts (r >>= k) (r' >>= k') := by
  obtain rfl | ⟨s, rfl⟩ := h
  · cases r' with
    | error e => exact outlasts_refl _
    | ok a => exact hk a
  · exact .inr ⟨s, rfl⟩

theorem Outlasts.map {r r' : Except SyntaxError α} (h : Outlasts r r') (k : α → Except SyntaxError β) :
    Outlasts (r >>= k) (r' >>= k) := h.bind fun _ => outlasts_refl _

theorem Outlasts.of_ok {r r' : Except SyntaxError α} {a : α} (h : Outlasts r r') (hr : r = .ok a) :
    r' = .ok a := by
  obtain rfl | ⟨s, rfl⟩ := h
  · exact hr
  · cases hr

theorem Outlasts.of_proceeds {o c : Cursor} {Q : α → Cursor → Prop}
    {r r' : Except SyntaxError (α × Cursor)} (h : Outlasts r r') (hr : Proceeds o c Q r) : r' = r := by
  obtain rfl | ⟨s, rfl⟩ := h
  · rfl
  · exact absurd rfl (hr.2 _ rfl).1

end

namespace Cursor

structure OutlastsValues (n m : Nat) : Prop where
  value : ∀ c : Cursor, Outlasts (c.value n) (c.value m)
  sequence : ∀ opening closing (start c : Cursor), Outlasts (Cursor.sequence n opening closing start c)
    (Cursor.sequence m opening closing start c)
  members : ∀ start c : Cursor, Outlasts (Cursor.members n start c) (Cursor.members m start c)

theorem OutlastsValues.value_succ {n m : Nat} (h : OutlastsValues n m) (c : Cursor) :
    Outlasts (c.value (n + 1)) (c.value (m + 1)) := by
  rw [Cursor.value, Cursor.value]
  split
  · exact outlasts_refl _
  · exact outlasts_refl _
  · exact (h.sequence '[' ']' c _).map _
  · exact (h.members c _).map _
  · split
    · exact outlasts_refl _
    split
    · refine (outlasts_refl c.scanName).bind ?_
      rintro ⟨name, d⟩
      dsimp only
      split
      · exact outlasts_refl _
      split
      · exact outlasts_refl _
      split
      · exact outlasts_refl _
      split
      · exact (h.sequence '(' ')' c _).map _
      · exact outlasts_refl _
    · exact outlasts_refl _

theorem OutlastsValues.sequence_succ {n m : Nat} (h : OutlastsValues n m) (opening closing : Char)
    (start c : Cursor) :
    Outlasts (Cursor.sequence (n + 1) opening closing start c)
      (Cursor.sequence (m + 1) opening closing start c) := by
  simp only [Cursor.sequence]
  split
  · exact outlasts_refl _
  split
  · exact outlasts_refl _
  · refine (h.value c.skipBlanks).bind ?_
    rintro ⟨item, e⟩
    exact (h.sequence opening closing start _).map _

theorem OutlastsValues.members_succ {n m : Nat} (h : OutlastsValues n m) (start c : Cursor) :
    Outlasts (Cursor.members (n + 1) start c) (Cursor.members (m + 1) start c) := by
  simp only [Cursor.members]
  split
  · exact outlasts_refl _
  · exact outlasts_refl _
  · refine (outlasts_refl c.skipBlanks.scanKey).bind ?_
    rintro ⟨key, e⟩
    dsimp only
    split
    · refine (h.value _).bind ?_
      rintro ⟨item, f⟩
      exact (h.members start _).map _
    · exact outlasts_refl _

theorem outlastsValues {n m : Nat} (h : n ≤ m) : OutlastsValues n m := by
  induction n generalizing m with
  | zero =>
    refine ⟨?_, ?_, ?_⟩
    · intro c
      exact outlasts_fail c _
    · intro opening closing start c
      exact outlasts_fail c _
    · intro start c
      exact outlasts_fail c _
  | succ n ih =>
    obtain ⟨m, rfl⟩ : ∃ k, m = k + 1 := ⟨m - 1, by omega⟩
    have hn := ih (Nat.le_of_succ_le_succ h)
    exact ⟨hn.value_succ, hn.sequence_succ, hn.members_succ⟩

theorem outlasts_linePieces {n m : Nat} (h : n ≤ m) (stop : Position) (c : Cursor) :
    Outlasts (c.linePieces n stop) (c.linePieces m stop) := by
  induction n generalizing m stop c with
  | zero => exact outlasts_fail c _
  | succ n ih =>
    obtain ⟨m, rfl⟩ : ∃ k, m = k + 1 := ⟨m - 1, by omega⟩
    simp only [linePieces]
    split
    · exact outlasts_refl _
    split
    · exact outlasts_refl _
    · refine (outlasts_refl c.skipInlineBlanks.scanPiece).bind ?_
      rintro ⟨piece, e⟩
      exact (ih (Nat.le_of_succ_le_succ h) e.pos e).map _

structure OutlastsStatements (n m : Nat) : Prop where
  statement : ∀ c : Cursor, Outlasts (c.statement n) (c.statement m)
  statements : ∀ (header : Option Span) (c : Cursor), Outlasts (Cursor.statements n header c)
    (Cursor.statements m header c)

theorem OutlastsStatements.statement_succ {n m : Nat} (h : OutlastsStatements n m) (c : Cursor) :
    Outlasts (c.statement (n + 1)) (c.statement (m + 1)) := by
  rw [Cursor.statement, Cursor.statement]
  refine (outlasts_refl c.scanLine).bind ?_
  rintro ⟨line, d⟩
  dsimp only
  split
  · refine (outlasts_refl (Statement.blockHeader line.pieces (c.spanTo d))).bind ?_
    rintro ⟨name, quoted, labels⟩
    exact (h.statements (some (c.spanTo d)) d).map _
  · exact outlasts_refl _

theorem OutlastsStatements.statements_succ {n m : Nat} (h : OutlastsStatements n m)
    (header : Option Span) (c : Cursor) :
    Outlasts (Cursor.statements (n + 1) header c) (Cursor.statements (m + 1) header c) := by
  simp only [Cursor.statements]
  split
  · exact outlasts_refl _
  split
  · exact outlasts_refl _
  · refine (h.statement c.skipSeparators).bind ?_
    rintro ⟨first, e⟩
    exact (h.statements header e).map _

theorem outlastsStatements {n m : Nat} (h : n ≤ m) : OutlastsStatements n m := by
  induction n generalizing m with
  | zero =>
    refine ⟨?_, ?_⟩
    · intro c
      exact outlasts_fail c _
    · intro header c
      exact outlasts_fail c _
  | succ n ih =>
    obtain ⟨m, rfl⟩ : ∃ k, m = k + 1 := ⟨m - 1, by omega⟩
    have hn := ih (Nat.le_of_succ_le_succ h)
    exact ⟨hn.statement_succ, hn.statements_succ⟩

/-! ## Enough rounds -/

variable {c d : Cursor} {n : Nat}

theorem value_enough (hn : 2 * c.rest.length + 1 ≤ n) : c.value n = c.value (2 * c.rest.length + 1) :=
  ((outlastsValues hn).value c).of_proceeds ((proceedsValues c _).value c (.refl c) (Nat.le_refl _))

theorem linePieces_enough (hn : c.rest.length + 1 ≤ n) : c.linePieces n c.pos = c.scanLine :=
  (outlasts_linePieces hn c.pos c).of_proceeds (proceeds_scanLine (.refl c))

theorem statement_enough (hn : 2 * c.rest.length + 1 ≤ n) :
    c.statement n = c.statement (2 * c.rest.length + 1) :=
  ((outlastsStatements hn).statement c).of_proceeds
  ((proceedsStatements c _).statement c (.refl c) (Nat.le_refl _))

theorem statements_enough (hn : 2 * c.rest.length + 2 ≤ n) :
    statements n none c = statements (2 * c.rest.length + 2) none c :=
  ((outlastsStatements hn).statements none c).of_proceeds
    ((proceedsStatements c _).statements none c nofun (.refl c) (Nat.le_refl _))

/-! ## What has been read -/

theorem advances_of_value {v : Value} (h : c.value n = .ok (v, d)) : c.Advances d := by
  have hmore := ((outlastsValues (Nat.le_max_left n (2 * c.rest.length + 1))).value c).of_ok h
  exact (((proceedsValues c _).value c (.refl c) (Nat.le_max_right ..)).1 v d hmore).2.1

theorem advances_of_scanPiece {p : Piece} (h : c.scanPiece = .ok (p, d)) : c.Advances d :=
  ((proceeds_scanPiece (.refl c)).1 p d h).2.1

theorem advances_of_statement {s : Statement} (h : c.statement n = .ok (s, d)) : c.Advances d := by
  have hmore := ((outlastsStatements (Nat.le_max_left n (2 * c.rest.length + 1))).statement c).of_ok h
  obtain ⟨-, b, hcb, hbd, -⟩ :=
    ((proceedsStatements c _).statement c (.refl c) (Nat.le_max_right ..)).1 s d hmore
  exact hcb.trans hbd

end Cursor

/-! ## Loops -/

/-- What a round of a loop comes to: its end, or something it has read and
behind which it goes on. -/
inductive Round (α β : Type) where
  | done (result : β) (rest : Cursor)
  | more (first : α) (rest : Cursor)

namespace Round

variable {α β : Type}

def next (put : α → β → β) (loop : Cursor → Except SyntaxError (β × Cursor)) :
    Round α β → Except SyntaxError (β × Cursor)
  | done result rest => .ok (result, rest)
  | more first rest => do
    let (result, d) ← loop rest
    return (put first result, d)

end Round

namespace Cursor

def itemRound (n : Nat) (opening closing : Char) (start c : Cursor) :
    Except SyntaxError (Round Value (List Value)) :=
  let d := c.skipBlanks
  match d.rest with
  | [] => start.failTo d (.unclosed opening)
  | first :: _ =>
    if first = closing then .ok (.done [] (d.past [first]))
    else do
      let (item, e) ← d.value n
      return .more item (e.skipBlanks.eat ',')

def memberRound (n : Nat) (start c : Cursor) :
    Except SyntaxError (Round (String × Value) (List (String × Value))) :=
  let d := c.skipBlanks
  match d.rest with
  | [] => start.failTo d (.unclosed '\x7b')
  | '\x7d' :: _ => .ok (.done [] (d.past ['\x7d']))
  | _ :: _ => do
    let (key, e) ← d.scanKey
    let e := e.skipBlanks
    if e.startsWith [':'] then
      let (item, f) ← (e.past [':']).skipBlanks.value n
      return .more (key, item) (f.skipBlanks.eat ',')
    else e.fail (.expectedChar ':')

def pieceRound (c : Cursor) : Except SyntaxError (Round Piece Line) :=
  let d := c.skipInlineBlanks
  if d.atWord "do" then .ok (.done ⟨[], true, c.pos⟩ (d.past "do".toList))
  else if d.atLineEnd then .ok (.done ⟨[], false, c.pos⟩ d)
  else do
    let (piece, e) ← d.scanPiece
    return .more piece e

def statementRound (n : Nat) (header : Option Span) (c : Cursor) :
    Except SyntaxError (Round Statement (List Statement)) :=
  let d := c.skipSeparators
  if d.rest.isEmpty then
    match header with
    | some s => .error ⟨.unclosedBlock, s⟩
    | none => .ok (.done [] d)
  else if d.atWord "end" then
    let e := d.past "end".toList
    match header with
    | some _ => .ok (.done [] e)
    | none => d.failTo e .unexpectedEnd
  else do
    let (first, e) ← d.statement n
    return .more first e

variable {c : Cursor}

theorem sequence_eq (n : Nat) (opening closing : Char) (start c : Cursor) :
    sequence (n + 1) opening closing start c =
      itemRound n opening closing start c >>=
      Round.next List.cons (sequence n opening closing start) := by
  simp only [sequence, itemRound]
  generalize c.skipBlanks = d
  rcases d.rest with _ | ⟨first, rest⟩
  · rfl
  · dsimp only
    by_cases hclose : first = closing
    · rw [if_pos hclose, if_pos hclose]
      rfl
    · rw [if_neg hclose, if_neg hclose]
      cases d.value n <;> rfl

theorem members_eq (n : Nat) (start c : Cursor) :
    members (n + 1) start c = memberRound n start c >>= Round.next List.cons (members n start) := by
  simp only [members, memberRound]
  generalize c.skipBlanks = d
  rcases d.rest with _ | ⟨first, rest⟩
  · rfl
  · by_cases hbrace : first = '\x7d'
    · subst hbrace
      rfl
    · simp only
      cases d.scanKey with
      | error e => rfl
      | ok p =>
        obtain ⟨key, e⟩ := p
        simp only [ok_bind]
        by_cases hcolon : e.skipBlanks.startsWith [':'] = true
        · rw [if_pos hcolon, if_pos hcolon]
          cases (e.skipBlanks.past [':']).skipBlanks.value n <;> rfl
        · rw [if_neg hcolon, if_neg hcolon]
          rfl

theorem linePieces_eq (n : Nat) (c : Cursor) :
    c.linePieces (n + 1) c.pos = c.pieceRound >>=
      Round.next (fun piece line => { line with pieces := piece :: line.pieces }) fun d =>
      d.linePieces n d.pos := by
  simp only [linePieces, pieceRound]
  by_cases hdo : c.skipInlineBlanks.atWord "do" = true
  · rw [if_pos hdo, if_pos hdo]
    rfl
  rw [if_neg hdo, if_neg hdo]
  by_cases hend : c.skipInlineBlanks.atLineEnd = true
  · rw [if_pos hend, if_pos hend]
    rfl
  · rw [if_neg hend, if_neg hend]
    cases c.skipInlineBlanks.scanPiece <;> rfl

theorem statements_eq (n : Nat) (header : Option Span) (c : Cursor) :
    statements (n + 1) header c = statementRound n header c >>=
      Round.next List.cons (statements n header) := by
  simp only [statements, statementRound]
  by_cases hnil : c.skipSeparators.rest.isEmpty = true
  · rw [if_pos hnil, if_pos hnil]
    cases header <;> rfl
  rw [if_neg hnil, if_neg hnil]
  by_cases hword : c.skipSeparators.atWord "end" = true
  · rw [if_pos hword, if_pos hword]
    cases header <;> rfl
  · rw [if_neg hword, if_neg hword]
    cases c.skipSeparators.statement n <;> rfl

theorem bind_eq_ok {α β : Type} {r : Except SyntaxError α} {k : α → Except SyntaxError β} {b : β}
    (h : r >>= k = .ok b) : ∃ a, r = .ok a ∧ k a = .ok b := by
  cases r with
  | error e => cases h
  | ok a => exact ⟨a, rfl, h⟩

/-! ## What a round does -/

theorem cases_itemRound {n : Nat} {opening closing : Char} {start : Cursor}
    {r : Round Value (List Value)} (h : itemRound n opening closing start c = .ok r) :
    (∃ d, r = .done [] d) ∨ ∃ v d, c.skipBlanks.value n = .ok (v, d) ∧
    r = .more v (d.skipBlanks.eat ',') := by
  simp only [itemRound] at h
  split at h
  · cases h
  split at h
  · cases h
    exact .inl ⟨_, rfl⟩
  · obtain ⟨⟨v, d⟩, hvalue, heq⟩ := bind_eq_ok h
    cases heq
    exact .inr ⟨v, d, hvalue, rfl⟩

theorem cases_memberRound {n : Nat} {start : Cursor}
    {r : Round (String × Value) (List (String × Value))} (h : memberRound n start c = .ok r) :
    (∃ d, r = .done [] d) ∨
      ∃ key v d e, c.Reaches d ∧ d.value n = .ok (v, e) ∧
      r = .more (key, v) (e.skipBlanks.eat ',') := by
  simp only [memberRound] at h
  split at h
  · cases h
  · cases h
    exact .inl ⟨_, rfl⟩
  · obtain ⟨⟨key, e⟩, hkey, heq⟩ := bind_eq_ok h
    have hfront :=
      c.reaches_skipBlanks.trans
        (((proceeds_scanKey (.refl _)).1 key e hkey).1.trans e.reaches_skipBlanks)
    dsimp only at heq
    split at heq
    · next hcolon =>
      have hpast := reaches_past (List.isPrefixOf_iff_prefix.1 hcolon)
      obtain ⟨⟨v, f⟩, hvalue, heq⟩ := bind_eq_ok heq
      cases heq
      exact .inr ⟨key, v, _, f, hfront.trans (hpast.trans (reaches_skipBlanks _)), hvalue, rfl⟩
    · cases heq

theorem cases_pieceRound {r : Round Piece Line} (h : c.pieceRound = .ok r) :
    (∃ opens d, r = .done ⟨[], opens, c.pos⟩ d) ∨
      ∃ p d, c.skipInlineBlanks.scanPiece = .ok (p, d) ∧ c.skipInlineBlanks.atWord "do" = false ∧
        c.skipInlineBlanks.atLineEnd = false ∧ r = .more p d := by
  simp only [pieceRound] at h
  split at h
  · cases h
    exact .inl ⟨_, _, rfl⟩
  · next hdo =>
    split at h
    · cases h
      exact .inl ⟨_, _, rfl⟩
    · next hend =>
      obtain ⟨⟨p, d⟩, hpiece, heq⟩ := bind_eq_ok h
      cases heq
      exact .inr ⟨p, d, hpiece, Bool.eq_false_iff.2 hdo, Bool.eq_false_iff.2 hend, rfl⟩

/-- A body ends behind the word `end`, and the source where the text does. -/
theorem cases_statementRound {n : Nat} {header : Option Span} {r : Round Statement (List Statement)}
    (h : statementRound n header c = .ok r) :
    (∃ d, r = .done [] d ∧ (header.isSome = true → c.Advances d)) ∨
      ∃ s d, c.skipSeparators.statement n = .ok (s, d) ∧ r = .more s d := by
  simp only [statementRound] at h
  split at h
  · cases header with
    | some s => cases h
    | none =>
      cases h
      exact .inl ⟨_, rfl, nofun⟩
  split at h
  · next hword =>
    cases header with
    | some s =>
      cases h
      exact .inl ⟨_, rfl, fun _ =>
        c.reaches_skipSeparators.advances (advances_atWord (by decide) hword)⟩
    | none => cases h
  · obtain ⟨⟨s, d⟩, hstatement, heq⟩ := bind_eq_ok h
    cases heq
    exact .inr ⟨s, d, hstatement, rfl⟩

/-- Behind an item and a comma the loop is further on. -/
theorem advances_of_item {d e : Cursor} {v : Value} {n : Nat} (hcd : c.Reaches d)
    (h : d.value n = .ok (v, e)) : c.Advances (e.skipBlanks.eat ',') := by
  have hnext := e.reaches_skipBlanks.trans (e.skipBlanks.reaches_eat ',')
  exact hcd.advances ((advances_of_value h).trans hnext)

theorem advances_of_itemRound {n : Nat} {opening closing : Char} {start d : Cursor} {v : Value}
    (h : itemRound n opening closing start c = .ok (.more v d)) : c.Advances d := by
  obtain ⟨_, hdone⟩ | ⟨v, d, hvalue, hmore⟩ := cases_itemRound h
  · cases hdone
  · cases hmore
    exact advances_of_item c.reaches_skipBlanks hvalue

theorem advances_of_memberRound {n : Nat} {start d : Cursor} {m : String × Value}
    (h : memberRound n start c = .ok (.more m d)) : c.Advances d := by
  obtain ⟨_, hdone⟩ | ⟨key, v, d, e, hfront, hvalue, hmore⟩ := cases_memberRound h
  · cases hdone
  · cases hmore
    exact advances_of_item hfront hvalue

theorem advances_of_pieceRound {d : Cursor} {p : Piece} (h : c.pieceRound = .ok (.more p d)) :
    c.Advances d := by
  obtain ⟨_, _, hdone⟩ | ⟨p, d, hpiece, -, -, hmore⟩ := cases_pieceRound h
  · cases hdone
  · cases hmore
    exact c.reaches_skipInlineBlanks.advances (advances_of_scanPiece hpiece)

theorem advances_of_statementRound {n : Nat} {header : Option Span} {d : Cursor} {s : Statement}
    (h : statementRound n header c = .ok (.more s d)) : c.Advances d := by
  obtain ⟨_, hdone, -⟩ | ⟨s, d, hstatement, hmore⟩ := cases_statementRound h
  · cases hdone
  · cases hmore
    exact c.reaches_skipSeparators.advances (advances_of_statement hstatement)

theorem advances_of_statements {n : Nat} {header : Span} {ss : List Statement} {d : Cursor}
    (h : statements n (some header) c = .ok (ss, d)) : c.Advances d := by
  induction n generalizing c ss with
  | zero => cases h
  | succ n ih =>
    rw [statements_eq] at h
    obtain ⟨round, hround, h⟩ := bind_eq_ok h
    obtain ⟨d, rfl, hend⟩ | ⟨first, rest, hfirst, rfl⟩ := cases_statementRound hround
    · cases h
      exact hend rfl
    · obtain ⟨⟨more, e⟩, hmore, heq⟩ := bind_eq_ok h
      cases heq
      exact (advances_of_statementRound hround).trans (ih hmore).reaches

end Cursor

end Worldbook
