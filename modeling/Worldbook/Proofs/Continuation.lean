import Mathlib.Data.List.Basic
import Worldbook.Proofs.Relocation
import Worldbook.Proofs.Scanning

/-!
# Reading a text inside a longer one

A text reads the same further down in a file, and with more lines behind it. `Move` says where it
goes and what comes after it; every scanner that succeeds on the text succeeds on the moved one,
stops at the same character, and gives the same result with its spans moved.
-/

namespace Worldbook

/-- A place for a text in a longer one: the file, the lines and bytes before
it, and what comes after it, which starts on a new line. -/
structure Move where
  file : FileId
  lines : Nat
  bytes : Nat
  tail : List Char
  fresh : ∀ ch ∈ tail.head?, ch = '\n'

namespace Move

variable (M : Move)

def position (p : Position) : Position := ⟨p.line + M.lines, p.column, p.offset + M.bytes⟩

def span (s : Span) : Span := ⟨M.file, M.position s.start, M.position s.stop⟩

def cursor (c : Cursor) : Cursor := ⟨M.file, M.position c.pos, c.rest ++ M.tail⟩

@[simp] theorem cursor_rest (c : Cursor) : (M.cursor c).rest = c.rest ++ M.tail := rfl

theorem position_advance (p : Position) (ch : Char) :
    M.position (p.advance ch) = (M.position p).advance ch := by
  unfold Position.advance
  split
  · simp only [position, Position.mk.injEq, true_and]
    omega
  · simp only [position, Position.mk.injEq, true_and]
    omega

theorem position_after (p : Position) (cs : List Char) :
    M.position (p.after cs) = (M.position p).after cs := by
  induction cs generalizing p with
  | nil => rfl
  | cons ch cs ih => rw [Position.after_cons, Position.after_cons, ih, position_advance]

theorem cursor_past {c : Cursor} {cs : List Char} (h : cs <+: c.rest) :
    M.cursor (c.past cs) = (M.cursor c).past cs := by
  obtain ⟨rest, hrest⟩ := h
  have hdrop : (cs ++ rest).drop cs.length = rest := List.drop_left
  simp only [cursor, Cursor.past, position_after, ← hrest, List.append_assoc, hdrop]
  rw [List.drop_left]

theorem textTo_cursor (c d : Cursor) : (M.cursor c).textTo (M.cursor d) = c.textTo d := by
  simp only [Cursor.textTo, cursor_rest, List.length_append]
  rw [Nat.add_sub_add_right, List.take_append_of_le_length (Nat.sub_le ..)]

/-- Where the text has ended the next character, if any, is the end of a line. -/
theorem tail_cases (M : Move) : M.tail = [] ∨ ∃ more, M.tail = '\n' :: more := by
  cases ht : M.tail with
  | nil => exact .inl rfl
  | cons ch more => exact .inr ⟨more, by rw [M.fresh ch (by rw [ht]; rfl)]⟩

theorem head?_append (M : Move) {cs : List Char} {ch : Char} (hch : ch ≠ '\n') :
    (cs ++ M.tail).head? = some ch ↔ cs.head? = some ch := by
  cases cs with
  | nil =>
    simp only [List.nil_append, List.head?_nil, reduceCtorEq, iff_false]
    exact fun h => hch (M.fresh ch h)
  | cons c cs => rfl

theorem isPrefixOf_append (M : Move) {cs : List Char} (rest : List Char) (h : '\n' ∉ cs) :
    cs.isPrefixOf (rest ++ M.tail) = cs.isPrefixOf rest := by
  induction cs generalizing rest with
  | nil => rfl
  | cons ch cs ih =>
    rw [List.mem_cons, not_or] at h
    cases rest with
    | nil =>
      rcases M.tail_cases with ht | ⟨more, ht⟩
      · rw [ht]
        rfl
      · rw [ht, List.nil_append]
        simp only [List.isPrefixOf, beq_false_of_ne (Ne.symm h.1), Bool.false_and]
    | cons c rest => simp only [List.cons_append, List.isPrefixOf, ih rest h.2]

/-- What the moved text starts with stands in the text itself, since the tail starts a line. -/
theorem ne_append (M : Move) {p : List Char} (hp : '\n' ∉ p) {cs : List Char}
    (h : ∀ rest, cs = p ++ rest → False) (more : List Char) : cs ++ M.tail = p ++ more → False := by
  intro heq
  have hstart := M.isPrefixOf_append cs hp
  rw [heq, List.isPrefixOf_iff_prefix.2 (List.prefix_append p more)] at hstart
  obtain ⟨rest, hrest⟩ := List.isPrefixOf_iff_prefix.1 hstart.symm
  exact h rest hrest.symm

theorem startsWith_cursor (c : Cursor) {cs : List Char} (h : '\n' ∉ cs) :
    (M.cursor c).startsWith cs = c.startsWith cs := M.isPrefixOf_append c.rest h

theorem takeWhile_append (M : Move) {p : Char → Bool} (hp : p '\n' = false) (cs : List Char) :
    (cs ++ M.tail).takeWhile p = cs.takeWhile p := by
  induction cs with
  | nil =>
    rcases M.tail_cases with ht | ⟨more, ht⟩
    · rw [ht]
      rfl
    · rw [ht, List.nil_append, List.takeWhile_cons, hp]
      rfl
  | cons c cs ih => simp only [List.cons_append, List.takeWhile_cons, ih]

theorem cursor_eat (c : Cursor) {ch : Char} (hch : ch ≠ '\n') :
    M.cursor (c.eat ch) = (M.cursor c).eat ch := by
  by_cases h : c.rest.head? = some ch
  · obtain ⟨rest, hrest⟩ := List.head?_eq_some_iff.1 h
    rw [Cursor.eat_of_head h, Cursor.eat_of_head ((M.head?_append hch).2 h)]
    exact M.cursor_past ⟨rest, hrest.symm⟩
  · rw [Cursor.eat_of_ne h, Cursor.eat_of_ne fun h' => h ((M.head?_append hch).1 h')]

theorem takeWhile_cursor (c : Cursor) {p : Char → Bool} (hp : p '\n' = false) :
    (M.cursor c).takeWhile p = ((c.takeWhile p).1, M.cursor (c.takeWhile p).2) := by
  simp only [Cursor.takeWhile, cursor_rest, M.takeWhile_append hp]
  rw [M.cursor_past <| List.takeWhile_prefix p]

theorem skipInlineBlanks_cursor (c : Cursor) :
    (M.cursor c).skipInlineBlanks = M.cursor c.skipInlineBlanks := by
  rw [Cursor.skipInlineBlanks, cursor_rest, M.takeWhile_append (by decide), Cursor.skipInlineBlanks,
    M.cursor_past <| List.takeWhile_prefix _]

theorem endsWord_append (M : Move) (cs : List Char) : endsWord (cs ++ M.tail) = endsWord cs := by
  rcases M.tail_cases with ht | ⟨more, ht⟩
  · rw [ht, List.append_nil]
  · have hname : isNameChar '\n' = false := by decide
    rw [ht]
    rcases cs with _ | ⟨a, _ | ⟨b, cs⟩⟩
    · cases more <;> rfl
    · simp [endsWord, hname]
    · rfl

theorem any_head?_append (M : Move) {p : Char → Bool} (hp : p '\n' = false) (cs : List Char) :
    (cs ++ M.tail).head?.any p = cs.head?.any p := by
  cases cs with
  | nil =>
    rcases M.tail_cases with ht | ⟨more, ht⟩
    · rw [ht]
      rfl
    · rw [ht]
      exact hp
  | cons c cs => rfl

theorem nameTail_append (M : Move) (cs : List Char) : nameTail (cs ++ M.tail) = nameTail cs := by
  induction cs with
  | nil => rcases M.tail_cases with ht | ⟨more, ht⟩ <;> rw [ht] <;> rfl
  | cons c cs ih => rw [List.cons_append, nameTail, nameTail, M.any_head?_append (by decide), ih]

theorem atWord_cursor (c : Cursor) {word : String} (h : '\n' ∉ word.toList) :
    (M.cursor c).atWord word = c.atWord word := by
  unfold Cursor.atWord
  rw [M.startsWith_cursor c h]
  cases hs : c.startsWith word.toList with
  | false => rfl
  | true =>
    obtain ⟨tail, htail⟩ := Cursor.startsWith_iff.1 hs
    rw [cursor_rest, htail, List.append_assoc, String.length, List.drop_left, List.drop_left,
      M.endsWord_append]

theorem atComment_cursor (c : Cursor) : (M.cursor c).atComment = c.atComment := by
  rw [Cursor.atComment, M.startsWith_cursor c (by decide), M.startsWith_cursor c (by decide),
    Cursor.atComment]

theorem atLineEnd_cursor (c : Cursor) : (M.cursor c).atLineEnd = c.atLineEnd := by
  unfold Cursor.atLineEnd
  rw [cursor_rest]
  cases hc : c.rest with
  | nil => rcases M.tail_cases with ht | ⟨more, ht⟩ <;> rw [ht] <;> rfl
  | cons ch rest =>
    simp only [List.cons_append, M.atComment_cursor,
      M.atWord_cursor c (show '\n' ∉ "end".toList by decide)]

/-! ## Blanks and comments -/

/-- Blanks that stop within the text stop at the same place. -/
theorem trivia_append (M : Move) (p : Char → Bool) (comment : Bool) (cs : List Char)
    (h : Cursor.trivia p comment cs ≠ cs) :
    Cursor.trivia p comment (cs ++ M.tail) = Cursor.trivia p comment cs := by
  induction cs generalizing comment with
  | nil => cases comment <;> exact absurd rfl h
  | cons c cs ih =>
    cases comment with
    | true =>
      rw [List.cons_append, Cursor.trivia, Cursor.trivia, ih]
      intro heq
      exact h (by rw [Cursor.trivia, heq])
    | false =>
      have hslash : (cs ++ M.tail).head? = some '/' ↔ cs.head? = some '/' := M.head?_append (by decide)
      simp only [List.cons_append, Cursor.trivia, hslash] at h ⊢
      split
      · next hp =>
        rw [if_pos hp] at h
        rw [ih false fun heq => h (by rw [heq])]
      · next hp =>
        rw [if_neg hp] at h
        split
        · next hm =>
          rw [if_pos hm] at h
          rw [ih true fun heq => h (by rw [heq])]
        · rfl

end Move

namespace Cursor

theorem trivia_isPrefix (p : Char → Bool) (comment : Bool) (cs : List Char) :
    trivia p comment cs <+: cs := by
  induction cs generalizing comment with
  | nil => cases comment <;> exact List.nil_prefix
  | cons c cs ih =>
    cases comment with
    | true => exact List.cons_prefix_cons.2 ⟨rfl, ih _⟩
    | false =>
      rw [trivia]
      split
      · exact List.cons_prefix_cons.2 ⟨rfl, ih _⟩
      · split
        · exact List.cons_prefix_cons.2 ⟨rfl, ih _⟩
        · exact List.nil_prefix

def Reaches (c d : Cursor) : Prop := ∃ cs, cs <+: c.rest ∧ d = c.past cs

theorem Reaches.refl (c : Cursor) : c.Reaches c := ⟨[], List.nil_prefix, (past_nil c).symm⟩

theorem reaches_past {c : Cursor} {cs : List Char} (h : cs <+: c.rest) : c.Reaches (c.past cs) :=
  ⟨cs, h, rfl⟩

theorem Reaches.trans {c d e : Cursor} (hcd : c.Reaches d) (hde : d.Reaches e) : c.Reaches e := by
  obtain ⟨cs, ⟨rest, hrest⟩, rfl⟩ := hcd
  obtain ⟨ds, ⟨more, hmore⟩, rfl⟩ := hde
  rw [past_rest hrest.symm] at hmore
  exact ⟨cs ++ ds, ⟨more, by rw [List.append_assoc, hmore, hrest]⟩, past_past ..⟩

theorem Reaches.rest_eq_nil {c d : Cursor} (h : c.Reaches d) (hc : c.rest = []) : d.rest = [] := by
  obtain ⟨cs, ⟨rest, hrest⟩, rfl⟩ := h
  rw [past, hc, List.drop_nil]

theorem reaches_eat (c : Cursor) (ch : Char) : c.Reaches (c.eat ch) := by
  unfold eat
  split
  · next h =>
    obtain ⟨rest, hrest⟩ := List.head?_eq_some_iff.1 h
    exact reaches_past ⟨rest, hrest.symm⟩
  · exact .refl c

theorem reaches_takeWhile (c : Cursor) (p : Char → Bool) : c.Reaches (c.takeWhile p).2 :=
  reaches_past <| List.takeWhile_prefix p

theorem reaches_skipBlanks (c : Cursor) : c.Reaches c.skipBlanks := reaches_past (trivia_isPrefix ..)

theorem reaches_skipSeparators (c : Cursor) : c.Reaches c.skipSeparators :=
  reaches_past (trivia_isPrefix ..)

theorem reaches_skipInlineBlanks (c : Cursor) : c.Reaches c.skipInlineBlanks :=
  reaches_past <| List.takeWhile_prefix _

/-- A cursor that has not used up its text has stopped before its end. -/
theorem ne_of_past_rest {c : Cursor} {cs : List Char} (h : (c.past cs).rest ≠ []) : cs ≠ c.rest := by
  rintro rfl
  exact h (by simp [past])

end Cursor

namespace Move

variable (M : Move)

theorem skipBlanks_cursor {c : Cursor} (h : c.skipBlanks.rest ≠ []) :
    (M.cursor c).skipBlanks = M.cursor c.skipBlanks := by
  rw [Cursor.skipBlanks, cursor_rest, M.trivia_append _ _ _ (Cursor.ne_of_past_rest h),
    Cursor.skipBlanks, M.cursor_past (Cursor.trivia_isPrefix ..)]

theorem skipSeparators_cursor {c : Cursor} (h : c.skipSeparators.rest ≠ []) :
    (M.cursor c).skipSeparators = M.cursor c.skipSeparators := by
  rw [Cursor.skipSeparators, cursor_rest, M.trivia_append _ _ _ (Cursor.ne_of_past_rest h),
    Cursor.skipSeparators, M.cursor_past (Cursor.trivia_isPrefix ..)]

end Move

/-! ## Results of a scanner -/

section
variable {α β : Type} {M : Move}

/-- If the scanner succeeds from `c`, so does the moved one, with the moved
result at the moved cursor. -/
def Carries (M : Move) (f : α → β) (c : Cursor) (r : Except SyntaxError (α × Cursor))
    (r' : Except SyntaxError (β × Cursor)) : Prop :=
  ∀ a d, r = .ok (a, d) → r' = .ok (f a, M.cursor d) ∧ c.Reaches d

theorem carries_ok {f : α → β} {c d : Cursor} {a : α} {b : β} {d' : Cursor} (hb : b = f a)
    (hd : d' = M.cursor d) (h : c.Reaches d) : Carries M f c (.ok (a, d)) (.ok (b, d')) := by
  rintro _ _ ⟨⟩
  exact ⟨by rw [hb, hd], h⟩

theorem carries_error {f : α → β} {c : Cursor} {e : SyntaxError}
    {r' : Except SyntaxError (β × Cursor)} : Carries M f c (.error e) r' := nofun

theorem Carries.bind {γ δ : Type} {f : α → β} {g : γ → δ} {c : Cursor}
    {r : Except SyntaxError (α × Cursor)} {r' : Except SyntaxError (β × Cursor)}
    {k : α × Cursor → Except SyntaxError (γ × Cursor)}
    {k' : β × Cursor → Except SyntaxError (δ × Cursor)} (hr : Carries M f c r r')
    (hk : ∀ a d, c.Reaches d → Carries M g d (k (a, d)) (k' (f a, M.cursor d))) :
    Carries M g c (r >>= k) (r' >>= k') := by
  intro b e hbe
  cases r with
  | error err => cases hbe
  | ok p =>
    obtain ⟨a, d⟩ := p
    obtain ⟨hr', hcd⟩ := hr a d rfl
    obtain ⟨hk', hde⟩ := hk a d hcd b e hbe
    exact ⟨by rw [hr']; exact hk', hcd.trans hde⟩

theorem Carries.since {f : α → β} {c d : Cursor} {r : Except SyntaxError (α × Cursor)}
    {r' : Except SyntaxError (β × Cursor)} (h : Carries M f d r r') (hcd : c.Reaches d) :
    Carries M f c r r' :=
  fun a e hr => (h a e hr).imp_right hcd.trans

theorem Carries.prepend {ch : Char} {c d : Cursor} {r r' : Except SyntaxError (List Char × Cursor)}
    (h : Carries M id d r r') (hcd : c.Reaches d) :
    Carries M id c (Cursor.prepend ch r) (Cursor.prepend ch r') := by
  intro cs e hr
  cases r with
  | error err => cases hr
  | ok p =>
    cases hr
    obtain ⟨hr', hreach⟩ := h _ _ rfl
    rw [hr']
    exact ⟨rfl, hcd.trans hreach⟩

end

/-! ## Tokens -/

namespace Move

variable (M : Move)

theorem nameTail_isPrefix (cs : List Char) : nameTail cs <+: cs := by
  induction cs with
  | nil => exact List.nil_prefix
  | cons c cs ih =>
    rw [nameTail]
    split
    · exact List.cons_prefix_cons.2 ⟨rfl, ih⟩
    · exact List.nil_prefix

theorem carries_scanName (c : Cursor) : Carries M id c c.scanName (M.cursor c).scanName := by
  simp only [Cursor.scanName, ← M.cursor_eat c (show '$' ≠ '\n' by decide), cursor_rest]
  cases hd : (c.eat '$').rest with
  | nil => exact carries_error
  | cons first more =>
    simp only [List.cons_append, M.nameTail_append]
    split
    · have hpast : first :: nameTail more <+: (c.eat '$').rest := by
        rw [hd]
        exact List.cons_prefix_cons.2 ⟨rfl, nameTail_isPrefix more⟩
      rw [← M.cursor_past hpast, M.textTo_cursor]
      exact carries_ok rfl rfl ((c.reaches_eat '$').trans (Cursor.reaches_past hpast))
    · exact carries_error

theorem scanFraction_cursor (c : Cursor) :
    (M.cursor c).scanFraction = (c.scanFraction.1, M.cursor c.scanFraction.2) := by
  unfold Cursor.scanFraction
  rw [cursor_rest]
  rcases hc : c.rest with _ | ⟨a, _ | ⟨b, rest⟩⟩
  · rcases M.tail_cases with ht | ⟨more, ht⟩ <;> rw [ht]
    · rfl
    · cases more <;> rfl
  · by_cases ha : a = '.'
    · subst ha
      rcases M.tail_cases with ht | ⟨more, ht⟩ <;> rw [ht] <;> rfl
    · simp [ha]
  · by_cases ha : a = '.'
    · subst ha
      simp only [List.cons_append]
      split
      · rw [← M.cursor_past (show ['.'] <+: c.rest from ⟨b :: rest, hc.symm⟩),
          M.takeWhile_cursor _ (by decide)]
      · rfl
    · simp [ha]

theorem reaches_scanFraction (c : Cursor) : c.Reaches c.scanFraction.2 := by
  unfold Cursor.scanFraction
  split
  · next d rest hc =>
    split
    · exact (Cursor.reaches_past ⟨d :: rest, hc.symm⟩).trans (Cursor.reaches_takeWhile ..)
    · exact .refl c
  · exact .refl c

theorem carries_scanExponent (b c : Cursor) :
    Carries M id c (b.scanExponent c) ((M.cursor b).scanExponent (M.cursor c)) := by
  unfold Cursor.scanExponent
  rw [cursor_rest]
  rcases hc : c.rest with _ | ⟨e, rest⟩
  · rcases M.tail_cases with ht | ⟨more, ht⟩ <;> rw [ht] <;> exact carries_ok rfl rfl (.refl c)
  · have he : [e] <+: c.rest := ⟨rest, hc.symm⟩
    simp only [List.cons_append, ← M.cursor_past he]
    split
    · rw [M.startsWith_cursor _ (by decide), ← M.cursor_eat _ (by decide), ← M.cursor_eat _ (by decide)]
      simp only [← apply_ite M.cursor, M.takeWhile_cursor _ (show Char.isDigit '\n' = false by decide)]
      have hsign :
        c.Reaches
          (if (c.past [e]).startsWith ['-'] then (c.past [e]).eat '-' else (c.past [e]).eat '+') := by
        refine (Cursor.reaches_past he).trans ?_
        split
        · exact Cursor.reaches_eat ..
        · exact Cursor.reaches_eat ..
      generalize (if (c.past [e]).startsWith ['-'] then (c.past [e]).eat '-' else
        (c.past [e]).eat '+') = u at hsign ⊢
      split
      · exact carries_error
      · exact carries_ok rfl rfl (hsign.trans (Cursor.reaches_takeWhile ..))
    · exact carries_ok rfl rfl (.refl c)

theorem carries_scanNumber (c : Cursor) : Carries M id c c.scanNumber (M.cursor c).scanNumber := by
  have hdigit : Char.isDigit '\n' = false := by decide
  have hname : isNameChar '\n' = false := by decide
  unfold Cursor.scanNumber
  simp only [← M.cursor_eat c (show '-' ≠ '\n' by decide), M.takeWhile_cursor _ hdigit,
    scanFraction_cursor, M.startsWith_cursor c (show '\n' ∉ ['-'] by decide)]
  split
  · exact carries_error
  · have hfraction := (c.reaches_eat '-').trans
      (((c.eat '-').reaches_takeWhile Char.isDigit).trans (reaches_scanFraction _))
    refine Carries.bind (f := id) ((M.carries_scanExponent c _).since hfraction) ?_
    intro exponent d _
    simp only [M.takeWhile_cursor d hname, id_eq]
    split
    · exact carries_ok rfl rfl (.refl d)
    · exact carries_error

/-! ## Strings -/

theorem reaches_advance (file : FileId) (p : Position) (ch : Char) (rest : List Char) :
    Cursor.Reaches ⟨file, p, ch :: rest⟩ ⟨file, p.advance ch, rest⟩ := ⟨[ch], ⟨rest, rfl⟩, rfl⟩

theorem carries_stringBody (triple : Bool) (start : Cursor) (p : Position) (cs : List Char) :
    Carries M id ⟨start.file, p, cs⟩ (Cursor.stringBody triple start p cs)
      (Cursor.stringBody triple (M.cursor start) (M.position p) (cs ++ M.tail)) := by
  -- The first alternative fails on the left. In the others one character or one escape is taken on
  -- both sides.
  fun_induction Cursor.stringBody triple start p cs with
  | case1 | case5 | case6 | case8 | case9 | case11 => exact carries_error
  | case2 p htriple rest =>
    subst htriple
    refine carries_ok rfl ?_ ⟨['"', '"', '"'], ⟨rest, rfl⟩, rfl⟩
    simp only [cursor, M.position_after]
    rfl
  | case3 p rest htriple hrest ih =>
    subst htriple
    rw [M.position_advance] at ih
    rw [List.cons_append,
      Cursor.stringBody.eq_3 _ _ _ _ (M.ne_append (p := ['"', '"']) (by decide) hrest)]
    exact ih.prepend (reaches_advance ..)
  | case4 p rest htriple =>
    obtain rfl : triple = false := eq_false_of_ne_true htriple
    rw [List.cons_append, Cursor.stringBody_quote]
    exact carries_ok rfl (by simp only [cursor, M.position_advance]) (reaches_advance ..)
  | case7 p q a b c d rest hex q' hlong ch hch ih =>
    have hhex : hex = [a, b, c, d] :=
      List.IsPrefix.eq_of_length_le ( List.takeWhile_prefix _) (Nat.le_of_not_lt hlong)
    rw [M.position_after, M.position_advance] at ih
    have hmoved : Cursor.stringBody triple (M.cursor start) (M.position p)
        ('\\' :: 'u' :: a :: b :: c :: d :: (rest ++ M.tail)) =
        Cursor.prepend ch (Cursor.stringBody triple (M.cursor start)
          (((M.position p).advance '\\').after ('u' :: hex)) (rest ++ M.tail)) := by
      rw [Cursor.stringBody.eq_5, if_neg hlong, hch]
    rw [show '\\' :: 'u' :: a :: b :: c :: d :: rest ++ M.tail = '\\' :: 'u' :: a :: b :: c :: d ::
      (rest ++ M.tail) from rfl, hmoved]
    refine ih.prepend ⟨['\\', 'u', a, b, c, d], ⟨rest, rfl⟩, ?_⟩
    simp only [q', hhex]
    rfl
  | case10 p q e more he ih =>
    rw [M.position_advance, M.position_advance] at ih
    simp only [List.cons_append, Cursor.stringBody.eq_7 _ _ _ _ _ he]
    exact ih.prepend ((reaches_advance ..).trans (reaches_advance ..))
  | case12 p ch rest hquote hslash hch ih =>
    rw [M.position_advance] at ih
    rw [List.cons_append, Cursor.stringBody.eq_8 _ _ _ _ _ hquote hslash, if_neg hch]
    exact ih.prepend (reaches_advance ..)

theorem carries_scanString {c : Cursor} (hc : c.rest.head? = some '"') :
    Carries M id c c.scanString (M.cursor c).scanString := by
  obtain ⟨rest, hrest⟩ := List.head?_eq_some_iff.1 hc
  have hopen : ['"'] <+: c.rest := ⟨rest, hrest.symm⟩
  unfold Cursor.scanString
  rw [← M.cursor_past hopen]
  refine Carries.bind (f := id)
    ((M.carries_stringBody false c _ _).since (Cursor.reaches_past hopen)) ?_
  exact fun chars d _ => carries_ok rfl rfl (.refl d)

theorem carries_scanAnyString {c : Cursor} (hc : c.rest.head? = some '"') :
    Carries M id c c.scanAnyString (M.cursor c).scanAnyString := by
  unfold Cursor.scanAnyString
  rw [M.startsWith_cursor c (by decide)]
  split
  · next htriple =>
    have hopen : ['"', '"', '"'] <+: c.rest := List.isPrefixOf_iff_prefix.1 htriple
    rw [← M.cursor_past hopen]
    refine Carries.bind (f := id)
      ((M.carries_stringBody true c _ _).since (Cursor.reaches_past hopen)) ?_
    exact fun chars d _ => carries_ok rfl rfl (.refl d)
  · exact M.carries_scanString hc

theorem carries_scanKey (c : Cursor) : Carries M id c c.scanKey (M.cursor c).scanKey := by
  unfold Cursor.scanKey
  rw [cursor_rest]
  rcases hc : c.rest with _ | ⟨first, rest⟩
  · exact carries_error
  · simp only [List.cons_append]
    split
    · next hfirst => exact M.carries_scanString (by rw [hc, hfirst]; rfl)
    · split
      · rw [M.takeWhile_cursor c (by decide)]
        exact carries_ok rfl rfl (Cursor.reaches_takeWhile ..)
      · exact carries_error

end Move

end Worldbook
