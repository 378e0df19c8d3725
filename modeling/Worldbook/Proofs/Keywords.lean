import Worldbook.Proofs.Batches
import Worldbook.Proofs.Takings

/-!
# Words of blocks in a tree

A statement takes its words and values from the pieces of its line. So `do` and
`end` lead a statement only as strings, and as names they stand in brackets
only, while a longer name that starts with one of them is always one word.
-/

namespace Worldbook

/-! ## Words in a statement -/

namespace Statement

/-- The statement is a list, and its items are those of an array that is read
in the text and ends where the list does. -/
def IsBracketed (o : Cursor) (t : Statement) : Prop :=
  ∃ (key : Option String) (items : List Value) (span : Span) (a d : Cursor),
    t = .within key items span ∧ o.Reaches a ∧
    a.scanValue = .ok (.array items (a.spanTo d), d) ∧ d.pos = span.stop

/-- A statement is led by a whole name that is no word of a block, or by a
string, which the statement shows where its form can. The first word of a change
is no word of a block either, and no value is, nor what it calls, but in the
brackets of a list. Each value at any depth has a whole name as its word. -/
structure KeepsWords (o : Cursor) (t : Statement) : Prop where
  keyword : ∀ k, t.keyword? = some k → k ∉ blockWords ∧
    (o.HasName t.span.start k ∨ ∃ v, t = shorthand k v) ∨
    o.HasString t.span.start k ∧ (t.isQuoted = true ∨ t.showsQuotes = false)
  target : ∀ w, t.target? = some w → w ∉ blockWords ∧ ∃ p, o.HasName p w
  values : ∀ v ∈ t.values, ∀ u ∈ v.outer, ∀ w ∈ blockWords, u.word? = some w → t.IsBracketed o
  whole : ∀ v ∈ t.values, ∀ u ∈ v.tree, ∀ w, u.word? = some w → o.HasName u.span.start w

end Statement

namespace Piece

variable {o : Cursor} {v : Value}

theorem Stands.value (h : (Piece.value v).Stands o) :
    v.Stands o ∧ ∀ w, v.word? = some w → w ∉ blockWords := by
  obtain ⟨a, d, ha, hscan, hdo, hend⟩ := h
  have hvalue := Cursor.scanValue_of_scanPiece hscan
  refine ⟨⟨a, d, _, ha, hvalue⟩, ?_⟩
  intro w hw
  obtain ⟨e, he⟩ := (Cursor.readAs_of_value hvalue).word w hw
  exact Cursor.not_mem_blockWords hdo hend he

theorem Stands.hasString {k : String} {q : Span} (h : (Piece.value (.str k q)).Stands o) :
    o.HasString q.start k := by
  obtain ⟨a, d, ha, hscan, -, -⟩ := h
  have hread := Cursor.readAs_of_value (Cursor.scanValue_of_scanPiece hscan)
  obtain ⟨e, hquote, he⟩ := hread.string k rfl
  have hspan : q = a.spanTo d := hread.span
  exact ⟨a, e, ha, by rw [hspan]; rfl, hquote, he⟩

end Piece

namespace Statement

variable {o c : Cursor} {sp : Span} {s : Statement}

theorem keepsWords_of_isShorthand {ps : List Piece} {t : Statement} (hps : ∀ p ∈ ps, p.Stands o)
    (h : t.IsShorthand ps) : t.KeepsWords o := by
  obtain ⟨key, v, u, rfl, hkey, hu, hv⟩ := h
  obtain ⟨hstands, hword⟩ := (hps _ hu).value
  refine ⟨?_, by simp [shorthand, target?], ?_, ?_⟩
  · intro k hk
    cases hk
    exact .inl ⟨hkey, .inr ⟨v, rfl⟩⟩
  · intro v' hv' x hx w hw hxw
    obtain rfl : v' = v := by simpa [shorthand, values] using hv'
    -- only the value itself can have a word, not the array around it
    have hxu : x = u := by
      obtain rfl | rfl := hv
      · simpa [hstands.outer_eq] using hx
      · obtain rfl | rfl : x = .array [u] u.span ∨ x = u := by
          simpa [Value.outer, Value.parts, Value.span] using hx
        · cases hxw
        · rfl
    rw [hxu] at hxw
    exact absurd hw (hword w hxw)
  · intro v' hv' x hx w hxw
    obtain rfl : v' = v := by simpa [shorthand, values] using hv'
    have hxu : x ∈ u.tree := by
      obtain rfl | rfl := hv
      · exact hx
      · rw [Value.tree_eq] at hx
        obtain rfl | hx : x = .array [u] u.span ∨ x ∈ u.tree := by simpa [Value.parts] using hx
        · cases hxw
        · exact hx
    exact (hstands.tree x hxu).hasName hxw

theorem keepsWords_of_takes {line : Cursor.Line} (hskip : c.skipInlineBlanks = c)
    (hline : o.LineStands c line) (h : s.Takes sp line.pieces) (hstart : sp.start = c.pos)
    (hstop : ∀ key items, s = .within key items sp → sp.stop = line.stop) : s.KeepsWords o := by
  have hhead : ∀ p, line.pieces.head? = some p → p.Stands o ∧ p.span.start = s.span.start := by
    intro p hp
    refine ⟨hline.pieces p (List.mem_of_head? hp), ?_⟩
    rw [hline.first p hp, hskip, h.span, hstart]
  -- In order: the leading word, the first word of a change, the values that are no words of a
  -- block, and the words of all values.
  refine ⟨?_, ?_, ?_, ?_⟩
  · intro k hk
    obtain ⟨q, hq⟩ | ⟨⟨q, hq⟩, hquoted⟩ := h.keyword k hk
    · obtain ⟨hstands, hspan⟩ := hhead _ hq
      rw [← hspan]
      exact .inl ⟨hstands.value.2 k rfl, .inl (hstands.value.1.hasName rfl)⟩
    · obtain ⟨hstands, hspan⟩ := hhead _ hq
      rw [← hspan]
      exact .inr ⟨hstands.hasString, hquoted⟩
  · intro w hw
    obtain ⟨q, hq⟩ := h.target w hw
    have hstands := (hline.pieces _ hq).value
    exact ⟨hstands.2 w rfl, q.start, hstands.1.hasName rfl⟩
  · intro v hv u hu w hw huw
    obtain hmem | ⟨key, items, q, hs, -, hlast⟩ := h.values v hv
    · obtain ⟨hstands, hword⟩ := (hline.pieces _ hmem).value
      rw [hstands.outer_eq, List.mem_singleton] at hu
      rw [hu] at huw
      exact absurd hw (hword w huw)
    · obtain ⟨a, d, ha, hscan, -, -⟩ := hline.pieces _ (List.mem_of_getLast? hlast)
      have hvalue := Cursor.scanValue_of_scanPiece hscan
      have hspan : q = a.spanTo d := (Cursor.readAs_of_value hvalue).span
      rw [hspan] at hvalue
      refine ⟨key, items, sp, a, d, hs, ha, hvalue, ?_⟩
      rw [hstop key items hs, hline.last, hlast, hspan]
      rfl
  · intro v hv u hu w huw
    have hstands : v.Stands o := by
      obtain hmem | ⟨key, items, q, -, hmem, hlast⟩ := h.values v hv
      · exact (hline.pieces _ hmem).value.1
      · exact (hline.pieces _ (List.mem_of_getLast? hlast)).value.1.parts v hmem
    exact (hstands.tree u hu).hasName huw

end Statement

/-! ## Statements -/

namespace Cursor

variable {o c d : Cursor} {n : Nat}

theorem head?_drop_trivia (p : Char → Bool) (comment : Bool) (cs : List Char) :
    ∀ ch ∈ (cs.drop (trivia p comment cs).length).head?, p ch = false := by
  induction cs generalizing comment with
  | nil => simp
  | cons x cs ih =>
    cases comment with
    | true => simpa [trivia] using ih _
    | false =>
      by_cases hx : p x = true
      · simpa [trivia, hx] using ih false
      · by_cases hcomment : x = '#' ∨ x = '/' ∧ cs.head? = some '/'
        · simpa [trivia, hx, hcomment] using ih true
        · simp [trivia, hx, hcomment]

theorem skipInlineBlanks_skipSeparators (c : Cursor) :
    c.skipSeparators.skipInlineBlanks = c.skipSeparators := by
  have hhead := head?_drop_trivia isSeparator false c.rest
  have hrest : c.skipSeparators.rest = c.rest.drop (trivia isSeparator false c.rest).length := rfl
  rw [← hrest] at hhead
  generalize c.skipSeparators = d at hhead
  have hnil : d.rest.takeWhile isInlineBlank = [] := by
    cases hd : d.rest with
    | nil => rfl
    | cons x xs =>
      have hx := hhead x (by simp [hd])
      simp only [isSeparator, isBlank, Bool.or_eq_false_iff] at hx
      rw [List.takeWhile_cons, hx.1.1.1]
      rfl
  rw [skipInlineBlanks, hnil, past_nil]

def KeepsWords (c : Cursor) (s : Statement) : Prop :=
  ∀ o : Cursor, o.Reaches c → ∀ t ∈ s.tree, t.KeepsWords o

theorem gives_statementRound {header : Option Span} {r : Round Statement (List Statement)}
    (hstatement : ∀ (c : Cursor) s d, c.skipInlineBlanks = c → c.statement n = .ok (s, d) →
      c.KeepsWords s)
    (h : statementRound n header c = .ok r) : r.Gives KeepsWords c := by
  obtain ⟨d, rfl, -⟩ | ⟨first, d, hfirst, rfl⟩ := cases_statementRound h
  · rfl
  · have hskip := c.reaches_skipSeparators
    refine ⟨?_, hskip.trans (advances_of_statement hfirst).reaches⟩
    intro o ho
    exact hstatement _ _ _ c.skipInlineBlanks_skipSeparators hfirst o (ho.trans hskip)

theorem keepsWords_of_statements {header : Option Span} {ss : List Statement}
    (hstatement : ∀ k < n, ∀ (c : Cursor) s d, c.skipInlineBlanks = c → c.statement k = .ok (s, d) →
      c.KeepsWords s)
    (h : statements n header c = .ok (ss, d)) : ∀ s ∈ ss, c.KeepsWords s := by
  refine Round.forall_mem KeepsWords (fun k => statements k header) (fun k => statementRound k header)
    ?_ ?_ ?_ ?_ h
  · intro c d s hcd hs o ho
    exact hs o (ho.trans hcd)
  · intro c p hp
    cases hp
  · intro k c
    exact statements_eq k header c
  · intro k hk c r hr
    exact gives_statementRound (hstatement k hk) hr

theorem keepsWords_of_statement {s : Statement} (hskip : c.skipInlineBlanks = c)
    (h : c.statement n = .ok (s, d)) : c.KeepsWords s := by
  -- the statements of a body are read with any smaller number of rounds
  induction n using Nat.strongRecOn generalizing c d s with
  | ind n ih =>
    cases n with
    | zero => cases h
    | succ n =>
      intro o ho
      rw [statement] at h
      obtain ⟨⟨line, e⟩, hscan, h⟩ := bind_eq_ok h
      have hline := lineStands_of_scanLine ho hscan
      have hce := ((proceeds_scanLine (.refl c)).1 line e hscan).1
      rw [Statement.tree_eq, List.forall_mem_cons]
      dsimp only at h
      split at h
      · obtain ⟨⟨name, quoted, labels⟩, hheader, h⟩ := bind_eq_ok h
        obtain ⟨⟨body, f⟩, hbody, heq⟩ := bind_eq_ok h
        cases heq
        refine ⟨?_, ?_⟩
        · refine Statement.keepsWords_of_takes hskip hline (Statement.takes_of_blockHeader hheader)
            rfl ?_
          intro key items hs
          cases hs
        · show ∀ t ∈ Statement.treeAll body, t.KeepsWords o
          rw [Statement.treeAll_eq, List.forall_mem_flatMap]
          intro t ht
          refine keepsWords_of_statements ?_ hbody t ht o (ho.trans hce)
          intro k hk c' s' d' hskip' hs'
          exact ih k (Nat.lt_succ_of_lt hk) hskip' hs'
      · obtain ⟨t, ht, heq⟩ := bind_eq_ok h
        cases heq
        obtain ⟨htakes, hshort⟩ := Statement.takes_of_ofLine ht
        refine ⟨Statement.keepsWords_of_takes hskip hline htakes rfl (by simp), ?_⟩
        rw [Statement.treeAll_eq, List.forall_mem_flatMap]
        intro t ht
        -- a statement of a short form has no body of its own
        have htree : t.tree = [t] := by
          obtain ⟨key, v, u, rfl, -⟩ := hshort t ht
          rfl
        rw [htree, List.forall_mem_singleton]
        exact Statement.keepsWords_of_isShorthand hline.pieces (hshort t ht)

end Cursor

theorem keepsWords_of_parse {file : FileId} {text : String} {ss : List Statement}
    (h : parse file text = .ok ss) : ∀ t ∈ Statement.treeAll ss, t.KeepsWords (.ofText file text) := by
  obtain ⟨⟨found, d⟩, hfound, heq⟩ := Cursor.bind_eq_ok h
  cases heq
  rw [Statement.treeAll_eq, List.forall_mem_flatMap]
  intro s hs
  refine Cursor.keepsWords_of_statements ?_ hfound s hs _ (.refl _)
  intro k _ c s d hskip hs
  exact Cursor.keepsWords_of_statement hskip hs

/-- To look for `do` or `end` is to scan a name and to compare, at every place of
every text. So in the tree of a text these words are kept apart from names, and a word
that is joined to more is one name, for the scanner, as a value and on a line. -/
theorem block_words_agree (file : FileId) (text : String) :
    (∀ (c : Cursor) (w : String), w ∈ blockWords → (c.atWord w = true ↔ ∃ d, c.scanName = .ok (w, d))) ∧
    (∀ ss, parse file text = .ok ss → ∀ t ∈ Statement.treeAll ss, t.KeepsWords (.ofText file text)) ∧
    ∀ (c : Cursor) (w : String) (j ch : Char) (more : List Char), w ∈ blockWords → isJoiner j = true →
      isNameChar ch = true → c.rest = w.toList ++ j :: ch :: more →
      let whole := Cursor.joinedWord w j ch more
      let d := c.past whole.toList
      c.atWord "do" = false ∧ c.atWord "end" = false ∧ c.scanName = .ok (whole, d) ∧
        (d.startsWith ['('] = false → (∀ n, c.value (n + 1) = .ok (.name whole (c.spanTo d), d)) ∧
          c.pieceRound = .ok (.more (.value (.name whole (c.spanTo d))) d)) := by
  refine ⟨?_, ?_, ?_⟩
  · intro c w hw
    exact Cursor.atWord_iff_scanName (Cursor.isPlainName_of_blockWord hw)
  · intro ss hss
    exact keepsWords_of_parse hss
  · intro c w j ch more hw hj hch hc whole d
    have hplain := Cursor.isPlainName_of_blockWord hw
    refine ⟨?_, ?_, Cursor.scanName_joined hplain hj hch hc, ?_⟩
    · exact Cursor.atWord_joined (by decide) hplain hj hch hc
    · exact Cursor.atWord_joined (by decide) hplain hj hch hc
    · intro hparen
      exact ⟨Cursor.value_joined hplain hj hch hc hparen,
        Cursor.pieceRound_joined hplain hj hch hc hparen⟩

/-- Words of blocks as a quoted key and in brackets, beside names that start with them. -/
theorem block_words_agree_joined :
    let text := "\"do\" in [end, end-game]\nrole end.y do\n  x end:y\nend"
    (∃ ss, parse 0 text = .ok ss ∧ ∀ t ∈ Statement.treeAll ss, t.KeepsWords (.ofText 0 text)) ∧
    ∃ d, (Cursor.ofText 0 "end-game do").pieceRound =
      .ok (.more (.value (.name "end-game" ⟨0, ⟨0, 0, 0⟩, ⟨0, 8, 8⟩⟩)) d) := by
  intro text
  obtain ⟨-, htree, hjoined⟩ := block_words_agree 0 text
  refine ⟨?_, ?_⟩
  · obtain ⟨ss, hss⟩ : ∃ ss, parse 0 text = .ok ss := exists_parse_of_isOk (by decide +kernel)
    exact ⟨ss, hss, htree ss hss⟩
  · have hround :=
      (hjoined (.ofText 0 "end-game do") "end" '-' 'g' "ame do".toList (by decide)
        (by decide) (by decide)
      (by decide)).2.2.2 (by decide)
    exact ⟨_, hround.2⟩

end Worldbook
