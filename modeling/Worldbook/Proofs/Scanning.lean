import Worldbook.Proofs.Recovery
import Worldbook.Source.Parser

/-!
# Written values scan as themselves

A written token is read back when what follows it closes it: a blank, the end of the line, a comma
or a closing bracket. Each scanner is run on `token ++ tail` and stops exactly at `tail`.
-/

namespace Worldbook

/-! ## Cursors -/

namespace Cursor

@[simp] theorem past_nil (c : Cursor) : c.past [] = c := by simp [past]

theorem past_past (c : Cursor) (cs ds : List Char) : (c.past cs).past ds = c.past (cs ++ ds) := by
  simp [past, Position.after_append, List.drop_drop]

@[simp] theorem past_file (c : Cursor) (cs : List Char) : (c.past cs).file = c.file := rfl

theorem past_rest {c : Cursor} {a b : List Char} (h : c.rest = a ++ b) :
    (c.past a).rest = b := by simp [past, h]

theorem past_eq {c : Cursor} {cs tail : List Char} (h : c.rest = cs ++ tail) :
    c.past cs = ⟨c.file, c.pos.after cs, tail⟩ := by simp [past, h]

theorem eat_of_head {c : Cursor} {ch : Char} (h : c.rest.head? = some ch) : c.eat ch = c.past [ch] := by
  simp [eat, h]

theorem eat_of_ne {c : Cursor} {ch : Char} (h : c.rest.head? ≠ some ch) : c.eat ch = c := by
  simp [eat, h]

theorem startsWith_iff {c : Cursor} {cs : List Char} :
    c.startsWith cs = true ↔ ∃ tail, c.rest = cs ++ tail := by
  rw [startsWith, List.isPrefixOf_iff_prefix]
  exact ⟨fun ⟨t, h⟩ => ⟨t, h.symm⟩, fun ⟨t, h⟩ => ⟨t, h.symm⟩⟩

theorem textTo_past {c : Cursor} {cs tail : List Char} (h : c.rest = cs ++ tail) :
    c.textTo (c.past cs) = String.ofList cs := by
  simp [textTo, past, h]

theorem trivia_of_solid {p : Char → Bool} {pre : List Char} (hpre : ∀ ch ∈ pre, p ch = true) {ch : Char}
    {rest : List Char} (hp : p ch = false) (h1 : ch ≠ '#') (h2 : ch ≠ '/') :
    trivia p false (pre ++ ch :: rest) = pre := by
  induction pre with
  | nil => simp [trivia, hp, h1, h2]
  | cons x pre ih =>
    have hx := hpre x (List.mem_cons_self ..)
    simp only [List.cons_append, trivia, hx, if_true,
      ih fun ch hch => hpre ch (List.mem_cons_of_mem _ hch)]

end Cursor

/-! ## Characters that close a token -/

def isCloser (ch : Char) : Bool := [' ', '\n', ',', ']', '\x7d', ')'].contains ch

def Closed (tail : List Char) : Prop := ∀ ch ∈ tail.head?, isCloser ch = true

theorem Closed.not_head {tail : List Char} (h : Closed tail) {p : Char → Bool}
    (hp : ∀ ch, isCloser ch = true → p ch = false) : ∀ ch ∈ tail.head?, p ch = false :=
  fun ch hch => hp ch (h ch hch)

theorem isCloser_cases {ch : Char} (h : isCloser ch = true) :
    ch = ' ' ∨ ch = '\n' ∨ ch = ',' ∨ ch = ']' ∨ ch = '\x7d' ∨ ch = ')' := by
  simpa [isCloser] using h

theorem isNameChar_of_isCloser {ch : Char} (h : isCloser ch = true) : isNameChar ch = false := by
  rcases isCloser_cases h with rfl | rfl | rfl | rfl | rfl | rfl <;> decide

theorem isJoiner_of_isCloser {ch : Char} (h : isCloser ch = true) : isJoiner ch = false := by
  rcases isCloser_cases h with rfl | rfl | rfl | rfl | rfl | rfl <;> decide

theorem isDigit_of_isCloser {ch : Char} (h : isCloser ch = true) : ch.isDigit = false := by
  rcases isCloser_cases h with rfl | rfl | rfl | rfl | rfl | rfl <;> decide

theorem takeWhile_append_stop {p : Char → Bool} {cs tail : List Char} (hcs : ∀ ch ∈ cs, p ch = true)
    (htail : ∀ ch ∈ tail.head?, p ch = false) : (cs ++ tail).takeWhile p = cs := by
  induction cs with
  | nil =>
    cases tail with
    | nil => rfl
    | cons ch tail => simp [htail ch rfl]
  | cons ch cs ih =>
    rw [List.cons_append, List.takeWhile_cons, if_pos (hcs ch (List.mem_cons_self ..)),
      ih fun x hx => hcs x (List.mem_cons_of_mem _ hx)]

/-! ## Names -/

/-- What may follow the first letter of a name: name characters, and joiners in front of them. -/
def isNameRest : List Char → Bool
  | [] => true
  | c :: rest => (isNameChar c || (isJoiner c && rest.head?.any isNameChar)) && isNameRest rest

theorem nameTail_append {cs tail : List Char} (h : isNameRest cs = true)
    (htail : ∀ ch ∈ tail.head?, isNameChar ch = false ∧ isJoiner ch = false) :
    nameTail (cs ++ tail) = cs := by
  induction cs with
  | nil =>
    cases tail with
    | nil => rfl
    | cons ch tail => simp [nameTail, htail ch rfl]
  | cons c cs ih =>
    rw [isNameRest, Bool.and_eq_true, Bool.or_eq_true] at h
    have hc : (isNameChar c || (isJoiner c && (cs ++ tail).head?.any isNameChar)) = true := by
      rcases h.1 with h1 | h1
      · rw [h1, Bool.true_or]
      · cases cs with
        | nil => simp at h1
        | cons d cs => simp only [List.cons_append, List.head?_cons] at h1 ⊢; rw [h1, Bool.or_true]
    rw [List.cons_append, nameTail, if_pos hc, ih h.2]

def isPlainName : List Char → Bool
  | [] => false
  | c :: rest => isNameStart c && isNameRest rest

def isName : List Char → Bool
  | '$' :: rest => isPlainName rest
  | cs => isPlainName cs

theorem isNameStart_dollar : isNameStart '$' = false := by decide

/-- The characters that start a name, as far as other tokens and blanks are concerned. -/
theorem isNameStart_ne {c : Char} (h : isNameStart c = true) {d : Char} (hd : isNameStart d = false) :
    c ≠ d := by
  rintro rfl
  rw [h] at hd
  cases hd

/-- A name that nothing continues is scanned whole. -/
theorem scanName_of_isName {c : Cursor} {cs tail : List Char} (h : c.rest = cs ++ tail)
    (hcs : isName cs = true) (htail : ∀ ch ∈ tail.head?, isNameChar ch = false ∧ isJoiner ch = false) :
    c.scanName = .ok (String.ofList cs, c.past cs) := by
  -- with the `$` out of the way both shapes are one
  have key : ∀ (d : Cursor) (pre : List Char), d = c.past pre → ∀ ds, cs = pre ++ ds →
    isPlainName ds = true →
      (match d.rest with
        | [] => d.fail .expectedName
        | first :: more =>
          if isNameStart first then
            let d' := d.past (first :: nameTail more)
            .ok (c.textTo d', d')
          else d.fail .expectedName) = Except.ok (String.ofList cs, c.past cs) := by
    intro d pre hd ds hds hp
    cases ds with
    | nil => cases hp
    | cons first more =>
      rw [isPlainName, Bool.and_eq_true] at hp
      have hrest : d.rest = first :: (more ++ tail) := by
        rw [hd, Cursor.past_rest (h.trans (by rw [hds, List.append_assoc]))]; rfl
      rw [hrest]
      simp only [hp.1, if_true, nameTail_append hp.2 htail]
      rw [hd, Cursor.past_past, ← hds, Cursor.textTo_past h]
  unfold Cursor.scanName
  cases cs with
  | nil => cases hcs
  | cons first more =>
    by_cases hf : first = '$'
    · subst hf
      refine key _ ['$'] ?_ more rfl hcs
      rw [Cursor.eat_of_head (by rw [h]; rfl)]
    · have hp : isPlainName (first :: more) = true := by
        unfold isName at hcs
        split at hcs
        · next heq => exact absurd (List.cons.inj heq).1 hf
        · exact hcs
      refine key _ [] ?_ _ rfl hp
      rw [Cursor.past_nil, Cursor.eat_of_ne]
      rw [h]
      simpa using hf

theorem isNameChar_of_isWordChar {c : Char} (h : isWordChar c = true) : isNameChar c = true := by
  simp only [isWordChar, Char.isAlphanum, Bool.or_eq_true, decide_eq_true_eq] at h
  simp only [isNameChar, isNameStart, Bool.or_eq_true, decide_eq_true_eq]
  rcases h with (h | h) | h
  · exact .inr (.inl (.inl (.inl h)))
  · exact .inl h
  · exact .inr (.inl (.inl (.inr h)))

theorem isNameStart_of_isWordStart {c : Char} (h : isWordStart c = true) : isNameStart c = true := by
  simp only [isWordStart, Bool.or_eq_true, decide_eq_true_eq] at h
  simp only [isNameStart, Bool.or_eq_true, decide_eq_true_eq]
  exact .inl (.inl h)

theorem isNameRest_of_isJoined {j : Char} (hj : isJoiner j = true) {cs : List Char}
    (h : isJoined j cs = true) : isNameRest cs = true := by
  induction cs with
  | nil => rfl
  | cons c cs ih =>
    simp only [isJoined, Bool.and_eq_true, Bool.or_eq_true, decide_eq_true_eq] at h
    simp only [isNameRest, Bool.and_eq_true, Bool.or_eq_true, ih h.2, and_true]
    rcases h.1 with h1 | ⟨rfl, h1⟩
    · exact .inl (isNameChar_of_isWordChar h1)
    · refine .inr ⟨hj, ?_⟩
      cases cs with
      | nil => simp at h1
      | cons d cs => exact isNameChar_of_isWordChar (by simpa using h1)

theorem isJoined_of_all {j : Char} {cs : List Char} (h : cs.all isWordChar = true) :
    isJoined j cs = true := by
  induction cs with
  | nil => rfl
  | cons c cs ih =>
    rw [List.all_cons, Bool.and_eq_true] at h
    simp [isJoined, h.1, ih h.2]

theorem isPlainName_of_isJoinedWord {j : Char} (hj : isJoiner j = true) {cs : List Char}
    (h : isJoinedWord j cs = true) : isPlainName cs = true := by
  cases cs with
  | nil => cases h
  | cons c cs =>
    rw [isJoinedWord, Bool.and_eq_true] at h
    rw [isPlainName, isNameStart_of_isWordStart h.1, isNameRest_of_isJoined hj h.2, Bool.and_self]

theorem isPlainName_of_isPlainWord {cs : List Char} (h : isPlainWord cs = true) :
    isPlainName cs = true := by
  cases cs with
  | nil => cases h
  | cons c cs =>
    rw [isPlainWord, Bool.and_eq_true] at h
    rw [isPlainName, isNameStart_of_isWordStart h.1,
      isNameRest_of_isJoined (j := '-') (by decide) (isJoined_of_all h.2), Bool.and_self]

theorem isName_of_isPlainName {cs : List Char} (h : isPlainName cs = true) : isName cs = true := by
  cases cs with
  | nil => cases h
  | cons c cs =>
    have hc : c ≠ '$' := by
      rw [isPlainName, Bool.and_eq_true] at h
      exact isNameStart_ne h.1 isNameStart_dollar
    unfold isName
    split
    · next heq => exact absurd (List.cons.inj heq).1 hc
    · exact h

theorem isName_of_isVariable {cs : List Char} (h : isVariable cs = true) : isName cs = true := by
  unfold isVariable at h
  split at h
  · exact isPlainName_of_isJoinedWord (j := '.') (by decide) h
  · cases h

theorem isName_of_isBare {s : String} (h : Written.isBare s = true) : isName s.toList = true := by
  simp only [Written.isBare, Bool.and_eq_true, Bool.or_eq_true] at h
  rcases h.1 with ((h1 | h1) | h1) | h1
  · exact isName_of_isPlainName (isPlainName_of_isJoinedWord (j := '-') (by decide) h1)
  · exact isName_of_isPlainName (isPlainName_of_isJoinedWord (j := '.') (by decide) h1)
  · exact isName_of_isPlainName (isPlainName_of_isJoinedWord (j := ':') (by decide) h1.1)
  · exact isName_of_isVariable h1

/-! ## Strings -/

namespace Cursor

theorem stringBody_quote (start : Cursor) (p : Position) (tail : List Char) :
    stringBody false start p ('"' :: tail) = .ok ([], ⟨start.file, p.advance '"', tail⟩) := by
  by_cases h : ∃ tail', tail = '"' :: '"' :: tail'
  · obtain ⟨tail', rfl⟩ := h
    rw [stringBody]; rfl
  · rw [stringBody]
    · rfl
    · exact fun tail' h' => h ⟨tail', h'⟩

theorem stringBody_plain (start : Cursor) (p : Position) {ch : Char} (h1 : ch ≠ '"') (h2 : ch ≠ '\\')
    (h3 : ch ≠ '\n') (h4 : ch ≠ '\r') (rest : List Char) :
    stringBody false start p (ch :: rest) =
      prepend ch (stringBody false start (p.advance ch) rest) := by
  rw [stringBody.eq_8 false start p ch rest h1 h2]
  simp [h3, h4]

theorem stringBody_escape (start : Cursor) (p : Position) {e : Char} (he : e ≠ 'u') (rest : List Char) :
    stringBody false start p ('\\' :: e :: rest) =
      prepend (unescape e) (stringBody false start (p.after ['\\', e]) rest) :=
  stringBody.eq_7 false start p e rest he

/-- The four digits of a control character read as its code point. -/
theorem hex_of_lt : ∀ n : Fin 160,
    (fun hex : List Char => hex.length = 4 ∧ hex.all isHexDigit = true ∧
      hex.foldl (fun n x => 16 * n + hexValue x) 0 = n.val)
    (List.replicate (4 - (Nat.toDigits 16 n).length) '0' ++ Nat.toDigits 16 n) := by
  decide +kernel

theorem stringBody_unicodeEscape (start : Cursor) (p : Position) {ch : Char}
    (h : Written.isControl ch = true) (rest : List Char) :
    stringBody false start p (Quoted.unicodeEscape ch ++ rest) =
      prepend ch (stringBody false start (p.after (Quoted.unicodeEscape ch)) rest) := by
  have hlt : ch.toNat < 160 := by
    simp only [Written.isControl, Bool.or_eq_true, Bool.and_eq_true, decide_eq_true_eq] at h
    omega
  obtain ⟨hlen, hall, hval⟩ := hex_of_lt ⟨ch.toNat, hlt⟩
  have hesc : Quoted.unicodeEscape ch = '\\' :: 'u' ::
      (List.replicate (4 - (Nat.toDigits 16 ch.toNat).length) '0' ++ Nat.toDigits 16 ch.toNat) := rfl
  rw [hesc]
  generalize (List.replicate (4 - (Nat.toDigits 16 ch.toNat).length) '0' ++ Nat.toDigits 16 ch.toNat) =
    hex at hlen hall hval ⊢
  clear hesc
  obtain ⟨a, b, c, d, rfl⟩ : ∃ a b c d, hex = [a, b, c, d] := by
    match hex, hlen with
    | [a, b, c, d], _ => exact ⟨a, b, c, d, rfl⟩
  have htake : [a, b, c, d].takeWhile isHexDigit = [a, b, c, d] := by
    have := takeWhile_append_stop (List.all_eq_true.1 hall) (show ∀ ch ∈ [].head?,
      isHexDigit ch = false by simp)
    rwa [List.append_nil] at this
  have hv : ch.toNat.isValidChar := ch.valid
  rw [List.cons_append, List.cons_append, show [a, b, c, d] ++ rest = a :: b :: c :: d :: rest from rfl,
    stringBody.eq_5, htake, if_neg (by simp), hval]
  simp only [charOfCode, if_pos hv, Char.ofNat_toNat]
  rfl

/-- What a character is written as stands for it. -/
theorem stringBody_escaped (start : Cursor) (p : Position) (ch : Char) (rest : List Char) :
    stringBody false start p (Quoted.escape Written.isControl ch ++ rest) =
      prepend ch (stringBody false start (p.after (Quoted.escape Written.isControl ch)) rest) := by
  unfold Quoted.escape
  split
  case h_8 h1 h2 h3 h4 h5 h6 h7 =>
    split
    · next hc => exact stringBody_unicodeEscape start p hc rest
    · exact stringBody_plain start p h1 h2 h3 h4 rest
  all_goals exact stringBody_escape start p (by decide) rest

theorem stringBody_encode (start : Cursor) (tail : List Char) : ∀ (cs : List Char) (p : Position),
    stringBody false start p (cs.flatMap (Quoted.escape Written.isControl) ++ '"' :: tail) =
      .ok (cs, ⟨start.file, p.after (cs.flatMap (Quoted.escape Written.isControl) ++ ['"']), tail⟩)
  | [], p => stringBody_quote start p tail
  | ch :: cs, p => by
    rw [List.flatMap_cons, List.append_assoc, List.append_assoc, Position.after_append,
      stringBody_escaped, stringBody_encode start tail cs]
    rfl

theorem quote_toList (s : String) : (Written.quote s).toList =
    '"' :: (s.toList.flatMap (Quoted.escape Written.isControl) ++ ['"']) := by
  simp [Written.quote, Quoted.encode]

theorem scanString_quote {c : Cursor} {s : String} {tail : List Char}
    (h : c.rest = (Written.quote s).toList ++ tail) :
    c.scanString = .ok (s, c.past (Written.quote s).toList) := by
  have hq := h
  rw [quote_toList, List.cons_append, List.append_assoc] at h
  have hbody : c.past ['"'] = ⟨c.file, c.pos.advance '"',
      s.toList.flatMap (Quoted.escape Written.isControl) ++ '"' :: tail⟩ := past_eq h
  rw [scanString, hbody, stringBody_encode, past_eq hq, quote_toList]
  simp [bind, Except.bind, pure, Except.pure]

/-- What a character is written as does not start with a quote. -/
theorem escape_head (ch : Char) : ∃ x xs, Quoted.escape Written.isControl ch = x :: xs ∧ x ≠ '"' := by
  unfold Quoted.escape
  split
  case h_8 h1 h2 h3 h4 h5 h6 h7 =>
    split
    · exact ⟨_, _, rfl, by decide⟩
    · exact ⟨_, _, rfl, h1⟩
  all_goals exact ⟨_, _, rfl, by decide⟩

/-- A written string never opens with three quotes. -/
theorem not_triple_quote {c : Cursor} {s : String} {tail : List Char}
    (htail : ∀ ch ∈ tail.head?, ch ≠ '"') (h : c.rest = (Written.quote s).toList ++ tail) :
    c.startsWith ['"', '"', '"'] = false := by
  rw [Bool.eq_false_iff]
  intro hs
  obtain ⟨more, hm⟩ := startsWith_iff.1 hs
  rw [h, quote_toList] at hm
  cases hcs : s.toList with
  | nil =>
    rw [hcs] at hm
    cases tail with
    | nil => simp at hm
    | cons ch tail =>
      simp only [List.flatMap_nil, List.nil_append, List.cons_append, List.cons.injEq, true_and] at hm
      exact htail ch rfl hm.1
  | cons ch cs =>
    obtain ⟨x, xs, he, hx⟩ := escape_head ch
    rw [hcs, List.flatMap_cons, he] at hm
    simp only [List.cons_append, List.cons.injEq, true_and] at hm
    exact hx hm.1

theorem scanAnyString_quote {c : Cursor} {s : String} {tail : List Char}
    (htail : ∀ ch ∈ tail.head?, ch ≠ '"') (h : c.rest = (Written.quote s).toList ++ tail) :
    c.scanAnyString = .ok (s, c.past (Written.quote s).toList) := by
  simp only [scanAnyString, not_triple_quote htail h, Bool.false_eq_true, if_false, scanString_quote h]

end Cursor

/-! ## Numbers -/

namespace Numeral

def signText (negative : Bool) : List Char := if negative then ['-'] else []

def fractionText : Option (List Char) → List Char
  | some digits => '.' :: digits
  | none => []

def spelled (n : Numeral) : List Char := signText n.negative ++ n.whole ++ fractionText n.fraction

structure IsPlain (n : Numeral) : Prop where
  whole_ne : n.whole ≠ []
  whole_digits : ∀ c ∈ n.whole, c.isDigit = true
  fraction_ne : n.fraction ≠ some []
  fraction_digits : ∀ digits ∈ n.fraction, ∀ c ∈ digits, c.isDigit = true
  exponent_eq : n.exponent = none

end Numeral

theorem Closed.not_digit {tail : List Char} (h : Closed tail) : ∀ ch ∈ tail.head?, ch.isDigit = false :=
  h.not_head fun _ => isDigit_of_isCloser

namespace Cursor

open Numeral

theorem takeWhile_eq {c : Cursor} {p : Char → Bool} {cs tail : List Char} (h : c.rest = cs ++ tail)
    (hcs : ∀ ch ∈ cs, p ch = true) (htail : ∀ ch ∈ tail.head?, p ch = false) :
    c.takeWhile p = (cs, c.past cs) := by
  simp only [takeWhile, h, takeWhile_append_stop hcs htail]

theorem scanFraction_spelled {c : Cursor} {fraction : Option (List Char)} {tail : List Char}
    (hne : fraction ≠ some []) (hd : ∀ digits ∈ fraction, ∀ ch ∈ digits, ch.isDigit = true)
    (htail : Closed tail) (h : c.rest = fractionText fraction ++ tail) :
    c.scanFraction = (fraction, c.past (fractionText fraction)) := by
  cases fraction with
  | none =>
    rw [fractionText, List.nil_append] at h
    rw [fractionText, past_nil, scanFraction]
    split
    · next hdot => exact absurd (htail '.' (by rw [← h, hdot]; rfl)) (by decide)
    · rfl
  | some digits =>
    cases digits with
    | nil => exact absurd rfl hne
    | cons d digits =>
      have hall := hd (d :: digits) rfl
      rw [fractionText, List.cons_append] at h
      have htake := takeWhile_eq (c := c.past ['.']) (past_rest (a := ['.']) h) hall htail.not_digit
      rw [scanFraction, h]
      simp only [List.cons_append, hall d (List.mem_cons_self ..), if_true, htake, past_past,
        List.nil_append, fractionText]

theorem scanExponent_of_closed {b c : Cursor} (h : Closed c.rest) :
    b.scanExponent c = .ok (none, c) := by
  rw [scanExponent]
  split
  · rfl
  · next e rest he =>
    rw [if_neg]
    have hc : isCloser e = true := h e (by rw [he]; rfl)
    rintro (rfl | rfl) <;> exact absurd hc (by decide)

theorem eat_sign {c : Cursor} {n : Numeral} {tail : List Char} (hn : n.IsPlain)
    (h : c.rest = signText n.negative ++ n.whole ++ tail) :
    c.startsWith ['-'] = n.negative ∧ c.eat '-' = c.past (signText n.negative) := by
  cases hneg : n.negative with
  | true =>
    rw [hneg] at h
    exact ⟨startsWith_iff.2 ⟨_, by rw [h]; rfl⟩, eat_of_head (by rw [h]; rfl)⟩
  | false =>
    obtain ⟨d, ds, hd⟩ := List.exists_cons_of_ne_nil hn.whole_ne
    have hhead : c.rest.head? ≠ some '-' := by
      rw [h, hneg, hd]
      intro he
      cases he
      exact absurd (hn.whole_digits '-' (by rw [hd]; exact List.mem_cons_self ..)) (by decide)
    refine ⟨?_, by rw [eat_of_ne hhead, signText, if_neg (by decide), past_nil]⟩
    rw [Bool.eq_false_iff]
    intro hs
    obtain ⟨t, ht⟩ := startsWith_iff.1 hs
    exact hhead (by rw [ht]; rfl)

theorem scanNumber_spelled {c : Cursor} {n : Numeral} {tail : List Char} (hn : n.IsPlain)
    (htail : Closed tail) (h : c.rest = n.spelled ++ tail) :
    c.scanNumber = .ok (n.toNumber, c.past n.spelled) := by
  rw [spelled, List.append_assoc] at h
  obtain ⟨hminus, hsign⟩ := eat_sign hn h
  have hstop : ∀ ch ∈ (fractionText n.fraction ++ tail).head?, ch.isDigit = false := by
    cases n.fraction with
    | none => exact htail.not_digit
    | some digits => intro ch hch; cases hch; decide
  have hwhole := takeWhile_eq (c := c.past (signText n.negative))
    (past_rest (h.trans (List.append_assoc ..))) hn.whole_digits hstop
  rw [past_past] at hwhole
  have hfrac := scanFraction_spelled (c := c.past (signText n.negative ++ n.whole)) hn.fraction_ne
    hn.fraction_digits htail (past_rest h)
  rw [past_past] at hfrac
  have hend : (c.past n.spelled).rest = tail := past_rest (h.trans (List.append_assoc ..).symm)
  have hexp : c.scanExponent (c.past n.spelled) = .ok (none, c.past n.spelled) :=
    scanExponent_of_closed (by rw [hend]; exact htail)
  have hjunk := takeWhile_eq (p := isNameChar) (show _ = [] ++ tail from hend) (by simp)
    (htail.not_head fun _ => isNameChar_of_isCloser)
  have hne : n.whole.isEmpty = false := by simpa using hn.whole_ne
  have hval : (⟨n.negative, n.whole, n.fraction, none⟩ : Numeral) = n := by
    rw [← hn.exponent_eq]
  rw [spelled] at hexp hjunk ⊢
  rw [scanNumber, hsign, hwhole]
  simp only [hne, Bool.false_eq_true, if_false, hfrac, hexp, bind, Except.bind, hjunk, List.isEmpty_nil,
    if_true, hminus, hval, pure, Except.pure]

end Cursor

namespace Numeral

theorem exists_spelled_int (i : Int) : ∃ m : Numeral, m.IsPlain ∧
    (Written.number (.int i)).toList = m.spelled ∧ m.toNumber = (Number.int i).reread := by
  refine ⟨⟨decide (i < 0), Nat.toDigits 10 i.natAbs, none, none⟩,
    ⟨?_, ?_, by simp, by simp, rfl⟩, ?_, ?_⟩
  · exact List.ne_nil_of_length_pos Nat.length_toDigits_pos
  · exact fun c hc => Nat.isDigit_of_mem_toDigits (by decide) (by decide) hc
  · cases i with
    | ofNat n =>
      have hn : (Int.repr (Int.ofNat n)).toList = Nat.toDigits 10 n := by simp [Int.repr, Nat.repr]
      refine hn.trans ?_
      simp [spelled, signText, fractionText]
    | negSucc n =>
      have hn : (Int.repr (Int.negSucc n)).toList = '-' :: Nat.toDigits 10 (n + 1) := by
        simp [Int.repr, Nat.repr]
      refine hn.trans ?_
      simp [spelled, signText, fractionText, Int.negSucc_lt_zero]
  · have hint : toInt ⟨decide (i < 0), Nat.toDigits 10 i.natAbs, none, none⟩ = i := by
      simp only [toInt, natOfDigits_toDigits, decide_eq_true_eq]
      split <;> omega
    simp only [toNumber, isWhole, Option.isNone_none, Bool.and_self, Bool.true_and, hint, Number.reread,
      toBinary64, Option.getD_none, List.append_nil, natOfDigits_toDigits, List.length_nil,
      Int.sub_zero,
      Int.ofNat_zero]

theorem exists_spelled_float {x : Binary64} (h : x.isFinite = true) : ∃ m : Numeral, m.IsPlain ∧
    (Written.number (.float x)).toList = m.spelled ∧ m.toNumber = .float x := by
  obtain ⟨negative, cs, ⟨whole, fraction, rfl, hw, hf, hwd, hfd, hx⟩, htext⟩ :=
    FloatLayout.isPointed_text (show ∀ k, Written.floatLayout.positional k = true from fun _ => rfl) h
  refine ⟨⟨negative, whole, some fraction, none⟩, ⟨hw, hwd, by simpa using hf, ?_, rfl⟩, ?_, hx⟩
  · rintro digits ⟨⟩
    exact hfd
  · refine htext.trans ?_
    cases negative <;> simp [spelled, signText, fractionText]

/-- The text of a number is a numeral that stands for it. -/
theorem exists_spelled {n : Number} (h : Json.isHeld (.num n) = true) : ∃ m : Numeral, m.IsPlain ∧
    (Written.number n).toList = m.spelled ∧ m.toNumber = n.reread := by
  cases n with
  | int i => exact exists_spelled_int i
  | float x => exact exists_spelled_float h

end Numeral

theorem Number.isFinite_reread {n : Number} (h : Json.isHeld (.num n) = true) :
    n.reread.isFinite = true := by
  cases n with
  | int i =>
    simp only [Json.isHeld, Bool.and_eq_true, decide_eq_true_eq] at h
    rw [reread]
    split
    · rfl
    · exact Binary64.isFinite_ofDecimal _ (by omega)
  | float x => exact h

end Worldbook
