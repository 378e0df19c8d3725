import Worldbook.Compilation
import Worldbook.Proofs.Scanning

/-!
# Written values read as themselves

The reader is run on the text of a value and what closes it. It gives back the value, numbers being
as they are reread, and stops exactly behind the text.
-/

namespace Worldbook

/-! ## What a text reads as -/

namespace Json

mutual

/-- What the text of a value stands for. A call has its name in front of its arguments. -/
def reread : Json → Json
  | .num n => .num n.reread
  | .arr items => .arr (rereadItems items)
  | .obj members =>
    match Written.call? members with
    | some (name, _) => .obj [("call", .str name), ("args", .arr (rereadArgs members))]
    | none => .obj (rereadMembers members)
  | v => v

def rereadItems : List Json → List Json
  | [] => []
  | v :: rest => reread v :: rereadItems rest

def rereadMembers : List (String × Json) → List (String × Json)
  | [] => []
  | (key, v) :: rest => (key, reread v) :: rereadMembers rest

def rereadArgs : List (String × Json) → List Json
  | [] => []
  | (_, .arr items) :: _ => rereadItems items
  | _ :: rest => rereadArgs rest

end

end Json

/-- A source value that stands for a value, without numbers out of range. A bare word is never a
reserved one. -/
structure Value.Spells (v : Value) (j : Json) : Prop where
  literal : v.literal = j.reread
  overflows : v.overflows = []
  word : ∀ w, v.isWord w = true → isReserved w = false

structure Value.Refers (v : Value) (j : Json) : Prop extends v.Spells j where
  resolved : ∀ scope, v.resolved scope = j.reread

/-! ## Heads of tokens -/

def isHead (ch : Char) : Bool :=
  ['"', '[', '\x7b', '-', '$'].contains ch || ch.isDigit || isNameStart ch

theorem isHead_ne {ch d : Char} (h : isHead ch = true) (hd : isHead d = false) : ch ≠ d := by
  rintro rfl
  rw [h] at hd
  cases hd

theorem Cursor.isBlank_of_isHead {ch : Char} (h : isHead ch = true) : isBlank ch = false := by
  simp only [isBlank, isInlineBlank, Bool.or_eq_false_iff, decide_eq_false_iff_not]
  exact ⟨⟨⟨isHead_ne h (by decide), isHead_ne h (by decide)⟩, isHead_ne h (by decide)⟩,
    isHead_ne h (by decide)⟩

theorem Cursor.skipBlanks_of_head {c : Cursor} {pre : List Char} (hpre : ∀ ch ∈ pre, isBlank ch = true)
    {ch : Char} {cs : List Char} (h : c.rest = pre ++ ch :: cs) (hch : isHead ch = true) :
    c.skipBlanks = c.past pre := by
  rw [skipBlanks, h, trivia_of_solid hpre (isBlank_of_isHead hch) (isHead_ne hch (by decide))
    (isHead_ne hch (by decide))]

/-- No operator stands at the cursor and neither `do` nor `end` does. -/
structure Cursor.IsSolid (c : Cursor) : Prop where
  operator : operator? c.rest = none
  notDo : c.atWord "do" = false
  notEnd : c.atWord "end" = false

/-- A text reads as a value with the property, whatever closes it. -/
structure Reads (text : List Char) (P : Value → Prop) : Prop where
  head : ∃ ch cs, text = ch :: cs ∧ isHead ch = true
  solid : ∀ (c : Cursor) (tail : List Char), c.rest = text ++ tail → Closed tail → c.IsSolid
  value : ∀ (c : Cursor) (tail : List Char) (fuel : Nat), c.rest = text ++ tail → Closed tail →
    2 * c.rest.length + 2 ≤ fuel → ∃ v, c.value fuel = .ok (v, c.past text) ∧ P v

theorem Reads.imp {text : List Char} {P Q : Value → Prop} (h : Reads text P) (hpq : ∀ v, P v → Q v) :
    Reads text Q :=
  ⟨h.head, h.solid, fun c tail fuel hc ht hf =>
    let ⟨v, hv, hp⟩ := h.value c tail fuel hc ht hf
    ⟨v, hv, hpq v hp⟩⟩

/-! ## Words that end a line -/

theorem isNameRest_of_append {cs ds : List Char} (h : isNameRest (cs ++ ds) = true) :
    isNameRest ds = true := by
  induction cs with
  | nil => exact h
  | cons c cs ih => exact ih (Bool.and_eq_true_iff.1 h).2

theorem isNameRest_of_isName {x : Char} {cs : List Char} (h : isName (x :: cs) = true) (hx : x ≠ '$') :
    isNameRest cs = true := by
  unfold isName at h
  split at h
  · next heq => exact absurd (List.cons.inj heq).1 hx
  · exact (Bool.and_eq_true_iff.1 h).2

/-- A name goes on where more of it follows. -/
theorem endsWord_of_isNameRest {r more : List Char} (hr : r ≠ []) (h : isNameRest r = true) :
    endsWord (r ++ more) = false := by
  obtain ⟨c, r, rfl⟩ := List.exists_cons_of_ne_nil hr
  have hc := (Bool.and_eq_true_iff.1 h).1
  rw [Bool.or_eq_true] at hc
  rcases hc with hc | hc
  · cases h' : r ++ more with
    | nil => simp [h', endsWord, hc]
    | cons d ds => simp [h', endsWord, hc]
  · cases r with
    | nil => simp at hc
    | cons d r => simp_all [endsWord]

/-- Only the word itself is taken for it. -/
theorem Cursor.atWord_of_isName {c : Cursor} {name more : List Char} {w : String}
    (h : c.rest = name ++ more) (hn : isName name = true) (hne : name ≠ w.toList) (hw0 : w.toList ≠ [])
    (hw : ∀ ch ∈ w.toList, isNameChar ch = true) (hmore : ∀ ch ∈ more.head?, isNameChar ch = false) :
    c.atWord w = false := by
  rw [Bool.eq_false_iff]
  intro hat
  rw [atWord, Bool.and_eq_true] at hat
  obtain ⟨⟨tail, ht⟩, hend⟩ := And.intro (startsWith_iff.1 hat.1) hat.2
  rw [ht, ← String.length_toList, List.drop_left] at hend
  rw [h] at ht
  rcases List.append_eq_append_iff.1 ht with ⟨r, hr, hmr⟩ | ⟨r, hr, htr⟩
  · -- the name is a part of the word, which then runs into what follows the name
    cases r with
    | nil => exact hne (by simpa using hr.symm)
    | cons ch r =>
      have := hmore ch (by rw [hmr]; rfl)
      rw [hw ch (by rw [hr]; simp)] at this
      cases this
  · cases r with
    | nil => exact hne (by simpa using hr)
    | cons ch r =>
      have hrest : isNameRest (ch :: r) = true := by
        obtain ⟨x, xs, hx⟩ := List.exists_cons_of_ne_nil hw0
        rw [hr, hx] at hn
        have hx' : x ≠ '$' := by
          rintro rfl
          exact absurd (hw '$' (by rw [hx]; exact List.mem_cons_self ..)) (by decide)
        exact isNameRest_of_append (isNameRest_of_isName hn hx')
      rw [htr, endsWord_of_isNameRest (by simp) hrest] at hend
      cases hend

/-! ## Scalars -/

theorem Closed.not_name {tail : List Char} (h : Closed tail) :
    ∀ ch ∈ tail.head?, isNameChar ch = false ∧ isJoiner ch = false := fun ch hch =>
  ⟨isNameChar_of_isCloser (h ch hch), isJoiner_of_isCloser (h ch hch)⟩

theorem isHead_of_isName {cs : List Char} (h : isName cs = true) :
    ∃ ch tail, cs = ch :: tail ∧ isHead ch = true ∧ (ch = '$' ∨ isNameStart ch = true) := by
  cases cs with
  | nil => cases h
  | cons ch tail =>
    refine ⟨ch, tail, rfl, ?_⟩
    by_cases hd : ch = '$'
    · subst hd
      exact ⟨by decide, .inl rfl⟩
    · unfold isName at h
      split at h
      · next heq => exact absurd (List.cons.inj heq).1 hd
      · have hs := (Bool.and_eq_true_iff.1 h).1
        exact ⟨by simp [isHead, hs], .inr hs⟩

theorem operator?_of_head {ch : Char} {cs : List Char} (h : isHead ch = true) (hm : ch ≠ '-') :
    Cursor.operator? (ch :: cs) = none := by
  have h1 := isHead_ne h (d := '>') (by decide)
  have h2 := isHead_ne h (d := '<') (by decide)
  have h3 := isHead_ne h (d := '=') (by decide)
  have h4 := isHead_ne h (d := '+') (by decide)
  have h5 := isHead_ne h (d := ',') (by decide)
  unfold Cursor.operator?
  split <;> simp_all

theorem Cursor.atWord_of_head {c : Cursor} {w : String} {ch : Char} {cs : List Char}
    (h : c.rest = ch :: cs) (hw : ∀ x ∈ w.toList.head?, ch ≠ x) (hw0 : w.toList ≠ []) :
    c.atWord w = false := by
  rw [atWord, Bool.and_eq_false_iff]
  refine .inl (Bool.eq_false_iff.2 fun hs => ?_)
  obtain ⟨t, ht⟩ := startsWith_iff.1 hs
  obtain ⟨x, xs, hx⟩ := List.exists_cons_of_ne_nil hw0
  rw [h, hx] at ht
  exact hw x (by rw [hx]; rfl) (List.cons.inj ht).1

/-- Texts that do not start like a name are no words. -/
theorem Cursor.isSolid_of_head {c : Cursor} {ch : Char} {cs : List Char} (h : c.rest = ch :: cs)
    (ho : operator? c.rest = none) (hd : ch ≠ 'd') (he : ch ≠ 'e') : c.IsSolid :=
  ⟨ho, atWord_of_head h (by rintro x ⟨⟩; exact hd) (by decide),
    atWord_of_head h (by rintro x ⟨⟩; exact he) (by decide)⟩

theorem Cursor.isSolid_of_isName {c : Cursor} {name more : List Char} (h : c.rest = name ++ more)
    (hn : isName name = true) (hd : name ≠ "do".toList) (he : name ≠ "end".toList)
    (hmore : ∀ ch ∈ more.head?, isNameChar ch = false) : c.IsSolid := by
  obtain ⟨ch, tail, hcs, hhead, hstart⟩ := isHead_of_isName hn
  refine ⟨?_, atWord_of_isName h hn hd (by decide) (List.all_eq_true.1 (by decide)) hmore,
    atWord_of_isName h hn he (by decide) (List.all_eq_true.1 (by decide)) hmore⟩
  rw [h, hcs]
  refine operator?_of_head hhead ?_
  rintro rfl
  rcases hstart with hs | hs
  · cases hs
  · exact absurd hs (by decide)

theorem isDigit_of_isNameStart {ch : Char} (h : isNameStart ch = true) : ch.isDigit = false := by
  rw [Bool.eq_false_iff]
  intro hd
  have hdigit : ch.isDigit = (decide (ch.val ≥ '0'.val) && decide (ch.val ≤ '9'.val)) := rfl
  simp only [hdigit, Bool.and_eq_true, decide_eq_true_eq, ge_iff_le, UInt32.le_iff_toNat_le] at hd
  have halpha : ch.isAlpha = (ch.isUpper || ch.isLower) := rfl
  have hupper : ch.isUpper = decide (ch.val ≥ 'A'.val ∧ ch.val ≤ 'Z'.val) := rfl
  have hlower : ch.isLower = (decide (ch.val ≥ 'a'.val) && decide (ch.val ≤ 'z'.val)) := rfl
  simp only [isNameStart, halpha, hupper, hlower, Bool.or_eq_true, Bool.and_eq_true,
    decide_eq_true_eq, Char.le_def, UInt32.le_iff_toNat_le, ge_iff_le] at h
  have hlt : ('9' : Char).val.toNat < 'A'.val.toNat ∧ ('9' : Char).val.toNat < 'a'.val.toNat ∧
    ('9' : Char).val.toNat < '_'.val.toNat ∧ ('9' : Char).val.toNat < '\u00c0'.val.toNat ∧
    ('9' : Char).val.toNat < '\u1e00'.val.toNat := by decide
  rcases h with ((h | rfl) | h) | h <;> omega

def Value.ofWord (word : String) (span : Span) : Value :=
  if word = "true" then .bool true span
  else if word = "false" then .bool false span
  else if word = "null" then .null span
  else .name word span

theorem Cursor.value_of_name {c : Cursor} {name tail : List Char} (h : c.rest = name ++ tail)
    (hn : isName name = true) (htail : ∀ ch ∈ tail.head?, isNameChar ch = false ∧ isJoiner ch = false)
    (fuel : Nat) : c.value (fuel + 1) = if String.ofList name ∈ ["true", "false", "null"] ∨
    tail.head? ≠ some '('
      then .ok (.ofWord (String.ofList name) (c.spanTo (c.past name)), c.past name)
      else do
        let (args, e) ← sequence fuel '(' ')' c ((c.past name).past ['('])
        return (.call (String.ofList name) args (c.spanTo e), e) := by
  obtain ⟨ch, cs, hcs, hhead, hstart⟩ := isHead_of_isName hn
  have hrest : c.rest = ch :: (cs ++ tail) := by rw [h, hcs, List.cons_append]
  have h1 : ch ≠ '"' := by rintro rfl; revert hstart; decide
  have h2 : ch ≠ '[' := by rintro rfl; revert hstart; decide
  have h3 : ch ≠ '\x7b' := by rintro rfl; revert hstart; decide
  have h4 : ch ≠ '-' := by rintro rfl; revert hstart; decide
  have h5 : ch.isDigit = false := by
    rcases hstart with rfl | hs
    · decide
    · exact isDigit_of_isNameStart hs
  have h6 : (ch = '$' || isNameStart ch) = true := by simpa using hstart
  have hparen : (c.past name).startsWith ['('] = decide (tail.head? = some '(') := by
    rw [startsWith, past_rest h, Bool.eq_iff_iff, decide_eq_true_eq]
    cases tail with
    | nil => simp
    | cons x tail => simpa using ⟨Eq.symm, Eq.symm⟩
  rw [value, hrest]
  split
  · next heq => exact absurd heq (by simp)
  · next heq => exact absurd (List.cons.inj heq).1 h1
  · next heq => exact absurd (List.cons.inj heq).1 h2
  · next heq => exact absurd (List.cons.inj heq).1 h3
  · next first _ _ _ _ heq =>
    obtain ⟨rfl, -⟩ := List.cons.inj heq
    simp only [h4, h5, decide_false, Bool.or_false, Bool.false_eq_true, if_false, h6, if_true,
      scanName_of_isName h hn htail, bind, Except.bind, hparen, Value.ofWord,
      pure, Except.pure, decide_eq_true_eq, List.mem_cons, List.not_mem_nil, or_false, ne_eq]
    generalize String.ofList name = s
    split_ifs <;> tauto

/-- A name that stands for itself or for a constant. -/
theorem reads_ofWord {s : String} (hn : isName s.toList = true) (hd : s ≠ "do") (he : s ≠ "end") :
    Reads s.toList fun v => ∃ span, v = .ofWord s span := by
  have hne : ∀ w : String, s ≠ w → s.toList ≠ w.toList := fun w h h' => h (String.toList_injective h')
  refine ⟨?_, fun c tail h ht => ?_, fun c tail fuel h ht hf => ?_⟩
  · obtain ⟨ch, cs, hcs, hhead, -⟩ := isHead_of_isName hn
    exact ⟨ch, cs, hcs, hhead⟩
  · exact Cursor.isSolid_of_isName h hn (hne _ hd) (hne _ he) fun ch hch => (ht.not_name ch hch).1
  · obtain ⟨fuel, rfl⟩ : ∃ k, fuel = k + 1 := ⟨fuel - 1, by omega⟩
    have hparen : tail.head? ≠ some '(' := fun hp => absurd (ht '(' hp) (by decide)
    refine ⟨.ofWord s (c.spanTo (c.past s.toList)), ?_, _, rfl⟩
    rw [Cursor.value_of_name h hn ht.not_name, if_pos (.inr hparen), String.ofList_toList]

theorem reads_quote (s : String) : Reads (Written.quote s).toList fun v => ∃ span, v = .str s span := by
  refine ⟨?_, fun c tail h ht => ?_, fun c tail fuel h ht hf => ?_⟩
  · rw [Cursor.quote_toList]
    exact ⟨_, _, rfl, by decide⟩
  · rw [Cursor.quote_toList, List.cons_append] at h
    exact Cursor.isSolid_of_head h (by rw [h]; rfl) (by decide) (by decide)
  · obtain ⟨fuel, rfl⟩ : ∃ k, fuel = k + 1 := ⟨fuel - 1, by omega⟩
    have hscan := Cursor.scanAnyString_quote (s := s) (fun ch hch => ?_) h
    · rw [Cursor.quote_toList, List.cons_append] at h
      refine ⟨.str s (c.spanTo (c.past (Written.quote s).toList)), ?_, _, rfl⟩
      simp only [Cursor.value, h, hscan, bind, Except.bind, pure, Except.pure]
    · rintro rfl
      exact absurd (ht '"' hch) (by decide)

theorem Numeral.spelled_head {m : Numeral} (hm : m.IsPlain) : ∃ ch cs, m.spelled = ch :: cs ∧
    (ch = '-' || ch.isDigit) = true ∧ (ch = '-' → ∃ d ds, cs = d :: ds ∧ d.isDigit = true) := by
  obtain ⟨d, ds, hd⟩ := List.exists_cons_of_ne_nil hm.whole_ne
  have hdig : d.isDigit = true := hm.whole_digits d (by rw [hd]; exact List.mem_cons_self ..)
  cases hneg : m.negative with
  | true =>
    refine ⟨'-', d :: (ds ++ fractionText m.fraction), ?_, rfl, fun _ => ⟨d, _, rfl, hdig⟩⟩
    simp [spelled, hneg, signText, hd]
  | false =>
    refine ⟨d, ds ++ fractionText m.fraction, ?_, by rw [hdig, Bool.or_true], ?_⟩
    · simp [spelled, hneg, signText, hd]
    · rintro rfl
      exact absurd hdig (by decide)

theorem reads_number {n : Number} (hn : Json.isHeld (.num n) = true) :
    Reads (Written.number n).toList fun v => ∃ span, v = .num n.reread span := by
  obtain ⟨m, hm, htext, hval⟩ := Numeral.exists_spelled hn
  obtain ⟨ch, cs, hcs, hfirst, hminus⟩ := Numeral.spelled_head hm
  have hhead : isHead ch = true := by
    rw [Bool.or_eq_true, decide_eq_true_eq] at hfirst
    rcases hfirst with rfl | hd
    · decide
    · simp [isHead, hd]
  have hne : ∀ x, (x = '-' || x.isDigit) = false → ch ≠ x := by
    rintro x hx rfl
    rw [hfirst] at hx
    cases hx
  rw [htext]
  refine ⟨⟨ch, cs, hcs, hhead⟩, fun c tail h ht => ?_, fun c tail fuel h ht hf => ?_⟩
  · have hop : Cursor.operator? (m.spelled ++ tail) = none := by
      -- A minus starts an operator only in front of `=` or `>`, and a digit follows it here.
      by_cases hm : ch = '-'
      · obtain ⟨d, ds, rfl, hd⟩ := hminus hm
        have h1 : d ≠ '=' := by rintro rfl; exact absurd hd (by decide)
        have h2 : d ≠ '>' := by rintro rfl; exact absurd hd (by decide)
        rw [hcs, hm]
        unfold Cursor.operator?
        split <;> simp_all
      · rw [hcs]
        exact operator?_of_head hhead hm
    rw [← h] at hop
    rw [hcs, List.cons_append] at h
    exact Cursor.isSolid_of_head h hop (hne _ (by decide)) (hne _ (by decide))
  · obtain ⟨fuel, rfl⟩ : ∃ k, fuel = k + 1 := ⟨fuel - 1, by omega⟩
    have hscan := Cursor.scanNumber_spelled hm ht h
    refine ⟨.num n.reread (c.spanTo (c.past m.spelled)), ?_, _, rfl⟩
    rw [hcs, List.cons_append] at h
    rw [Cursor.value, h]
    split
    · next heq => exact absurd heq (by simp)
    · next heq => exact absurd (List.cons.inj heq).1 (hne _ (by decide))
    · next heq => exact absurd (List.cons.inj heq).1 (hne _ (by decide))
    · next heq => exact absurd (List.cons.inj heq).1 (hne _ (by decide))
    · next first _ _ _ _ heq =>
      obtain ⟨rfl, -⟩ := List.cons.inj heq
      simp only [hfirst, if_true, hscan, hval, bind, Except.bind, pure, Except.pure]

/-! ## Lists in brackets -/

def joined (texts : List (List Char)) : List Char := [',', ' '].intercalate texts

def comma (texts : List (List Char)) : List Char := if texts.isEmpty then [] else [',']

def gap (texts : List (List Char)) : List Char := if texts.isEmpty then [] else [' ']

@[simp] theorem joined_nil : joined [] = [] := rfl

theorem joined_cons (t : List Char) (texts : List (List Char)) :
    joined (t :: texts) = t ++ (comma texts ++ (gap texts ++ joined texts)) := by
  cases texts <;> simp [joined, comma, gap, List.intercalate]

def isClosing (ch : Char) : Bool := [']', ')', '\x7d'].contains ch

theorem isClosing_cases {ch : Char} (h : isClosing ch = true) : ch = ']' ∨ ch = ')' ∨ ch = '\x7d' := by
  simpa [isClosing] using h

theorem isHead_of_isClosing {ch : Char} (h : isClosing ch = true) : isHead ch = false := by
  rcases isClosing_cases h with rfl | rfl | rfl <;> decide

theorem isBlank_of_mem_gap {texts : List (List Char)} : ∀ ch ∈ gap texts, Cursor.isBlank ch = true := by
  intro ch hch
  rw [gap] at hch
  split at hch <;> simp_all [Cursor.isBlank, Cursor.isInlineBlank]

theorem closed_of_comma {closing : Char} (hc : isClosing closing = true) (texts : List (List Char))
    (tail : List Char) : Closed (comma texts ++ (gap texts ++ (joined texts ++ closing :: tail))) := by
  intro ch hch
  cases texts with
  | nil => cases hch; rcases isClosing_cases hc with rfl | rfl | rfl <;> decide
  | cons t texts => cases hch; decide

namespace Cursor

theorem skipBlanks_of_closing {c : Cursor} {pre : List Char} (hpre : ∀ ch ∈ pre, isBlank ch = true)
    {ch : Char} {cs : List Char} (h : c.rest = pre ++ ch :: cs) (hch : isClosing ch = true) :
    c.skipBlanks = c.past pre := by
  rw [skipBlanks, h]
  rcases isClosing_cases hch with rfl | rfl | rfl <;>
    rw [trivia_of_solid hpre (by decide) (by decide) (by decide)]

/-- After an item the reader takes the comma, if there is one. -/
theorem skipBlanks_eat {c : Cursor} {closing : Char} (hc : isClosing closing = true)
    (texts : List (List Char)) {tail : List Char}
    (h : c.rest = comma texts ++ (gap texts ++ (joined texts ++ closing :: tail))) :
    c.skipBlanks.eat ',' = c.past (comma texts) := by
  cases texts with
  | nil =>
    rw [skipBlanks_of_closing (show ∀ ch ∈ [], isBlank ch = true by simp) h hc, past_nil, eat_of_ne]
    · exact (past_nil c).symm
    · rw [h]
      rcases isClosing_cases hc with rfl | rfl | rfl <;> simp [comma, gap]
  | cons t texts =>
    have hskip : c.skipBlanks = c := by
      rw [skipBlanks, h]
      exact past_nil c
    rw [hskip, eat_of_head (by rw [h]; rfl)]
    rfl

/-- The items of a list are read one by one up to its closing bracket. -/
theorem sequence_joined {α : Type} {text : α → List Char} {P : α → Value → Prop} {closing : Char}
    (hc : isClosing closing = true) (opening : Char) (start : Cursor) : ∀ (items : List α),
    (∀ x ∈ items, Reads (text x) (P x)) → ∀ (c : Cursor) (pre tail : List Char) (fuel : Nat),
    (∀ ch ∈ pre, isBlank ch = true) → c.rest = pre ++ (joined (items.map text) ++ closing :: tail) →
    2 * c.rest.length + 3 ≤ fuel →
    ∃ vs, sequence fuel opening closing start c =
      .ok (vs, c.past (pre ++ (joined (items.map text) ++ [closing]))) ∧ List.Forall₂ P items vs
  | [], _, c, pre, tail, fuel, hpre, h, hf => by
    obtain ⟨fuel, rfl⟩ : ∃ k, fuel = k + 1 := ⟨fuel - 1, by omega⟩
    have hskip := skipBlanks_of_closing hpre (show _ = pre ++ closing :: tail from h) hc
    refine ⟨[], ?_, .nil⟩
    simp only [sequence, hskip, past_rest h, List.map_nil, joined_nil, List.nil_append,
      if_true, past_past]
  | x :: items, hreads, c, pre, tail, fuel, hpre, h, hf => by
    obtain ⟨fuel, rfl⟩ : ∃ k, fuel = k + 1 := ⟨fuel - 1, by omega⟩
    have hx := hreads x (List.mem_cons_self ..)
    obtain ⟨ch, cs, hcs, hhead⟩ := hx.head
    rw [List.map_cons, joined_cons] at h ⊢
    simp only [List.append_assoc] at h ⊢
    have hskip : c.skipBlanks = c.past pre :=
      skipBlanks_of_head hpre (by rw [h, hcs, List.cons_append]) hhead
    have hne : ch ≠ closing := isHead_ne hhead (isHead_of_isClosing hc)
    -- The item, the comma and the blank come off the text in turn.
    have hd := past_rest h
    have he := past_rest hd
    have hlen := congrArg List.length h
    simp only [List.length_append, List.length_cons] at hlen
    obtain ⟨v, hv, hpv⟩ := hx.value (c.past pre) _ fuel hd (closed_of_comma hc _ _) (by
      rw [hd]; simp only [List.length_append, List.length_cons]; omega)
    have htext : 0 < (text x).length := by rw [hcs]; exact Nat.succ_pos _
    obtain ⟨vs, hvs, hpvs⟩ := sequence_joined hc opening start items
      (fun y hy => hreads y (List.mem_cons_of_mem _ hy))
      (((c.past pre).past (text x)).past (comma (items.map text))) (gap (items.map text)) tail fuel
      isBlank_of_mem_gap (past_rest he)
      (by rw [past_rest he]; simp only [List.length_append, List.length_cons]; omega)
    refine ⟨v :: vs, ?_, .cons hpv hpvs⟩
    have hrest : (c.past pre).rest = ch :: (cs ++ (comma (items.map text) ++ (gap (items.map text) ++
        (joined (items.map text) ++ closing :: tail)))) := by rw [hd, hcs, List.cons_append]
    rw [sequence, hskip, hrest]
    simp only [hne, if_false, hv, bind, Except.bind, skipBlanks_eat hc _ he, hvs, pure, Except.pure]
    simp only [past_past, List.append_assoc]

end Cursor

/-! ## Members of an object -/

theorem memberKey_head (key : String) :
    ∃ ch cs, (Written.memberKey key).toList = ch :: cs ∧ isHead ch = true := by
  rw [Written.memberKey]
  split
  · next h =>
    obtain ⟨ch, cs, hcs, hhead, -⟩ :=
      isHead_of_isName (isName_of_isPlainName (isPlainName_of_isPlainWord h))
    exact ⟨ch, cs, hcs, hhead⟩
  · exact ⟨_, _, Cursor.quote_toList key, by decide⟩

namespace Cursor

theorem scanKey_memberKey {c : Cursor} {key : String} {tail : List Char}
    (h : c.rest = (Written.memberKey key).toList ++ ':' :: tail) :
    c.scanKey = .ok (key, c.past (Written.memberKey key).toList) := by
  rw [Written.memberKey] at h ⊢
  split at h
  · next hp =>
    rw [if_pos hp]
    cases hkey : key.toList with
    | nil => rw [hkey] at hp; cases hp
    | cons ch cs =>
      rw [hkey] at h
      rw [hkey, isPlainWord, Bool.and_eq_true, List.all_eq_true] at hp
      have hs := isNameStart_of_isWordStart hp.1
      have hq : ch ≠ '"' := isNameStart_ne hs (by decide)
      have hall : ∀ x ∈ ch :: cs, isNameChar x = true := by
        intro x hx
        rcases List.mem_cons.1 hx with rfl | hx
        · simp [isNameChar, hs]
        · exact isNameChar_of_isWordChar (hp.2 x hx)
      have htake := takeWhile_eq h hall (fun x hx => by cases hx; decide)
      rw [scanKey, h]
      simp only [List.cons_append, hq, if_false, hs, if_true, htake]
      rw [← hkey, String.ofList_toList]
  · next hp =>
    rw [if_neg hp]
    have hq := h
    rw [quote_toList, List.cons_append] at hq
    rw [scanKey, hq]
    simp only [if_true, scanString_quote h]

/-- The members of an object are read one by one up to its closing brace. -/
theorem members_joined (text : Json → List Char) {P : Json → Value → Prop} (start : Cursor) :
    ∀ (ms : Record), (∀ m ∈ ms, Reads (text m.2) (P m.2)) →
    ∀ (c : Cursor) (pre tail : List Char) (fuel : Nat), (∀ ch ∈ pre, isBlank ch = true) →
    c.rest = pre ++ (joined (ms.map fun m =>
      (Written.memberKey m.1).toList ++ (':' :: ' ' :: text m.2)) ++ '\x7d' :: tail) →
    2 * c.rest.length + 3 ≤ fuel →
    ∃ es, members fuel start c = .ok (es, c.past (pre ++ (joined (ms.map fun m =>
      (Written.memberKey m.1).toList ++ (':' :: ' ' :: text m.2)) ++ ['\x7d']))) ∧
      List.Forall₂ (fun m e => e.1 = m.1 ∧ P m.2 e.2) ms es
  | [], _, c, pre, tail, fuel, hpre, h, hf => by
    obtain ⟨fuel, rfl⟩ : ∃ k, fuel = k + 1 := ⟨fuel - 1, by omega⟩
    have hskip := skipBlanks_of_closing hpre (show _ = pre ++ '\x7d' :: tail from h) (by decide)
    refine ⟨[], ?_, .nil⟩
    simp only [members, hskip, past_rest h, List.map_nil, joined_nil, List.nil_append, past_past]
  | (key, x) :: ms, hreads, c, pre, tail, fuel, hpre, h, hf => by
    obtain ⟨fuel, rfl⟩ : ∃ k, fuel = k + 1 := ⟨fuel - 1, by omega⟩
    have hx : Reads (text x) (P x) := hreads (key, x) (List.mem_cons_self ..)
    obtain ⟨ch, cs, hcs, hhead⟩ := hx.head
    obtain ⟨kh, ks, hks, hkhead⟩ := memberKey_head key
    rw [List.map_cons, joined_cons] at h ⊢
    simp only [List.append_assoc, List.cons_append] at h ⊢
    -- Key, colon, value, comma and blank come off the text in this order, each fact being about the
    -- cursor behind the one before it.
    generalize hts : (ms.map fun m => (Written.memberKey m.1).toList ++ (':' :: ' ' :: text m.2)) =
      ts at h ⊢
    have hskip : c.skipBlanks = c.past pre :=
      skipBlanks_of_head hpre (by rw [h, hks, List.cons_append]) hkhead
    have hd := past_rest h
    have hkey := scanKey_memberKey hd
    have hcolon := past_rest hd
    have hskip2 : ((c.past pre).past (Written.memberKey key).toList).skipBlanks =
        (c.past pre).past (Written.memberKey key).toList := by
      rw [skipBlanks, hcolon]
      exact past_nil _
    have hstart : ((c.past pre).past (Written.memberKey key).toList).startsWith [':'] = true :=
      startsWith_iff.2 ⟨_, hcolon⟩
    have hblank := past_rest (a := [':']) hcolon
    have hskip3 :=
      skipBlanks_of_head (List.all_eq_true.1 (show [' '].all isBlank = true by decide))
        (by rw [hblank, hcs]; rfl) hhead
    have hval : _ = text x ++ (comma ts ++ (gap ts ++ (joined ts ++ '\x7d' :: tail))) :=
      past_rest (a := [' ']) hblank
    have he := past_rest hval
    have hlen := congrArg List.length h
    simp only [List.length_append, List.length_cons] at hlen
    obtain ⟨v, hv, hpv⟩ := hx.value _ _ fuel hval (closed_of_comma (by decide) _ _) (by
      rw [hval]; simp only [List.length_append, List.length_cons]; omega)
    have hgap := past_rest he
    obtain ⟨es, hes, hpes⟩ := members_joined text (P := P) start ms
      (fun m hm => hreads m (List.mem_cons_of_mem _ hm)) _ (gap ts) tail fuel isBlank_of_mem_gap
      (by rw [hts]; exact hgap)
      (by rw [hgap]; simp only [List.length_append, List.length_cons]; omega)
    rw [hts] at hes
    refine ⟨(key, v) :: es, ?_, .cons ⟨rfl, hpv⟩ hpes⟩
    have hrest : (c.past pre).rest = kh :: (ks ++ ':' :: ' ' :: (text x ++ (comma ts ++ (gap ts ++
        (joined ts ++ '\x7d' :: tail))))) := by rw [hd, hks, List.cons_append]
    rw [members, hskip, hrest]
    split
    · next heq => cases heq
    · next heq => exact absurd (List.cons.inj heq).1 (isHead_ne hkhead (by decide))
    · simp only [hkey, bind, Except.bind, hskip2, hstart, if_true, hskip3, hv,
        skipBlanks_eat (show isClosing '\x7d' = true by decide) _ he, hes, pure, Except.pure]
      simp only [past_past, List.append_assoc, List.cons_append, List.nil_append]

end Cursor

/-! ## Values -/

namespace Json

@[simp] theorem keys_rereadMembers (members : Record) :
    Record.keys (rereadMembers members) = members.keys := by
  induction members with
  | nil => rfl
  | cons m members ih => obtain ⟨key, v⟩ := m; simp only [rereadMembers, Record.keys_cons, ih]

end Json

namespace Value

theorem literals_of_spells {items : List Json} {vs : List Value}
    (h : List.Forall₂ (fun x v => v.Spells x) items vs) :
    literals vs = Json.rereadItems items ∧ overflowsAll vs = [] := by
  induction h with
  | nil => exact ⟨rfl, rfl⟩
  | cons hv _ ih =>
    simp only [literals, Json.rereadItems, overflowsAll, hv.literal, hv.overflows, ih.1, ih.2,
      List.append_nil, and_self]

theorem literalMembers_of_spells {members : Record} {es : List (String × Value)}
    (h : List.Forall₂ (fun m e => e.1 = m.1 ∧ e.2.Spells m.2) members es) :
    literalMembers es = Json.rereadMembers members ∧ overflowsMembers es = [] := by
  induction h with
  | nil => exact ⟨rfl, rfl⟩
  | cons hv _ ih =>
    obtain ⟨hkey, hs⟩ := hv
    simp only [literalMembers, Json.rereadMembers, overflowsMembers, hkey, hs.literal,
      hs.overflows, ih.1, ih.2, List.append_nil, and_self]

end Value

namespace Written

theorem call?_eq_some {members : Record} {name : String} {args : List Json} :
    call? members = some (name, args) ↔ members.length = 2 ∧ members.get? "call" = some (.str name) ∧
      members.get? "args" = some (.arr args) ∧ isPlainKey name = true ∧
      ∀ v ∈ args, v.array? = none := by
  unfold call?
  by_cases hlen : members.length = 2
  · simp only [hlen, ne_eq, not_true_eq_false, if_false, Option.bind_eq_bind, true_and]
    simp only [Option.bind_eq_some_iff, Option.ite_none_right_eq_some, Option.some.injEq, Prod.mk.injEq,
      Json.string?_eq_some, Json.array?_eq_some, Bool.and_eq_true, List.all_eq_true,
      Option.isNone_iff_eq_none]
    constructor
    · rintro ⟨_, ⟨_, h1, rfl⟩, _, ⟨_, h2, rfl⟩, h3, rfl, rfl⟩
      exact ⟨h1, h2, h3⟩
    · rintro ⟨h1, h2, h3⟩
      exact ⟨name, ⟨_, h1, rfl⟩, args, ⟨_, h2, rfl⟩, h3, rfl, rfl⟩
  · simp [hlen]

/-- An object that is a call has just its two members, in either order. -/
theorem call?_cases {members : Record} {name : String} {args : List Json}
    (h : call? members = some (name, args)) : isPlainKey name = true ∧ (∀ v ∈ args, v.array? = none) ∧
      (members = [("call", .str name), ("args", .arr args)] ∨
        members = [("args", .arr args), ("call", .str name)]) := by
  obtain ⟨hlen, hname, hargs, hp, ha⟩ := call?_eq_some.1 h
  refine ⟨hp, ha, ?_⟩
  obtain ⟨⟨k₁, x₁⟩, ⟨k₂, x₂⟩, rfl⟩ : ∃ a b, members = [a, b] := by
    match members, hlen with
    | [a, b], _ => exact ⟨a, b, rfl⟩
  simp only [Record.get?_cons, Record.get?_nil] at hname hargs
  split_ifs at hname hargs <;> simp_all

theorem values_eq_map (items : List Json) : values items = items.map value := by
  induction items with
  | nil => rfl
  | cons v items ih => rw [values, ih, List.map_cons]

theorem memberValues_eq_map (members : Record) :
    memberValues members = members.map fun m => memberKey m.1 ++ ": " ++ value m.2 := by
  induction members with
  | nil => rfl
  | cons m members ih => obtain ⟨key, v⟩ := m; rw [memberValues, ih, List.map_cons]

theorem callArgs_of_call? {members : Record} {name : String} {args : List Json}
    (h : call? members = some (name, args)) : callArgs members = values args := by
  rcases (call?_cases h).2.2 with rfl | rfl <;> rfl

theorem rereadArgs_of_call? {members : Record} {name : String} {args : List Json}
    (h : call? members = some (name, args)) : Json.rereadArgs members = Json.rereadItems args := by
  rcases (call?_cases h).2.2 with rfl | rfl <;> rfl

theorem toList_arr (items : List Json) :
    (value (.arr items)).toList = '[' :: (joined (items.map fun v => (value v).toList) ++ [']']) := by
  simp [value, values_eq_map, joined, String.toList_intercalate, List.map_map, Function.comp_def]

theorem toList_call {members : Record} {name : String} {args : List Json}
    (h : call? members = some (name, args)) : (value (.obj members)).toList =
      name.toList ++ '(' :: (joined (args.map fun v => (value v).toList) ++ [')']) := by
  simp [value, h, callArgs_of_call? h, values_eq_map, joined, String.toList_intercalate, List.map_map,
    Function.comp_def]

theorem toList_obj {members : Record} (h : call? members = none) : (value (.obj members)).toList =
    '\x7b' :: (joined (members.map fun m => (memberKey m.1).toList ++
      (':' :: ' ' :: (value m.2).toList)) ++ ['\x7d']) := by
  simp [value, h, memberValues_eq_map, joined, String.toList_intercalate, List.map_map,
    Function.comp_def]

end Written

theorem isReserved_of_isPlainKey {s : String} (h : Written.isPlainKey s = true) :
    isReserved s = false := by
  simpa using (Bool.and_eq_true_iff.1 h).2

theorem isName_of_isPlainKey {s : String} (h : Written.isPlainKey s = true) : isName s.toList = true :=
  isName_of_isPlainName (isPlainName_of_isPlainWord (Bool.and_eq_true_iff.1 h).1)

theorem ne_of_isReserved {s w : String} (h : isReserved s = false) (hw : isReserved w = true) :
    s ≠ w := by
  rintro rfl
  rw [h] at hw
  cases hw

theorem Value.ofWord_of_not_reserved {s : String} (h : isReserved s = false) (span : Span) :
    Value.ofWord s span = .name s span := by
  rw [ofWord, if_neg (ne_of_isReserved h (by decide)), if_neg (ne_of_isReserved h (by decide)),
    if_neg (ne_of_isReserved h (by decide))]

theorem reads_name {s : String} (hn : isName s.toList = true) (h : isReserved s = false) :
    Reads s.toList fun v => ∃ span, v = .name s span :=
  (reads_ofWord hn (ne_of_isReserved h (by decide)) (ne_of_isReserved h (by decide))).imp
    fun _ ⟨span, hv⟩ => ⟨span, hv.trans (Value.ofWord_of_not_reserved h span)⟩

theorem Value.spells_str (s : String) (span : Span) : (Value.str s span).Spells (.str s) :=
  ⟨rfl, rfl, fun _ h => by simp [isWord, name?] at h⟩

theorem Value.spells_name {s : String} (h : isReserved s = false) (span : Span) :
    (Value.name s span).Spells (.str s) := by
  refine ⟨rfl, rfl, fun w hw => ?_⟩
  simp only [isWord, name?, beq_iff_eq, Option.some.injEq] at hw
  exact hw ▸ h

theorem Value.spells_num {n : Number} (h : Json.isHeld (.num n) = true) (span : Span) :
    (Value.num n.reread span).Spells (.num n) := by
  have hf := Number.isFinite_reread h
  refine ⟨?_, ?_, fun _ h => by simp [isWord, name?] at h⟩
  · rw [literal, Json.ofNumber, if_pos hf, Json.reread]
  · rw [overflows, if_pos hf]

/-- A string is read back, bare or in quotes. -/
theorem reads_string (s : String) : Reads (Written.string s).toList fun v =>
    ∃ span, v = .str s span ∨ (v = .name s span ∧ isReserved s = false) := by
  rw [Written.string]
  split
  · next h =>
    have hr : isReserved s = false := by simpa using (Bool.and_eq_true_iff.1 h).2
    exact (reads_name (isName_of_isBare h) hr).imp fun _ ⟨span, hv⟩ => ⟨span, .inr ⟨hv, hr⟩⟩
  · exact (reads_quote s).imp fun _ ⟨span, hv⟩ => ⟨span, .inl hv⟩

theorem reads_array {α : Type} {text : α → List Char} {P : α → Value → Prop} {items : List α}
    (h : ∀ x ∈ items, Reads (text x) (P x)) : Reads ('[' :: (joined (items.map text) ++ [']'])) fun v =>
      ∃ vs span, v = .array vs span ∧ List.Forall₂ P items vs := by
  refine ⟨⟨_, _, rfl, by decide⟩, fun c tail hc ht => ?_, fun c tail fuel hc ht hf => ?_⟩
  · exact Cursor.isSolid_of_head hc (by rw [hc]; rfl) (by decide) (by decide)
  · obtain ⟨fuel, rfl⟩ : ∃ k, fuel = k + 1 := ⟨fuel - 1, by omega⟩
    simp only [List.cons_append, List.append_assoc, List.nil_append] at hc
    have hd : _ = joined (items.map text) ++ ']' :: tail := Cursor.past_rest (a := ['[']) hc
    have hlen := congrArg List.length hc
    obtain ⟨vs, hvs, hp⟩ :=
      Cursor.sequence_joined (show isClosing ']' = true by decide) '[' c items h _ [] tail
        fuel (by simp) hd
      (by rw [hd]; simp only [List.length_cons] at hlen; omega)
    refine ⟨.array vs (c.spanTo (c.past ('[' :: (joined (items.map text) ++ [']'])))), ?_,
      vs, _, rfl, hp⟩
    rw [Cursor.value, hc]
    simp only [hvs, bind, Except.bind, pure, Except.pure]
    simp only [Cursor.past_past, List.cons_append, List.nil_append]

theorem reads_call {name : String} (hn : Written.isPlainKey name = true) {α : Type}
    {text : α → List Char} {P : α → Value → Prop} {items : List α}
    (h : ∀ x ∈ items, Reads (text x) (P x)) :
    Reads (name.toList ++ '(' :: (joined (items.map text) ++ [')'])) fun v =>
      ∃ vs span, v = .call name vs span ∧ List.Forall₂ P items vs := by
  have hname := isName_of_isPlainKey hn
  have hr := isReserved_of_isPlainKey hn
  have hne : ∀ w, isReserved w = true → name.toList ≠ w.toList := fun w hw h' =>
    ne_of_isReserved hr hw (String.toList_injective h')
  refine ⟨?_, fun c tail hc ht => ?_, fun c tail fuel hc ht hf => ?_⟩
  · obtain ⟨ch, cs, hcs, hhead, -⟩ := isHead_of_isName hname
    exact ⟨ch, _, by rw [hcs]; rfl, hhead⟩
  · rw [List.append_assoc] at hc
    exact Cursor.isSolid_of_isName hc hname (hne _ (by decide)) (hne _ (by decide))
      fun ch hch => by cases hch; decide
  · obtain ⟨fuel, rfl⟩ : ∃ k, fuel = k + 1 := ⟨fuel - 1, by omega⟩
    simp only [List.cons_append, List.append_assoc, List.nil_append] at hc
    have hparen := Cursor.past_rest hc
    have hd : _ = joined (items.map text) ++ ')' :: tail := Cursor.past_rest (a := ['(']) hparen
    have hlen := congrArg List.length hc
    obtain ⟨vs, hvs, hp⟩ :=
      Cursor.sequence_joined (show isClosing ')' = true by decide) '(' c items h _ [] tail
        fuel (by simp) hd
      (by rw [hd]; simp only [List.length_cons, List.length_append] at hlen ⊢; omega)
    refine ⟨.call name vs
      (c.spanTo (c.past (name.toList ++ '(' :: (joined (items.map text) ++ [')'])))), ?_, vs, _,
      rfl, hp⟩
    rw [Cursor.value_of_name hc hname (fun ch hch => by cases hch; decide), if_neg]
    · simp only [hvs, bind, Except.bind, pure, Except.pure, String.ofList_toList]
      simp only [Cursor.past_past, List.append_assoc, List.cons_append, List.nil_append]
    · simp only [List.head?_cons, ne_eq, not_true_eq_false, or_false, String.ofList_toList]
      simp [ne_of_isReserved hr (w := "true") (by decide),
        ne_of_isReserved hr (w := "false") (by decide), ne_of_isReserved hr (w := "null") (by decide)]

theorem reads_object (text : Json → List Char) {P : Json → Value → Prop} {members : Record}
    (h : ∀ m ∈ members, Reads (text m.2) (P m.2)) :
    Reads ('\x7b' ::
      (joined (members.map fun m => (Written.memberKey m.1).toList ++ (':' :: ' ' :: text m.2)) ++
      ['\x7d'])) fun v =>
      ∃ es span, v = .object es span ∧ List.Forall₂ (fun m e => e.1 = m.1 ∧ P m.2 e.2) members es := by
  generalize hts :
  (members.map fun m => (Written.memberKey m.1).toList ++ (':' :: ' ' :: text m.2)) = ts
  refine ⟨⟨_, _, rfl, by decide⟩, fun c tail hc ht => ?_, fun c tail fuel hc ht hf => ?_⟩
  · exact Cursor.isSolid_of_head hc (by rw [hc]; rfl) (by decide) (by decide)
  · obtain ⟨fuel, rfl⟩ : ∃ k, fuel = k + 1 := ⟨fuel - 1, by omega⟩
    simp only [List.cons_append, List.append_assoc, List.nil_append] at hc
    have hd : _ = joined ts ++ '\x7d' :: tail := Cursor.past_rest (a := ['\x7b']) hc
    have hlen := congrArg List.length hc
    obtain ⟨es, hes, hp⟩ := Cursor.members_joined text (P := P) c members h _ [] tail fuel (by simp)
      (by rw [hts]; exact hd) (by rw [hd]; simp only [List.length_cons] at hlen; omega)
    rw [hts] at hes
    refine ⟨.object es (c.spanTo (c.past ('\x7b' :: (joined ts ++ ['\x7d'])))), ?_, es, _, rfl, hp⟩
    rw [Cursor.value, hc]
    simp only [hes, bind, Except.bind, pure, Except.pure]
    simp only [Cursor.past_past, List.cons_append, List.nil_append]

theorem Json.isValid_items {items : List Json} (h : (Json.arr items).isValid = true) :
    ∀ v ∈ items, v.isValid = true := (every_arr.1 h).2

theorem Json.isValid_members {members : Record} (h : (Json.obj members).isValid = true) :
    ∀ m ∈ members, m.2.isValid = true := (every_obj.1 h).2

theorem Value.spells_array {items : List Json} {vs : List Value}
    (h : List.Forall₂ (fun x v => v.Spells x) items vs) (span : Span) :
    (Value.array vs span).Spells (.arr items) := by
  obtain ⟨hl, ho⟩ := literals_of_spells h
  exact ⟨by rw [literal, hl, Json.reread], ho, fun _ h => by simp [isWord, name?] at h⟩

theorem reads_reserved {word : String} {x : Json} (hn : isName word.toList = true) (hd : word ≠ "do")
    (he : word ≠ "end") (hx : ∀ span, (Value.ofWord word span).Spells x) :
    Reads word.toList (·.Spells x) :=
  (reads_ofWord hn hd he).imp fun _ ⟨span, hv⟩ => hv ▸ hx span

/-- A written value reads as itself; so does each item of an array. -/
theorem reads_value_and_items (x : Json) (hx : x.isValid = true) :
    Reads (Written.value x).toList (·.Spells x) ∧
      ∀ items, x = .arr items → ∀ y ∈ items, Reads (Written.value y).toList (·.Spells y) := by
  induction x using Json.induction with
  | null =>
    have hnull (span : Span) : (Value.ofWord "null" span).Spells .null := ⟨rfl, rfl, nofun⟩
    exact ⟨reads_reserved (by decide) (by decide) (by decide) hnull, nofun⟩
  | bool b =>
    cases b with
    | true =>
      have htrue (span : Span) : (Value.ofWord "true" span).Spells (.bool true) := ⟨rfl, rfl, nofun⟩
      exact ⟨reads_reserved (by decide) (by decide) (by decide) htrue, nofun⟩
    | false =>
      have hfalse (span : Span) : (Value.ofWord "false" span).Spells (.bool false) := ⟨rfl, rfl, nofun⟩
      exact ⟨reads_reserved (by decide) (by decide) (by decide) hfalse, nofun⟩
  | num n =>
    refine ⟨(reads_number hx).imp ?_, nofun⟩
    rintro _ ⟨span, rfl⟩
    exact Value.spells_num hx span
  | str s =>
    refine ⟨(reads_string s).imp ?_, nofun⟩
    rintro _ ⟨span, rfl | ⟨rfl, hr⟩⟩
    · exact Value.spells_str s span
    · exact Value.spells_name hr span
  | arr items ih =>
    have hitems := fun y hy => (ih y hy (Json.isValid_items hx y hy)).1
    refine ⟨?_, fun items' he y hy => hitems y (by cases he; exact hy)⟩
    rw [Written.toList_arr]
    refine (reads_array hitems).imp ?_
    rintro _ ⟨vs, span, rfl, hvs⟩
    exact Value.spells_array hvs span
  | obj members ih =>
    refine ⟨?_, nofun⟩
    have hvalid := Json.isValid_members hx
    -- A call is written by its arguments, the items of an array inside the object: they are why the
    -- statement has a second part.
    cases hcall : Written.call? members with
    | some p =>
      obtain ⟨name, args⟩ := p
      obtain ⟨hlen, -, hargs, hname, -⟩ := Written.call?_eq_some.1 hcall
      have hmem := Record.mem_of_get? hargs
      have hreads := (ih _ hmem (hvalid _ hmem)).2 args rfl
      rw [Written.toList_call hcall]
      refine (reads_call hname hreads).imp ?_
      rintro _ ⟨vs, span, rfl, hvs⟩
      obtain ⟨hl, ho⟩ := Value.literals_of_spells hvs
      refine ⟨?_, ho, fun _ h => by simp [Value.isWord, Value.name?] at h⟩
      rw [Value.literal, hl, Json.reread, hcall, Written.rereadArgs_of_call? hcall]
    | none =>
      rw [Written.toList_obj hcall]
      refine (reads_object (fun v => (Written.value v).toList) (P := fun x v => v.Spells x) fun m hm =>
        (ih m hm (hvalid m hm)).1).imp ?_
      rintro _ ⟨es, span, rfl, hes⟩
      obtain ⟨hl, ho⟩ := Value.literalMembers_of_spells hes
      refine ⟨?_, ho, fun _ h => by simp [Value.isWord, Value.name?] at h⟩
      have hnodup : (Record.keys (Json.rereadMembers members)).Nodup := by
        rw [Json.keys_rereadMembers]; exact Json.nodup_of_isValid hx
      rw [Value.literal, hl, Record.ofPairs_of_nodup hnodup, Json.reread, hcall]

theorem reads_value {x : Json} (hx : x.isValid = true) : Reads (Written.value x).toList (·.Spells x) :=
  (reads_value_and_items x hx).1

/-! ## Values where a reference may stand -/

theorem hasSigil_of_isVariable {s : String} (h : isVariable s.toList = true) :
    Scope.hasSigil s = true := by
  unfold isVariable at h
  split at h
  · next heq => simp [Scope.hasSigil, heq]
  · cases h

theorem isReserved_of_hasSigil {s : String} (h : Scope.hasSigil s = true) : isReserved s = false := by
  rw [Bool.eq_false_iff]
  intro hr
  have hall : ∀ w ∈ reservedWords, Scope.hasSigil w = false := by decide
  rw [hall s (by simpa [isReserved] using hr)] at h
  cases h

/-- A variable stands for itself in every scope. -/
theorem Value.refers_name {s : String} (h : Scope.hasSigil s = true) (span : Span) :
    (Value.name s span).Refers (.str s) :=
  ⟨spells_name (isReserved_of_hasSigil h) span, fun scope => by
    simp [resolved, Scope.resolve, Scope.require?, h, Json.reread]⟩

theorem reads_reference (s : String) : Reads (Written.reference s).toList fun v =>
    ∃ span, v = .str s span ∨ (v = .name s span ∧ Scope.hasSigil s = true) := by
  rw [Written.reference]
  split
  · next h =>
    have hs := hasSigil_of_isVariable h
    exact (reads_name (isName_of_isVariable h) (isReserved_of_hasSigil hs)).imp
      fun _ ⟨span, hv⟩ => ⟨span, .inr ⟨hv, hs⟩⟩
  · exact (reads_quote s).imp fun _ ⟨span, hv⟩ => ⟨span, .inl hv⟩

theorem Written.referenceValues_eq_map (items : List Json) :
    referenceValues items = items.map referenceValue := by
  induction items with
  | nil => rfl
  | cons v items ih => rw [referenceValues, ih, List.map_cons]

theorem Written.toList_reference_arr (items : List Json) : (referenceValue (.arr items)).toList =
    '[' :: (joined (items.map fun v => (referenceValue v).toList) ++ [']']) := by
  simp [referenceValue, referenceValues_eq_map, joined, String.toList_intercalate, List.map_map,
    Function.comp_def]

theorem Value.resolvedItems_of_refers {items : List Json} {vs : List Value}
    (h : List.Forall₂ (fun x v => v.Refers x) items vs) (scope : Scope) :
    resolvedItems scope vs = Json.rereadItems items := by
  induction h with
  | nil => rfl
  | cons hv _ ih => rw [resolvedItems, hv.resolved, ih, Json.rereadItems]

/-- Only names and arrays are looked up. -/
theorem Value.resolved_eq_literal {v : Value} (hs : ∀ s, v.literal ≠ .str s)
    (ha : ∀ xs, v.literal ≠ .arr xs) (scope : Scope) : v.resolved scope = v.literal := by
  cases v with
  | name text span => exact absurd rfl (hs text)
  | array items span => exact absurd rfl (ha (literals items))
  | _ => rfl

theorem Value.refers_of_spells {v : Value} {x : Json} (h : v.Spells x) (hs : ∀ s, x.reread ≠ .str s)
    (ha : ∀ xs, x.reread ≠ .arr xs) : v.Refers x :=
  ⟨h, fun scope => by
    rw [resolved_eq_literal (by rw [h.literal]; exact hs) (by rw [h.literal]; exact ha), h.literal]⟩

theorem Json.exists_reread_obj (members : Record) :
    ∃ members', (Json.obj members).reread = .obj members' := by
  rw [reread]
  split <;> exact ⟨_, rfl⟩

theorem reads_referenceValue {x : Json} (hx : x.isValid = true) :
    Reads (Written.referenceValue x).toList (·.Refers x) := by
  induction x using Json.induction with
  | str s =>
    refine (reads_reference s).imp ?_
    rintro _ ⟨span, rfl | ⟨rfl, hs⟩⟩
    · exact ⟨Value.spells_str s span, fun _ => rfl⟩
    · exact Value.refers_name hs span
  | arr items ih =>
    rw [Written.toList_reference_arr]
    refine (reads_array fun y hy => ih y hy (Json.isValid_items hx y hy)).imp ?_
    rintro _ ⟨vs, span, rfl, hvs⟩
    refine ⟨Value.spells_array (hvs.imp fun _ _ h => h.toSpells) span, fun scope => ?_⟩
    rw [Value.resolved, Value.resolvedItems_of_refers hvs, Json.reread]
  | obj members _ =>
    obtain ⟨members', hr⟩ := Json.exists_reread_obj members
    exact (reads_value hx).imp fun v h => Value.refers_of_spells h (by simp [hr]) (by simp [hr])
  | _ => exact (reads_value hx).imp fun v h =>
      Value.refers_of_spells h (by simp [Json.reread]) (by simp [Json.reread])

structure Value.SpellsUnder (key : String) (v : Value) (j : Json) : Prop extends v.Spells j where
  underKey : ∀ scope, v.underKey scope key = j.reread

theorem reads_fieldValue (key : String) {x : Json} (hx : x.isValid = true) :
    Reads (Written.fieldValue key x).toList (·.SpellsUnder key x) := by
  rw [Written.fieldValue]
  split
  · next h =>
    exact (reads_referenceValue hx).imp fun v hv => ⟨hv.toSpells, fun scope => by
      rw [Value.underKey, if_pos h, hv.resolved]⟩
  · next h =>
    exact (reads_value hx).imp fun v hv =>
      ⟨hv, fun scope => by rw [Value.underKey, if_neg h, hv.literal]⟩

end Worldbook
