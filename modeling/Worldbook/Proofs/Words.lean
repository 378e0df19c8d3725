import Worldbook.Proofs.Lines
import Worldbook.Proofs.Rounds

/-!
# Where a word ends

Two parts of the reader say where a word ends. The one that looks for the words of blocks goes
by the two characters behind the word, and the scanner of names goes on as long as it can.
They agree at every place of every text, and what is joined to a word belongs to it for both.
-/

namespace Worldbook

def blockWords : List String := ["do", "end"]

/-! ## Tails of names -/

theorem endsWord_cons (ch : Char) (cs : List Char) :
    endsWord (ch :: cs) = !(isNameChar ch || (isJoiner ch && cs.head?.any isNameChar)) := by
  cases cs with
  | nil => simp [endsWord]
  | cons next cs => simp [endsWord]

theorem endsWord_iff (cs : List Char) : endsWord cs = true ↔ nameTail cs = [] := by
  cases cs with
  | nil => simp [endsWord, nameTail]
  | cons ch cs =>
    rw [endsWord_cons, nameTail]
    by_cases h : (isNameChar ch || (isJoiner ch && cs.head?.any isNameChar)) = true
    · simp [h]
    · simp [h]

theorem exists_nameTail (cs : List Char) : ∃ tail, cs = nameTail cs ++ tail ∧ endsWord tail = true := by
  induction cs with
  | nil => exact ⟨[], rfl, rfl⟩
  | cons ch cs ih =>
    obtain ⟨tail, hcs, htail⟩ := ih
    rw [nameTail]
    by_cases h : (isNameChar ch || (isJoiner ch && cs.head?.any isNameChar)) = true
    · rw [if_pos h]
      exact ⟨tail, congrArg (ch :: ·) hcs, htail⟩
    · rw [if_neg h]
      refine ⟨ch :: cs, rfl, ?_⟩
      rw [endsWord_cons, Bool.not_eq_true', Bool.eq_false_iff]
      exact h

theorem nameTail_goes_on {cs : List Char} (h : isNameRest cs = true) (tail : List Char) :
    nameTail (cs ++ tail) = cs ++ nameTail tail := by
  induction cs with
  | nil => rfl
  | cons ch cs ih =>
    rw [isNameRest, Bool.and_eq_true] at h
    have hch : (isNameChar ch || (isJoiner ch && (cs ++ tail).head?.any isNameChar)) = true := by
      cases cs with
      | nil => simpa using Or.inl h.1
      | cons next cs => exact h.1
    rw [List.cons_append, nameTail, if_pos hch, ih h.2, List.cons_append]

theorem nameTail_joined {j ch : Char} (hj : isJoiner j = true) (hch : isNameChar ch = true)
    (more : List Char) : nameTail (j :: ch :: more) = j :: ch :: nameTail more := by
  simp [nameTail, hj, hch]

theorem exists_start {word : String} (hword : isPlainName word.toList = true) :
    ∃ first rest, word.toList = first :: rest ∧ isNameStart first = true ∧ isNameRest rest = true := by
  cases hlist : word.toList with
  | nil => simp [hlist, isPlainName] at hword
  | cons first rest =>
    rw [hlist, isPlainName, Bool.and_eq_true] at hword
    exact ⟨first, rest, rfl, hword.1, hword.2⟩

namespace Cursor

variable {c d : Cursor} {name word : String}

/-! ## The scanner of names -/

theorem scanName_of_start {first : Char} {more : List Char} (hc : c.rest = first :: more)
    (hfirst : isNameStart first = true) :
    c.scanName = .ok (String.ofList (first :: nameTail more), c.past (first :: nameTail more)) := by
  obtain ⟨tail, hmore, -⟩ := exists_nameTail more
  have hdollar : c.rest.head? ≠ some '$' := by
    simpa [hc] using isNameStart_ne hfirst isNameStart_dollar
  have hrest : c.rest = (first :: nameTail more) ++ tail := by rw [hc, List.cons_append, ← hmore]
  unfold scanName
  simp only [eat_of_ne hdollar, hc, hfirst, if_true, textTo_past hrest]

theorem rest_of_scanName (h : c.scanName = .ok (name, d)) :
    d = c.past name.toList ∧ ∃ tail, c.rest = name.toList ++ tail ∧ endsWord tail = true := by
  obtain ⟨pre, ⟨rest, hrest⟩, heat⟩ := c.reaches_eat '$'
  have hpast : (c.eat '$').rest = rest := by rw [heat, past_rest hrest.symm]
  unfold scanName at h
  dsimp only at h
  rw [hpast] at h
  cases rest with
  | nil => cases h
  | cons first more =>
    obtain ⟨tail, hmore, htail⟩ := exists_nameTail more
    dsimp only at h
    split at h
    · have hall : c.rest = (pre ++ first :: nameTail more) ++ tail := by
        rw [← hrest, List.append_assoc, List.cons_append, ← hmore]
      rw [heat, past_past, textTo_past hall] at h
      cases h
      rw [String.toList_ofList]
      exact ⟨rfl, tail, hall, htail⟩
    · cases h

/-! ## Words of blocks -/

theorem atWord_iff_rest :
    c.atWord word = true ↔ ∃ tail, c.rest = word.toList ++ tail ∧ endsWord tail = true := by
  have hdrop : ∀ tail, c.rest = word.toList ++ tail → c.rest.drop word.length = tail := by
    intro tail htail
    rw [htail, ← String.length_toList, List.drop_left]
  rw [atWord, Bool.and_eq_true, startsWith_iff]
  constructor
  · intro h
    obtain ⟨⟨tail, htail⟩, hends⟩ := h
    rw [hdrop tail htail] at hends
    exact ⟨tail, htail, hends⟩
  · intro h
    obtain ⟨tail, htail, hends⟩ := h
    rw [hdrop tail htail]
    exact ⟨⟨tail, htail⟩, hends⟩

/-- To look for a word is to scan a name and to compare. -/
theorem atWord_iff_scanName (hword : isPlainName word.toList = true) :
    c.atWord word = true ↔ ∃ d, c.scanName = .ok (word, d) := by
  rw [atWord_iff_rest]
  constructor
  · intro h
    obtain ⟨tail, hrest, hends⟩ := h
    obtain ⟨first, more, hlist, hfirst, hmore⟩ := exists_start hword
    rw [hlist, List.cons_append] at hrest
    have hscan := scanName_of_start hrest hfirst
    rw [nameTail_goes_on hmore, (endsWord_iff tail).1 hends, List.append_nil, ← hlist,
      String.ofList_toList] at hscan
    exact ⟨_, hscan⟩
  · intro h
    obtain ⟨d, hscan⟩ := h
    exact (rest_of_scanName hscan).2

theorem isPlainName_of_blockWord (hword : word ∈ blockWords) : isPlainName word.toList = true := by
  have hall : ∀ w ∈ blockWords, isPlainName w.toList = true := by decide
  exact hall word hword

theorem not_mem_blockWords (hdo : c.atWord "do" = false) (hend : c.atWord "end" = false)
    (h : c.scanName = .ok (name, d)) : name ∉ blockWords := by
  intro hname
  have hat := (atWord_iff_scanName (isPlainName_of_blockWord hname)).2 ⟨d, h⟩
  simp only [blockWords, List.mem_cons, List.not_mem_nil, or_false] at hname
  obtain rfl | rfl := hname
  · rw [hdo] at hat
    cases hat
  · rw [hend] at hat
    cases hat

/-! ## Joined words -/

variable {j ch : Char} {more : List Char}

def joinedWord (word : String) (j ch : Char) (more : List Char) : String :=
  word ++ String.ofList (j :: ch :: nameTail more)

theorem toList_joinedWord :
    (joinedWord word j ch more).toList = word.toList ++ j :: ch :: nameTail more := by
  simp [joinedWord]

theorem scanName_joined (hword : isPlainName word.toList = true) (hj : isJoiner j = true)
    (hch : isNameChar ch = true) (hc : c.rest = word.toList ++ j :: ch :: more) :
    c.scanName = .ok (joinedWord word j ch more, c.past (joinedWord word j ch more).toList) := by
  obtain ⟨first, rest, hlist, hfirst, hrest⟩ := exists_start hword
  rw [hlist, List.cons_append] at hc
  have htext : first :: nameTail (rest ++ j :: ch :: more) = (joinedWord word j ch more).toList := by
    rw [toList_joinedWord, hlist, nameTail_goes_on hrest, nameTail_joined hj hch, List.cons_append]
  rw [scanName_of_start hc hfirst, htext, String.ofList_toList]

theorem joinedWord_not_mem {words : List String}
    (hwords : (words.flatMap String.toList).any isJoiner = false) (hj : isJoiner j = true) :
    joinedWord word j ch more ∉ words := by
  intro hmem
  have hnone := List.any_eq_false.1 hwords j (List.mem_flatMap.2 ⟨_, hmem, by simp [toList_joinedWord]⟩)
  exact hnone hj

theorem atWord_joined {w : String} (hw : w ∈ blockWords) (hword : isPlainName word.toList = true)
    (hj : isJoiner j = true) (hch : isNameChar ch = true)
    (hc : c.rest = word.toList ++ j :: ch :: more) : c.atWord w = false := by
  rw [Bool.eq_false_iff]
  intro hat
  obtain ⟨d, hscan⟩ := (atWord_iff_scanName (isPlainName_of_blockWord hw)).1 hat
  rw [scanName_joined hword hj hch hc] at hscan
  cases hscan
  exact joinedWord_not_mem (by decide) hj hw

theorem value_of_scanName {first : Char} {rest : List Char} (hc : c.rest = first :: rest)
    (hfirst : isNameStart first = true) (hscan : c.scanName = .ok (name, d))
    (hname : name ∉ ["true", "false", "null"]) (hparen : d.startsWith ['('] = false)
    (n : Nat) : c.value (n + 1) = .ok (.name name (c.spanTo d), d) := by
  have hne : ∀ x, isNameStart x = false → first ≠ x := fun x hx => isNameStart_ne hfirst hx
  simp only [List.mem_cons, List.not_mem_nil, or_false, not_or] at hname
  obtain ⟨htrue, hfalse, hnull⟩ := hname
  rw [value, hc]
  split
  · next heq => cases heq
  · next heq => exact absurd (List.cons.inj heq).1 (hne _ (by decide))
  · next heq => exact absurd (List.cons.inj heq).1 (hne _ (by decide))
  · next heq => exact absurd (List.cons.inj heq).1 (hne _ (by decide))
  · next heq =>
    obtain ⟨rfl, -⟩ := List.cons.inj heq
    have hminus : first ≠ '-' := hne _ (by decide)
    simp only [hminus, isDigit_of_isNameStart hfirst, hfirst, hscan, htrue, hfalse, hnull, hparen,
      ok_bind, decide_false, Bool.or_false, Bool.or_true, Bool.false_eq_true, if_false, if_true]
    rfl

theorem value_joined (hword : isPlainName word.toList = true) (hj : isJoiner j = true)
    (hch : isNameChar ch = true) (hc : c.rest = word.toList ++ j :: ch :: more)
    (hparen : (c.past (joinedWord word j ch more).toList).startsWith ['('] = false) (n : Nat) :
    let d := c.past (joinedWord word j ch more).toList
    c.value (n + 1) = .ok (.name (joinedWord word j ch more) (c.spanTo d), d) := by
  have hscan := scanName_joined hword hj hch hc
  have hname : joinedWord word j ch more ∉ ["true", "false", "null"] :=
    joinedWord_not_mem (by decide) hj
  obtain ⟨first, rest, hlist, hfirst, -⟩ := exists_start hword
  rw [hlist, List.cons_append] at hc
  exact value_of_scanName hc hfirst hscan hname hparen n

theorem pieceRound_joined (hword : isPlainName word.toList = true) (hj : isJoiner j = true)
    (hch : isNameChar ch = true) (hc : c.rest = word.toList ++ j :: ch :: more)
    (hparen : (c.past (joinedWord word j ch more).toList).startsWith ['('] = false) :
    let d := c.past (joinedWord word j ch more).toList
    c.pieceRound = .ok (.more (.value (.name (joinedWord word j ch more) (c.spanTo d))) d) := by
  intro d
  have hdo := atWord_joined (w := "do") (by decide) hword hj hch hc
  have hend := atWord_joined (w := "end") (by decide) hword hj hch hc
  have hvalue : c.scanValue = .ok (.name (joinedWord word j ch more) (c.spanTo d), d) :=
    value_joined hword hj hch hc hparen _
  obtain ⟨first, rest, hlist, hfirst, -⟩ := exists_start hword
  rw [hlist, List.cons_append] at hc
  have hhead : isHead first = true := by simp [isHead, hfirst]
  have hblanks : ∀ x ∈ ([] : List Char), isInlineBlank x = true := by simp
  have hskip : c.skipInlineBlanks = c := by
    rw [skipInlineBlanks_eq hblanks hc (isInlineBlank_of_isHead hhead), past_nil]
  have hoperator : operator? c.rest = none := by
    rw [hc]
    exact operator?_of_head hhead (isNameStart_ne hfirst (by decide))
  have hequals : c.startsWith ['='] = false := by
    simp [startsWith, hc, List.isPrefixOf, Ne.symm (isNameStart_ne hfirst (d := '=') (by decide))]
  simp only [pieceRound, hskip, hdo, atLineEnd_of_head hc hhead hend, scanPiece, hoperator,
    hequals, hvalue, Bool.false_eq_true, if_false, ok_bind]
  rfl

end Cursor

end Worldbook
