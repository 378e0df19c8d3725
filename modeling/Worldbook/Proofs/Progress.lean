import Worldbook.Proofs.Places
import Worldbook.Proofs.Trees

/-!
# Readers go forward

A reader that succeeds has taken at least one character, and what it has read stands
in order between where it started and where it stopped. A reader that fails does so at
a place of the text, and never for want of steps, since every round takes a character.
-/

namespace Worldbook

/-! ## Spans in spans -/

namespace Span

def Contains (s t : Span) : Prop := s.start.offset ≤ t.start.offset ∧ t.stop.offset ≤ s.stop.offset

/-- The spans lie in the first one, one after the other. -/
structure Nests (s : Span) (parts : List Span) : Prop where
  inside : ∀ t ∈ parts, s.Contains t
  ordered : parts.Pairwise fun t u => t.stop.offset ≤ u.start.offset

theorem nests_nil (s : Span) : s.Nests [] := ⟨nofun, .nil⟩

theorem Nests.sublist {s : Span} {ts us : List Span} (h : s.Nests us) (hsub : ts.Sublist us) :
    s.Nests ts :=
  ⟨fun t ht => h.inside t (hsub.subset ht), h.ordered.sublist hsub⟩

theorem Nests.within {s t : Span} {ts : List Span} (h : t.Nests ts) (hst : s.Contains t) :
    s.Nests ts := by
  refine ⟨?_, h.ordered⟩
  intro u hu
  have hu := h.inside u hu
  exact ⟨hst.1.trans hu.1, hu.2.trans hst.2⟩

theorem nests_self (s : Span) : s.Nests [s] := by
  refine ⟨?_, List.pairwise_singleton ..⟩
  intro t ht
  rw [List.mem_singleton.1 ht]
  exact ⟨Nat.le_refl _, Nat.le_refl _⟩

end Span

namespace Cursor

/-- The spans stand one after the other between two cursors, and none is empty. -/
inductive Along : Cursor → Cursor → List Span → Prop
  | nil {c d : Cursor} : c.Reaches d → Along c d []
  | cons {c a b d : Cursor} {ss : List Span} : c.Reaches a → a.Advances b → Along b d ss →
      Along c d (a.spanTo b :: ss)

namespace Along

variable {c d e : Cursor} {ss : List Span}

theorem reaches (h : Along c d ss) : c.Reaches d := by
  induction h with
  | nil h => exact h
  | cons hca hab _ ih => exact hca.trans (hab.reaches.trans ih)

theorem advances (h : Along c d ss) (hss : ss ≠ []) : c.Advances d := by
  cases h with
  | nil => exact absurd rfl hss
  | cons hca hab hrest => exact hca.advances (hab.trans hrest.reaches)

theorem since (h : Along d e ss) (hcd : c.Reaches d) : Along c e ss := by
  cases h with
  | nil h => exact .nil (hcd.trans h)
  | cons hda hab hrest => exact .cons (hcd.trans hda) hab hrest

theorem upTo (h : Along c d ss) (hde : d.Reaches e) : Along c e ss := by
  induction h with
  | nil h => exact .nil (h.trans hde)
  | cons hca hab _ ih => exact .cons hca hab (ih hde)

theorem nests (h : Along c d ss) : (c.spanTo d).Nests ss := by
  induction h with
  | nil => exact Span.nests_nil _
  | @cons c a b d ss hca hab hrest ih =>
    have hbd := hrest.reaches.offset_le
    have hcb := (hca.trans hab.reaches).offset_le
    refine ⟨List.forall_mem_cons.2 ⟨⟨hca.offset_le, hbd⟩, ?_⟩, List.pairwise_cons.2 ⟨?_, ih.ordered⟩⟩
    · intro t ht
      have ht := ih.inside t ht
      exact ⟨hcb.trans ht.1, ht.2⟩
    · intro t ht
      exact (ih.inside t ht).1

end Along

end Cursor

/-! ## What a reader does -/

/-- From `c` the reader comes to a later cursor with a good result, or it
fails at a place of the text that starts at `o`, and not for want of steps. -/
def Proceeds {α : Type} (o c : Cursor) (Q : α → Cursor → Prop) (r : Except SyntaxError (α × Cursor)) :
    Prop :=
  (∀ a d, r = .ok (a, d) → c.Reaches d ∧ Q a d) ∧ ∀ e, r = .error e → e.cause ≠ .exhausted ∧
  o.Holds e.span

section
variable {α β : Type} {o c d : Cursor} {P Q : α → Cursor → Prop}

theorem proceeds_ok {a : α} (h : c.Reaches d) (hQ : Q a d) : Proceeds o c Q (.ok (a, d)) := by
  refine ⟨?_, nofun⟩
  intro b e heq
  cases heq
  exact ⟨h, hQ⟩

theorem proceeds_error {cause : SyntaxError.Cause} {s : Span} (hcause : cause ≠ .exhausted)
    (hs : o.Holds s) : Proceeds o c Q (.error ⟨cause, s⟩) := by
  refine ⟨nofun, ?_⟩
  intro e heq
  cases heq
  exact ⟨hcause, hs⟩

theorem proceeds_fail {cause : SyntaxError.Cause} (hcause : cause ≠ .exhausted) (h : o.Reaches d) :
    Proceeds o c Q (d.fail cause) := proceeds_error hcause (Cursor.holds_point h)

theorem proceeds_failTo {cause : SyntaxError.Cause} {b : Cursor} (hcause : cause ≠ .exhausted)
    (hb : o.Reaches b) (hbd : b.Reaches d) : Proceeds o c Q (b.failTo d cause) :=
  proceeds_error hcause (Cursor.holds_spanTo hb hbd)

theorem Proceeds.since {b : Cursor} {r : Except SyntaxError (α × Cursor)} (h : Proceeds o c Q r)
    (hbc : b.Reaches c) : Proceeds o b Q r := by
  refine ⟨?_, h.2⟩
  intro a d hr
  obtain ⟨hcd, hQ⟩ := h.1 a d hr
  exact ⟨hbc.trans hcd, hQ⟩

theorem Proceeds.advancing {b : Cursor} {r : Except SyntaxError (α × Cursor)} (h : Proceeds o c Q r)
    (hbc : b.Advances c) : Proceeds o b (fun a d => b.Advances d ∧ Q a d) r := by
  refine ⟨?_, h.2⟩
  intro a d hr
  obtain ⟨hcd, hQ⟩ := h.1 a d hr
  exact ⟨hbc.reaches.trans hcd, hbc.trans hcd, hQ⟩

theorem Proceeds.bind {R : β → Cursor → Prop} {r : Except SyntaxError (α × Cursor)}
    {k : α × Cursor → Except SyntaxError (β × Cursor)} (h : Proceeds o c P r)
    (hk : ∀ a d, c.Reaches d → P a d → Proceeds o d R (k (a, d))) : Proceeds o c R (r >>= k) := by
  cases r with
  | error e =>
    obtain ⟨hcause, hspan⟩ := h.2 e rfl
    exact proceeds_error hcause hspan
  | ok p =>
    obtain ⟨a, d⟩ := p
    obtain ⟨hcd, hP⟩ := h.1 a d rfl
    exact (hk a d hcd hP).since hcd

end

/-! ## Tokens -/

inductive Number.IsNarrow : Number → Prop
  | int {i : Int} : inInt64 i = true → IsNarrow (.int i)
  | float (x : Binary64) : IsNarrow (.float x)

theorem Numeral.isNarrow_toNumber (n : Numeral) : n.toNumber.IsNarrow := by
  unfold toNumber
  split
  · next h => exact .int (Bool.and_eq_true_iff.1 h).2
  · exact .float _

namespace Cursor

variable {o c : Cursor}

theorem advances_of_cons {ch : Char} {rest : List Char} (h : c.rest = ch :: rest) :
    c.Advances (c.past [ch]) :=
  advances_past (by simp) ⟨rest, h.symm⟩

theorem proceeds_scanName (ho : o.Reaches c) : Proceeds o c (fun _ d => c.Advances d) c.scanName := by
  have heat := c.reaches_eat '$'
  unfold scanName
  dsimp only
  split
  · exact proceeds_fail (by simp) (ho.trans heat)
  · next first more hrest =>
    by_cases hfirst : isNameStart first = true
    · rw [if_pos hfirst]
      have hpast : first :: nameTail more <+: (c.eat '$').rest := by
        rw [hrest, List.cons_prefix_cons]
        exact ⟨rfl, Move.nameTail_isPrefix more⟩
      have hadvances := heat.advances (advances_past (by simp) hpast)
      exact proceeds_ok hadvances.reaches hadvances
    · rw [if_neg hfirst]
      exact proceeds_fail (by simp) (ho.trans heat)

theorem proceeds_scanExponent {b : Cursor} (ho : o.Reaches b) (hbc : b.Reaches c) :
    Proceeds o c (fun _ _ => True) (b.scanExponent c) := by
  unfold scanExponent
  split
  · exact proceeds_ok (.refl c) trivial
  · next e rest hrest =>
    by_cases he : e = 'e' ∨ e = 'E'
    · rw [if_pos he]
      have hsigned := (advances_of_cons hrest).reaches
      have hunsigned :
        c.Reaches
          (if (c.past [e]).startsWith ['-'] then (c.past [e]).eat '-' else (c.past [e]).eat '+') := by
        split
        · exact hsigned.trans (reaches_eat ..)
        · exact hsigned.trans (reaches_eat ..)
      dsimp only
      generalize (if (c.past [e]).startsWith ['-'] then (c.past [e]).eat '-' else
        (c.past [e]).eat '+') = u at hunsigned ⊢
      have hdigits := hunsigned.trans (u.reaches_takeWhile Char.isDigit)
      by_cases hempty : (u.takeWhile Char.isDigit).1.isEmpty = true
      · rw [if_pos hempty]
        exact proceeds_failTo (by simp) ho (hbc.trans hdigits)
      · rw [if_neg hempty]
        exact proceeds_ok hdigits trivial
    · rw [if_neg he]
      exact proceeds_ok (.refl c) trivial

theorem proceeds_scanNumber (ho : o.Reaches c) :
    Proceeds o c (fun n d => c.Advances d ∧ n.IsNarrow) c.scanNumber := by
  have hsign := c.reaches_eat '-'
  have hwhole := hsign.trans (reaches_takeWhile _ Char.isDigit)
  unfold scanNumber
  dsimp only
  by_cases hempty : ((c.eat '-').takeWhile Char.isDigit).1.isEmpty = true
  · rw [if_pos hempty]
    exact proceeds_failTo (by simp) ho hwhole
  · rw [if_neg hempty]
    have hadvances : c.Advances ((c.eat '-').takeWhile Char.isDigit).2 := by
      apply hsign.advances
      exact advances_past (fun hnil => hempty (List.isEmpty_iff.2 hnil)) (List.takeWhile_prefix _)
    have hfraction := Move.reaches_scanFraction ((c.eat '-').takeWhile Char.isDigit).2
    have hexponent := proceeds_scanExponent ho (hwhole.trans hfraction)
    refine Proceeds.bind (hexponent.advancing (hadvances.trans hfraction)) ?_
    intro exponent d hcd ⟨hadvances, _⟩
    dsimp only
    by_cases hjunk : (d.takeWhile isNameChar).1.isEmpty = true
    · rw [if_pos hjunk]
      exact proceeds_ok (.refl d) ⟨hadvances, Numeral.isNarrow_toNumber _⟩
    · rw [if_neg hjunk]
      exact proceeds_failTo (by simp) ho (hcd.trans (d.reaches_takeWhile isNameChar))

theorem proceeds_prepend {ch : Char} {d : Cursor} {r : Except SyntaxError (List Char × Cursor)}
    (h : Proceeds o d (fun _ _ => True) r) (hcd : c.Reaches d) :
    Proceeds o c (fun _ _ => True) (Cursor.prepend ch r) := by
  cases r with
  | error e =>
    obtain ⟨hcause, hspan⟩ := h.2 e rfl
    exact proceeds_error hcause hspan
  | ok p =>
    obtain ⟨cs, e⟩ := p
    exact proceeds_ok (hcd.trans (h.1 cs e rfl).1) trivial

theorem holds_escape {start : Cursor} (ho : o.Reaches start) {p : Position} {more hex : List Char}
    (hhex : hex <+: more) (hstart : start.Reaches ⟨start.file, p, '\\' :: 'u' :: more⟩) :
    o.Holds ⟨start.file, p.advance '\\', (p.advance '\\').after ('u' :: hex)⟩ := by
  have hstep := hstart.trans (Move.reaches_advance start.file p '\\' ('u' :: more))
  have hpast : ('u' :: hex) <+: 'u' :: more := List.cons_prefix_cons.2 ⟨rfl, hhex⟩
  exact holds_spanTo (ho.trans hstep) (reaches_past hpast)

/-- The characters of a string go on from a place behind its opening quotes. -/
theorem proceeds_stringBody (triple : Bool) {start : Cursor} (ho : o.Reaches start) (p : Position)
    (cs : List Char) (hstart : start.Reaches ⟨start.file, p, cs⟩) :
    Proceeds o ⟨start.file, p, cs⟩ (fun _ _ => True) (stringBody triple start p cs) := by
  fun_induction stringBody triple start p cs with
  | case1 p =>
    refine proceeds_error ?_ (holds_spanTo ho hstart)
    cases triple <;> decide
  | case2 p htriple rest => exact proceeds_ok ⟨['"', '"', '"'], ⟨rest, rfl⟩, rfl⟩ trivial
  | case3 p rest htriple hrest ih =>
    have hstep := Move.reaches_advance start.file p '"' rest
    exact proceeds_prepend (ih (hstart.trans hstep)) hstep
  | case4 p rest htriple => exact proceeds_ok (Move.reaches_advance ..) trivial
  | case5 p q =>
    have hstep := Move.reaches_advance start.file p '\\' []
    exact proceeds_error (by simp) (holds_point (ho.trans (hstart.trans hstep)))
  | case6 p q a b c d rest hex q' hshort =>
    have hhex : hex <+: [a, b, c, d] := List.takeWhile_prefix _
    exact proceeds_error (by simp) (holds_escape ho (hhex.trans ⟨rest, rfl⟩) hstart)
  | case7 p q a b c d rest hex q' hlong ch hch ih =>
    have hhex : hex = [a, b, c, d] := (List.takeWhile_prefix _).eq_of_length_le (Nat.le_of_not_lt hlong)
    have hstep : Reaches ⟨start.file, p, '\\' :: 'u' :: a :: b :: c :: d :: rest⟩ ⟨start.file,
      q', rest⟩ := by
      refine ⟨['\\', 'u', a, b, c, d], ⟨rest, rfl⟩, ?_⟩
      simp only [q', hhex]
      rfl
    exact proceeds_prepend (ih (hstart.trans hstep)) hstep
  | case8 p q a b c d rest hex q' hlong hnone =>
    have hhex : hex <+: [a, b, c, d] := List.takeWhile_prefix _
    exact proceeds_error (by simp) (holds_escape ho (hhex.trans ⟨rest, rfl⟩) hstart)
  | case9 p q short hfew =>
    exact proceeds_error (by simp) (holds_escape ho (List.takeWhile_prefix _) hstart)
  | case10 p q e more he ih =>
    have hstep :=
      (Move.reaches_advance start.file p '\\' (e :: more)).trans
        (Move.reaches_advance start.file q e more)
    exact proceeds_prepend (ih (hstart.trans hstep)) hstep
  | case11 p ch rest hquote hslash hend => exact proceeds_error (by simp) (holds_spanTo ho hstart)
  | case12 p ch rest hquote hslash hgo ih =>
    have hstep := Move.reaches_advance start.file p ch rest
    exact proceeds_prepend (ih (hstart.trans hstep)) hstep

theorem proceeds_body (triple : Bool) (ho : o.Reaches c) {quotes : List Char} (hne : quotes ≠ [])
    (h : quotes <+: c.rest) : Proceeds o c (fun _ d => c.Advances d)
      (stringBody triple c (c.past quotes).pos (c.past quotes).rest >>= fun p =>
        pure (String.ofList p.1, p.2)) := by
  have hpast := advances_past hne h
  refine Proceeds.bind ((proceeds_stringBody triple ho _ _ hpast.reaches).advancing hpast) ?_
  intro chars d _ ⟨hadvances, _⟩
  exact proceeds_ok (.refl d) hadvances

theorem proceeds_scanString (ho : o.Reaches c) (hc : c.rest.head? = some '"') :
    Proceeds o c (fun _ d => c.Advances d) c.scanString := by
  obtain ⟨rest, hrest⟩ := List.head?_eq_some_iff.1 hc
  exact proceeds_body false ho (by simp) ⟨rest, hrest.symm⟩

theorem proceeds_scanAnyString (ho : o.Reaches c) (hc : c.rest.head? = some '"') :
    Proceeds o c (fun _ d => c.Advances d) c.scanAnyString := by
  unfold scanAnyString
  by_cases htriple : c.startsWith ['"', '"', '"'] = true
  · rw [if_pos htriple]
    exact proceeds_body true ho (by simp) (List.isPrefixOf_iff_prefix.1 htriple)
  · rw [if_neg htriple]
    exact proceeds_scanString ho hc

theorem proceeds_scanKey (ho : o.Reaches c) : Proceeds o c (fun _ d => c.Advances d) c.scanKey := by
  unfold scanKey
  split
  · exact proceeds_fail (by simp) ho
  · next first rest hrest =>
    by_cases hquote : first = '"'
    · rw [if_pos hquote]
      exact proceeds_scanString ho (by rw [hrest, hquote]; rfl)
    · rw [if_neg hquote]
      by_cases hfirst : isNameStart first = true
      · rw [if_pos hfirst]
        have hname : isNameChar first = true := by simp [isNameChar, hfirst]
        have hne : c.rest.takeWhile isNameChar ≠ [] := by simp [hrest, hname]
        have hadvances := advances_past hne (List.takeWhile_prefix _)
        exact proceeds_ok hadvances.reaches hadvances
      · rw [if_neg hfirst]
        exact proceeds_fail (by simp) ho

end Cursor

/-! ## Values -/

/-- The span of a value lies in the text, what stands in the value stands in
its span, in order, and a number is one that can be written. -/
structure Value.Placed (o : Cursor) (v : Value) : Prop where
  holds : o.Holds v.span
  nests : v.span.Nests (v.parts.map Value.span)
  narrow : ∀ n, v.number? = some n → n.IsNarrow

def Value.Sound (o : Cursor) (v : Value) : Prop := ∀ w ∈ v.tree, w.Placed o

theorem Value.sound_iff {o : Cursor} {v : Value} : v.Sound o ↔ v.Placed o ∧ ∀ p ∈ v.parts, p.Sound o :=
  forall_mem_tree

theorem Value.sound_leaf {o : Cursor} {v : Value} (hparts : v.parts = []) (hv : o.Holds v.span)
    (hnarrow : ∀ n, v.number? = some n → n.IsNarrow) : v.Sound o := by
  rw [sound_iff, hparts]
  exact ⟨⟨hv, hparts ▸ Span.nests_nil _, hnarrow⟩, nofun⟩

namespace Cursor

variable {o c : Cursor}

structure ProceedsValues (o : Cursor) (n : Nat) : Prop where
  value : ∀ c : Cursor, o.Reaches c → 2 * c.rest.length + 1 ≤ n →
    Proceeds o c (fun v d => c.Advances d ∧ v.span = c.spanTo d ∧ v.Sound o) (c.value n)
  sequence : ∀ opening closing (start c : Cursor), o.Reaches start → start.Reaches c →
    2 * c.rest.length + 2 ≤ n →
    Proceeds o c (fun vs d => c.Advances d ∧ Along c d (vs.map Value.span) ∧ ∀ v ∈ vs, v.Sound o)
      (Cursor.sequence n opening closing start c)
  members : ∀ start c : Cursor, o.Reaches start → start.Reaches c → 2 * c.rest.length + 2 ≤ n →
    Proceeds o c (fun ms d => c.Advances d ∧ Along c d ((ms.map (·.2)).map Value.span) ∧
      ∀ v ∈ ms.map (·.2), v.Sound o) (Cursor.members n start c)

/-- A value whose parts stand between its brackets. -/
theorem sound_of_along {v : Value} {b d : Cursor} (ho : o.Reaches c) (hcb : c.Reaches b)
    (hnum : v.number? = none) (hparts : Along b d (v.parts.map Value.span))
    (hspan : v.span = c.spanTo d) (hsound : ∀ p ∈ v.parts, p.Sound o) :
    v.Sound o := by
  have hall := hparts.since hcb
  refine Value.sound_iff.2 ⟨⟨?_, ?_, ?_⟩, hsound⟩
  · exact hspan ▸ holds_spanTo ho hall.reaches
  · exact hspan ▸ hall.nests
  · simp [hnum]

theorem ProceedsValues.value_succ {n : Nat} (h : ProceedsValues o n) (ho : o.Reaches c)
    (hn : 2 * c.rest.length + 1 ≤ n + 1) :
    Proceeds o c (fun v d => c.Advances d ∧ v.span = c.spanTo d ∧ v.Sound o) (c.value (n + 1)) := by
  have hleaf : ∀ (v : Value) (d : Cursor), c.Advances d → v.parts = [] → v.span = c.spanTo d →
    v.number? = none →
      c.Advances d ∧ v.span = c.spanTo d ∧ v.Sound o := by
    intro v d hcd hparts hspan hnum
    exact ⟨hcd, hspan, Value.sound_leaf hparts (hspan ▸ holds_spanTo ho hcd.reaches) (by simp [hnum])⟩
  rw [Cursor.value]
  split
  · exact proceeds_fail (by simp) ho
  · next rest hrest =>
    refine Proceeds.bind (proceeds_scanAnyString ho (by rw [hrest]; rfl)) ?_
    intro text d _ hadvances
    exact proceeds_ok (.refl d) (hleaf _ d hadvances rfl rfl rfl)
  · next rest hrest =>
    have hopen := advances_of_cons hrest
    have hlt := hopen.length_lt
    -- The bracket has been taken, so one round less is enough for what is behind it.
    have hitems := h.sequence '[' ']' c _ ho hopen.reaches (by omega)
    refine Proceeds.bind (hitems.advancing hopen) ?_
    intro items d _ hread
    obtain ⟨hadvances, _, halong, hsound⟩ := hread
    exact proceeds_ok (.refl d) ⟨hadvances, rfl, sound_of_along ho hopen.reaches rfl halong rfl hsound⟩
  · next rest hrest =>
    have hopen := advances_of_cons hrest
    have hlt := hopen.length_lt
    have hentries := h.members c _ ho hopen.reaches (by omega)
    refine Proceeds.bind (hentries.advancing hopen) ?_
    intro entries d _ hread
    obtain ⟨hadvances, _, halong, hsound⟩ := hread
    exact proceeds_ok (.refl d) ⟨hadvances, rfl, sound_of_along ho hopen.reaches rfl halong rfl hsound⟩
  · next first rest hquote hbracket hbrace hrest =>
    by_cases hdigit : first = '-' ∨ first.isDigit = true
    · rw [if_pos (by simpa using hdigit)]
      refine Proceeds.bind (proceeds_scanNumber ho) ?_
      intro number d _ hread
      obtain ⟨hadvances, hnarrow⟩ := hread
      refine proceeds_ok (.refl d) ⟨hadvances, rfl,
        Value.sound_leaf rfl (holds_spanTo ho hadvances.reaches) ?_⟩
      intro n hn
      cases hn
      exact hnarrow
    rw [if_neg (by simpa using hdigit)]
    by_cases hname : first = '$' ∨ isNameStart first = true
    · rw [if_pos (by simpa using hname)]
      refine Proceeds.bind (proceeds_scanName ho) ?_
      intro text d hcd hadvances
      dsimp only
      split
      · exact proceeds_ok (.refl d) (hleaf _ d hadvances rfl rfl rfl)
      split
      · exact proceeds_ok (.refl d) (hleaf _ d hadvances rfl rfl rfl)
      split
      · exact proceeds_ok (.refl d) (hleaf _ d hadvances rfl rfl rfl)
      split
      · next hparen =>
        have hopen := advances_past (by simp) (List.isPrefixOf_iff_prefix.1 hparen)
        have hlt := hadvances.length_lt
        have hlt' := hopen.length_lt
        have hstart := hcd.trans hopen.reaches
        have hargs := h.sequence '(' ')' c _ ho hstart (by omega)
        refine Proceeds.bind (hargs.since hopen.reaches) ?_
        intro args e hde hread
        obtain ⟨_, halong, hsound⟩ := hread
        exact proceeds_ok (.refl e) ⟨hadvances.trans hde, rfl,
          sound_of_along ho hstart rfl halong rfl hsound⟩
      · exact proceeds_ok (.refl d) (hleaf _ d hadvances rfl rfl rfl)
    · rw [if_neg (by simpa using hname)]
      exact proceeds_fail (by simp) ho

theorem ProceedsValues.sequence_succ {n : Nat} (h : ProceedsValues o n) (opening closing : Char)
    {start : Cursor} (ho : o.Reaches start) (hstart : start.Reaches c)
    (hn : 2 * c.rest.length + 2 ≤ n + 1) :
    Proceeds o c (fun vs d => c.Advances d ∧ Along c d (vs.map Value.span) ∧ ∀ v ∈ vs, v.Sound o)
      (Cursor.sequence (n + 1) opening closing start c) := by
  have hskip := c.reaches_skipBlanks
  have hle := hskip.length_le
  rw [Cursor.sequence]
  generalize c.skipBlanks = d at hskip hle ⊢
  dsimp only
  split
  · exact proceeds_failTo (by simp) ho (hstart.trans hskip)
  · next first rest hrest =>
    split
    · have hclose := hskip.advances (advances_of_cons hrest)
      exact proceeds_ok hclose.reaches ⟨hclose, .nil hclose.reaches, by simp⟩
    · refine Proceeds.since ?_ hskip
      refine Proceeds.bind (h.value d (ho.trans (hstart.trans hskip)) (by omega)) ?_
      intro item e hde hone
      obtain ⟨hadvances, hspan, hitem⟩ := hone
      have hnext := e.reaches_skipBlanks.trans (e.skipBlanks.reaches_eat ',')
      have hlt := (hadvances.trans hnext).length_lt
      have hmore :=
        h.sequence opening closing start _ ho (hstart.trans (hskip.trans (hde.trans hnext))) (by omega)
      refine Proceeds.bind (hmore.since hnext) ?_
      intro items f _ hrest
      obtain ⟨hlast, halong, hitems⟩ := hrest
      refine proceeds_ok (.refl f) ⟨?_, ?_, List.forall_mem_cons.2 ⟨hitem, hitems⟩⟩
      · exact hskip.advances (hadvances.trans (hnext.trans hlast.reaches))
      · rw [List.map_cons, hspan]
        exact .cons hskip hadvances (halong.since hnext)

theorem ProceedsValues.members_succ {n : Nat} (h : ProceedsValues o n) {start : Cursor}
    (ho : o.Reaches start) (hstart : start.Reaches c) (hn : 2 * c.rest.length + 2 ≤ n + 1) :
    Proceeds o c (fun ms d => c.Advances d ∧ Along c d ((ms.map (·.2)).map Value.span) ∧
      ∀ v ∈ ms.map (·.2), v.Sound o) (Cursor.members (n + 1) start c) := by
  have hskip := c.reaches_skipBlanks
  have hle := hskip.length_le
  rw [Cursor.members]
  generalize c.skipBlanks = d at hskip hle ⊢
  dsimp only
  split
  · exact proceeds_failTo (by simp) ho (hstart.trans hskip)
  · next rest hrest =>
    have hclose := hskip.advances (advances_of_cons hrest)
    exact proceeds_ok hclose.reaches ⟨hclose, .nil hclose.reaches, by simp⟩
  · next first rest hbrace hrest =>
    have hd := ho.trans (hstart.trans hskip)
    refine Proceeds.since ?_ hskip
    refine Proceeds.bind (proceeds_scanKey hd) ?_
    intro key e hde hkey
    have hblanks := e.reaches_skipBlanks
    dsimp only
    split
    · next hcolon =>
      have hpast := advances_past (by simp) (List.isPrefixOf_iff_prefix.1 hcolon)
      have hfront := hblanks.trans (hpast.reaches.trans (reaches_skipBlanks _))
      have hfar := hde.trans hfront
      have hlt := hfar.length_le
      refine Proceeds.bind ((h.value _ (hd.trans hfar) (by omega)).since hfront) ?_
      intro item f hef hone
      obtain ⟨hadvances, hspan, hitem⟩ := hone
      have hnext := f.reaches_skipBlanks.trans (f.skipBlanks.reaches_eat ',')
      have hlt := (hfar.advances (hadvances.trans hnext)).length_lt
      have hmore :=
        h.members start _ ho (hstart.trans (hskip.trans (hfar.trans (hadvances.reaches.trans hnext))))
          (by omega)
      refine Proceeds.bind (hmore.since hnext) ?_
      intro entries g _ hrest
      obtain ⟨hlast, halong, hentries⟩ := hrest
      refine proceeds_ok (.refl g) ⟨?_, ?_, List.forall_mem_cons.2 ⟨hitem, hentries⟩⟩
      · exact (hskip.trans hfar).advances (hadvances.trans (hnext.trans hlast.reaches))
      · rw [List.map_cons, List.map_cons, hspan]
        exact .cons (hskip.trans hfar) hadvances (halong.since hnext)
    · exact proceeds_fail (by simp) (hd.trans (hde.trans hblanks))

theorem proceedsValues (o : Cursor) (n : Nat) : ProceedsValues o n := by
  induction n with
  | zero =>
    exact ⟨fun _ _ h => absurd h (by simp), fun _ _ _ _ _ _ h => absurd h (by simp), fun _ _ _ _ h =>
      absurd h (by simp)⟩
  | succ n ih =>
    refine ⟨?_, ?_, ?_⟩
    · intro c ho hn
      exact ih.value_succ ho hn
    · intro opening closing start c ho hstart hn
      exact ih.sequence_succ opening closing ho hstart hn
    · intro start c ho hstart hn
      exact ih.members_succ ho hstart hn

theorem proceeds_scanValue (ho : o.Reaches c) :
    Proceeds o c (fun v d => c.Advances d ∧ v.span = c.spanTo d ∧ v.Sound o) c.scanValue :=
  (proceedsValues o _).value c ho (Nat.le_succ _)

end Cursor

end Worldbook
