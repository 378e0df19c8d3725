import Worldbook.Proofs.Nodes

/-!
# Shapes of written statements

Each kind of line that is written is read as one shape of statement: keyword lines with or without
a comparison, relationship lines, changes, origins and choices.
-/

namespace Worldbook

/-! ## Words of one value -/

/-- The word is read as one value with the property. -/
def Word (w : String) (P : Value → Prop) : Prop :=
  Reads w.toList fun v => v.isWord "in" = false ∧ v.overflows = [] ∧ P v

def Value.Names (name : String) (v : Value) : Prop := ∃ span, v = .name name span

abbrev Meets (Ps : List (Value → Prop)) (vs : List Value) : Prop := List.Forall₂ (fun P v => P v) Ps vs

/-- The piece is one value with the property, not the word `in`, with its numbers in range. -/
def Cue.word (P : Value → Prop) : Cue := .value fun v => v.isWord "in" = false ∧ v.overflows = [] ∧ P v

theorem Word.imp {w : String} {P Q : Value → Prop} (h : Word w P) (hpq : ∀ v, P v → Q v) : Word w Q :=
  Reads.imp h fun v hv => ⟨hv.1, hv.2.1, hpq v hv.2.2⟩

def specialWords : List String := ["do", "end", "true", "false", "null"]

theorem word_name {w : String} (hn : isName w.toList = true) (hs : w ∉ specialWords) (hin : w ≠ "in") :
    Word w (·.Names w) := by
  simp only [specialWords, List.mem_cons, List.not_mem_nil, or_false, not_or] at hs
  refine (reads_ofWord hn hs.1 hs.2.1).imp ?_
  rintro _ ⟨span, rfl⟩
  rw [Value.ofWord, if_neg hs.2.2.1, if_neg hs.2.2.2.1, if_neg hs.2.2.2.2]
  refine ⟨?_, rfl, span, rfl⟩
  simpa [Value.isWord, Value.name?] using hin

theorem Value.Spells.notIn {v : Value} {j : Json} (h : v.Spells j) : v.isWord "in" = false := by
  rw [Bool.eq_false_iff]
  intro hw
  exact absurd (h.word "in" hw) (by decide)

theorem word_value {x : Json} (hx : x.isValid = true) : Word (Written.value x) (·.Spells x) :=
  (reads_value hx).imp fun _ h => ⟨h.notIn, h.overflows, h⟩

theorem word_string (s : String) : Word (Written.string s) (·.Spells (.str s)) :=
  word_value (x := .str s) rfl

theorem word_number {n : Number} (hn : Json.isHeld (.num n) = true) :
    Word (Written.number n) (·.Spells (.num n)) :=
  word_value (x := .num n) hn

theorem word_referenceValue {x : Json} (hx : x.isValid = true) :
    Word (Written.referenceValue x) (·.Refers x) :=
  (reads_referenceValue hx).imp fun _ h => ⟨h.notIn, h.overflows, h⟩

theorem word_reference (s : String) : Word (Written.reference s) (·.Refers (.str s)) :=
  word_referenceValue (x := .str s) rfl

theorem word_fieldValue (key : String) {x : Json} (hx : x.isValid = true) :
    Word (Written.fieldValue key x) (·.SpellsUnder key x) :=
  (reads_fieldValue key hx).imp fun _ h => ⟨h.notIn, h.overflows, h⟩

def Value.Quotes (text : String) (v : Value) : Prop := ∃ span, v = .str text span

theorem word_quote (s : String) : Word (Written.quote s) (·.Quotes s) := by
  refine (reads_quote s).imp ?_
  rintro _ ⟨span, rfl⟩
  exact ⟨rfl, rfl, span, rfl⟩

theorem word_plainKey {key : String} (h : Written.isPlainKey key = true) : Word key (·.Names key) := by
  have hr := isReserved_of_isPlainKey h
  refine word_name (isName_of_isPlainKey h) ?_ (ne_of_isReserved hr (by decide))
  intro hs
  have : ∀ w ∈ specialWords, isReserved w = true := by decide
  exact absurd (this key hs) (by simp [hr])

theorem isName_of_isBinding {cs : List Char} (h : isBinding cs = true) : isName cs = true := by
  unfold isBinding at h
  split at h
  · exact isPlainName_of_isPlainWord h
  · cases h

theorem hasSigil_of_isBinding {s : String} (h : isBinding s.toList = true) :
    Scope.hasSigil s = true := by
  unfold isBinding at h
  split at h
  · next heq => simp [Scope.hasSigil, heq]
  · cases h

theorem word_binding {s : String} (h : isBinding s.toList = true) : Word s (·.Names s) := by
  have hr := isReserved_of_hasSigil (hasSigil_of_isBinding h)
  refine word_name (isName_of_isBinding h) ?_ (ne_of_isReserved hr (by decide))
  intro hs
  have : ∀ w ∈ specialWords, isReserved w = true := by decide
  exact absurd (this s hs) (by simp [hr])

theorem spelledAll_words {ws : List String} {Ps : List (Value → Prop)} (h : List.Forall₂ Word ws Ps) :
    SpelledAll ws (Ps.map Cue.word) := by
  induction h with
  | nil => exact .nil
  | cons hw _ ih => exact .cons (spelled_value hw) ih

theorem values_of_cues {Ps : List (Value → Prop)} {ps : List Piece}
    (h : List.Forall₂ (fun cue p => cue p) (Ps.map Cue.word) ps) :
    ∃ vs, ps = vs.map Piece.value ∧ Meets Ps vs ∧
      ∀ v ∈ vs, v.isWord "in" = false ∧ v.overflows = [] := by
  induction Ps generalizing ps with
  | nil => cases h; exact ⟨[], rfl, .nil, nofun⟩
  | cons P Ps ih =>
    obtain ⟨p, ps, hp, hps, rfl⟩ := List.forall₂_cons_left_iff.1 h
    obtain ⟨vs, rfl, hvs, hclean⟩ := ih hps
    cases p with
    | op o span => cases hp
    | value v =>
      refine ⟨v :: vs, rfl, .cons hp.2.2 hvs, fun x hx => ?_⟩
      rcases List.mem_cons.1 hx with rfl | hx
      · exact ⟨hp.1, hp.2.1⟩
      · exact hclean x hx

theorem Value.overflowsAll_eq_nil {vs : List Value} (h : ∀ v ∈ vs, v.overflows = []) :
    overflowsAll vs = [] := by
  induction vs with
  | nil => rfl
  | cons v vs ih =>
    rw [overflowsAll, h v (List.mem_cons_self ..), ih fun x hx => h x (List.mem_cons_of_mem _ hx),
      List.nil_append]

theorem Piece.valuesOr_map (cause : String → SyntaxError.Cause) (vs : List Value) :
    Piece.valuesOr cause (vs.map Piece.value) = .ok vs := by
  induction vs with
  | nil => rfl
  | cons v vs ih => simp only [List.map_cons, valuesOr, ih, bind, Except.bind, pure, Except.pure]

theorem Piece.values_map (vs : List Value) : Piece.values (vs.map Piece.value) = .ok vs :=
  valuesOr_map _ vs

theorem Piece.any_isArrow_map (vs : List Value) : (vs.map Piece.value).any Piece.isArrow = false := by
  simp [List.any_eq_false, isArrow]

theorem Piece.any_isComparator_map (vs : List Value) :
    (vs.map Piece.value).any Piece.isComparator = false := by
  simp [List.any_eq_false, isComparator]

theorem forall₂_optional {w : Option String} {P : Value → Prop} (h : ∀ x ∈ w, Word x P) :
    List.Forall₂ Word w.toList (w.map fun _ => P).toList := by
  cases w with
  | none => exact .nil
  | some x => exact .cons (h x rfl) .nil

/-- The value of an optional word, and the values behind it. -/
theorem optional_of_forall₂ {w : Option String} {P : Value → Prop} {Rs : List (Value → Prop)}
    {vs : List Value} (h : Meets ((w.map fun _ => P).toList ++ Rs) vs) :
    ∃ v us, Option.Rel (fun _ v => P v) w v ∧ Meets Rs us ∧ vs = v.toList ++ us := by
  cases w with
  | none => exact ⟨none, vs, .none, h, rfl⟩
  | some x =>
    rcases h with _ | ⟨hv, hus⟩
    exact ⟨some _, _, .some hv, hus, rfl⟩

/-! ## Keyword lines -/

abbrev Comparison := Comparator × Number × Option Number

/-- A line with a leading word, its arguments and its comparison. -/
inductive Statement.IsLine (k : String) : List Value → Option Comparison → Statement → Prop
  | bare (span span' : Span) : IsLine k [] none (.bare (.name k span) span')
  | field (labels : List Value) (value : Value) (span : Span) :
    IsLine k (labels ++ [value]) none (.field k false labels value span)
  | predicate (args : List Value) (comparator : Comparator) (n : Number) (upper : Option Number)
      (span : Span) :
    IsLine k args (some (comparator, n, upper)) (.predicate k args comparator n upper span)

namespace Statement.IsLine

variable {k : String} {vs : List Value} {b : Option Comparison} {s : Statement}

theorem keyword? (h : s.IsLine k vs b) : s.keyword? = some k := by cases h <;> rfl

theorem isQuoted (h : s.IsLine k vs b) : s.isQuoted = false := by cases h <;> rfl

theorem plainKeyword? (h : s.IsLine k vs b) : s.plainKeyword? = some k := by cases h <;> rfl

theorem keyword (h : s.IsLine k vs b) : s.keyword = k := by cases h <;> rfl

theorem positional (h : s.IsLine k vs b) : s.positional = vs := by cases h <;> rfl

theorem comparison? (h : s.IsLine k vs b) : s.comparison? = b := by cases h <;> rfl

theorem isBlock (h : s.IsLine k vs b) : s.isBlock = false := by cases h <;> rfl

theorem args (h : s.IsLine k vs b) : Args.of s = ⟨k, s.span, vs⟩ := by
  rw [Args.of, h.keyword, h.positional]

end Statement.IsLine

inductive Compared : List String → Option Comparison → Prop
  | none : Compared [] none
  | one (comparator : Comparator) {n : Number} (hn : Json.isHeld (.num n) = true) :
    Compared [comparator.text, Written.number n] (some (comparator, n.reread, Option.none))
  | range {low high : Number} (hl : Json.isHeld (.num low) = true)
      (hh : Json.isHeld (.num high) = true) :
    Compared ["==", Written.number low ++ ",",
      Written.number high] (some (.eq, low.reread, some high.reread))

theorem Value.Spells.num {v : Value} {n : Number} (h : v.Spells (.num n)) :
    ∃ span, v = .num n.reread span := by
  have hl := h.literal
  cases v with
  | num m span =>
    simp only [Value.literal, Json.ofNumber, Json.reread] at hl
    split at hl
    · exact ⟨span, by rw [Json.num.inj hl]⟩
    · cases hl
  | _ => cases hl

theorem spelled_comparator (c : Comparator) : Spelled c.text [.op (.compare c)] := by
  cases c
  all_goals
    refine spelled_op rfl (by decide) fun tail ht => ?_
    obtain ⟨rest, rfl | rfl⟩ := ht <;> rfl

namespace Statement

/-- A word without a shape of its own leads a keyed line. -/
theorem ofLine_keyed {k : String} {span line : Span} {args : List Piece}
    (hk : k ∉ ["mutate", "from", "in"]) (ha : args.any Piece.isArrow = false) :
    ofLine (.value (.name k span) :: args) line = ofKeyed k false (.name k span) args line := by
  simp only [List.mem_cons, List.not_mem_nil, or_false, not_or] at hk
  simp [ofLine, hk.1, hk.2.1, hk.2.2, ha]

theorem ofKeyed_values {k : String} {quoted : Bool} {key : Value} {vs : List Value} {line : Span}
    (hin : ∀ v ∈ vs, v.isWord "in" = false) (hne : vs ≠ []) :
    ofKeyed k quoted key (vs.map .value) line =
      .ok (.field k quoted vs.dropLast (vs.getLast hne) line) := by
  obtain ⟨v, vs, rfl⟩ := List.exists_cons_of_ne_nil hne
  have hany := Piece.any_isComparator_map (v :: vs)
  have hvals := Piece.values_map (v :: vs)
  rw [List.map_cons] at hany hvals ⊢
  simp only [ofKeyed, hin v (List.mem_cons_self ..), Bool.false_eq_true, if_false, hany, hvals,
    bind, Except.bind, List.getLast?_eq_some_getLast hne, pure, Except.pure]

theorem ofPredicate_values (k : String) (line : Span) (vs : List Value) (rest : List Piece) :
    ∀ args : List Value, ofPredicate k line args (vs.map .value ++ rest) =
      ofPredicate k line (args ++ vs) rest := by
  induction vs with
  | nil => simp
  | cons v vs ih => intro args; simp [ofPredicate, ih]

theorem ofKeyed_predicate {k : String} {quoted : Bool} {key : Value} {vs : List Value}
    {line span : Span} {c : Comparator} {rest : List Piece} (hin : ∀ v ∈ vs, v.isWord "in" = false) :
    ofKeyed k quoted key (vs.map .value ++ .op (.compare c) span :: rest) line =
      ofPredicate k line vs (.op (.compare c) span :: rest) := by
  have hpred := ofPredicate_values k line vs (.op (.compare c) span :: rest) []
  rw [List.nil_append] at hpred
  rw [← hpred]
  cases vs with
  | nil => simp [ofKeyed, Piece.isComparator]
  | cons v vs => simp [ofKeyed, Piece.isComparator, hin v (List.mem_cons_self ..)]

end Statement

theorem forall₂_append_left {α β : Type} {R : α → β → Prop} {xs ys : List α} {zs : List β}
    (h : List.Forall₂ R (xs ++ ys) zs) : ∃ as bs, List.Forall₂ R xs as ∧ List.Forall₂ R ys bs ∧
    zs = as ++ bs := by
  induction xs generalizing zs with
  | nil => exact ⟨[], zs, .nil, h, rfl⟩
  | cons x xs ih =>
    obtain ⟨z, zs, hz, hzs, rfl⟩ := List.forall₂_cons_left_iff.1 h
    obtain ⟨as, bs, ha, hb, rfl⟩ := ih hzs
    exact ⟨z :: as, bs, .cons hz ha, hb, rfl⟩

theorem Cue.of_op {o : Operator} {p : Piece} (h : Cue.op o p) : ∃ span, p = .op o span := by
  cases p with
  | op o' span => cases h; exact ⟨span, rfl⟩
  | value v => cases h

theorem Cue.of_num {n : Number} {p : Piece} (h : Cue.word (·.Spells (.num n)) p) :
    ∃ span, p = .value (.num n.reread span) ∧ n.reread.isFinite = true := by
  cases p with
  | op o span => cases h
  | value v =>
    obtain ⟨span, rfl⟩ := Value.Spells.num h.2.2
    refine ⟨span, rfl, ?_⟩
    have := h.2.1
    rw [Value.overflows] at this
    split at this
    · assumption
    · cases this

/-- The pieces of a keyword and its arguments, with more behind them. -/
theorem keyword_pieces {k : String} {Ps : List (Value → Prop)} {more : List Cue} {ps : List Piece}
    (h : List.Forall₂ (fun cue p => cue p) (((·.Names k) :: Ps).map Cue.word ++ more) ps) :
    ∃ span vs qs, ps = .value (.name k span) :: (vs.map .value ++ qs) ∧ Meets Ps vs ∧
      (∀ v ∈ vs, v.isWord "in" = false) ∧ Value.overflowsAll vs = [] ∧
      List.Forall₂ (fun cue p => cue p) more qs := by
  obtain ⟨ps, qs, hps, hqs, rfl⟩ := forall₂_append_left h
  obtain ⟨vs, rfl, hvs, hclean⟩ := values_of_cues hps
  cases hvs with
  | @cons _ v _ vs hv hvs =>
    obtain ⟨span, rfl⟩ := hv
    exact ⟨span, vs, qs, rfl, hvs, fun v hv => (hclean v (List.mem_cons_of_mem _ hv)).1,
      Value.overflowsAll_eq_nil fun v hv => (hclean v (List.mem_cons_of_mem _ hv)).2, hqs⟩

theorem Node.parses_compared {k : String} {ws bs : List String} {Ps : List (Value → Prop)}
    {b : Option Comparison} (hn : isName k.toList = true) (hs : k ∉ specialWords)
    (hk : k ∉ ["mutate", "from", "in"]) (hws : List.Forall₂ Word ws Ps) (hb : Compared bs b) :
    (Node.line (k :: (ws ++ bs))).Parses fun s => ∃ vs, s.IsLine k vs b ∧ Meets Ps vs := by
  have hword := word_name hn hs (fun h => hk (by simp [h]))
  have hspelled := spelledAll_words (List.Forall₂.cons hword hws)
  rw [← List.cons_append]
  cases hb with
  | none =>
    refine parses_line (opens_of_reads hword) (hspelled.append .nil) fun ps line hps => ?_
    obtain ⟨span, vs, qs, rfl, hvs, hin, hover, hqs⟩ := keyword_pieces hps
    cases hqs
    rw [List.append_nil, Statement.ofLine_keyed hk (Piece.any_isArrow_map vs)]
    -- Without a comparison the last word is the value of a field, and the word alone is a statement
    -- of its own.
    by_cases hne : vs = []
    · subst hne
      exact ⟨_, rfl, rfl, [], .bare span line, hvs⟩
    · refine ⟨_, Statement.ofKeyed_values hin hne, ?_, vs, ?_, hvs⟩
      · rw [Statement.overflows, List.dropLast_append_getLast, hover]
      · have := Statement.IsLine.field (k := k) vs.dropLast (vs.getLast hne) line
        rwa [List.dropLast_append_getLast] at this
  | @one c n hheld =>
    refine parses_line (opens_of_reads hword) (hspelled.append
      (.cons (spelled_comparator c) (.cons (spelled_value (word_number hheld)) .nil)))
      fun ps line hps => ?_
    obtain ⟨span, vs, qs, rfl, hvs, hin, hover, hqs⟩ := keyword_pieces hps
    rcases hqs with _ | ⟨hp, _ | ⟨hq, _ | _⟩⟩
    obtain ⟨s₁, rfl⟩ := Cue.of_op hp
    obtain ⟨s₂, rfl, hfin⟩ := Cue.of_num hq
    rw [Statement.ofLine_keyed hk (by simp [Piece.isArrow]),
      Statement.ofKeyed_predicate hin]
    exact ⟨_, rfl, by simp [Statement.overflows, hfin, hover], vs, .predicate .., hvs⟩
  | @range low high hl hh =>
    refine parses_line (opens_of_reads hword) (hspelled.append
      (.cons (spelled_comparator .eq) (.cons (spelled_comma (word_number hl))
        (.cons (spelled_value (word_number hh)) .nil)))) fun ps line hps => ?_
    obtain ⟨span, vs, qs, rfl, hvs, hin, hover, hqs⟩ := keyword_pieces hps
    rcases hqs with _ | ⟨hp, _ | ⟨hq, _ | ⟨hr, _ | ⟨ht, _ | _⟩⟩⟩⟩
    obtain ⟨s₁, rfl⟩ := Cue.of_op hp
    obtain ⟨s₂, rfl, hfin⟩ := Cue.of_num hq
    obtain ⟨s₃, rfl⟩ := Cue.of_op hr
    obtain ⟨s₄, rfl, hfin'⟩ := Cue.of_num ht
    rw [Statement.ofLine_keyed hk (by simp [Piece.isArrow]),
      Statement.ofKeyed_predicate hin]
    exact ⟨_, rfl, by simp [Statement.overflows, hfin, hfin', hover], vs, .predicate .., hvs⟩

theorem Node.parses_words {k : String} {ws : List String} {Ps : List (Value → Prop)}
    (hn : isName k.toList = true) (hs : k ∉ specialWords) (hk : k ∉ ["mutate", "from", "in"])
    (hws : List.Forall₂ Word ws Ps) :
    (Node.line (k :: ws)).Parses fun s => ∃ vs, s.IsLine k vs none ∧ Meets Ps vs := by
  have := parses_compared hn hs hk hws .none
  rwa [List.append_nil] at this

/-- A line with a quoted key and at least one value is a plain field. -/
theorem Node.parses_quoted (key : String) {ws : List String} {Ps : List (Value → Prop)}
    (hws : List.Forall₂ Word ws Ps) (hne : ws ≠ []) :
    (Node.line (Written.quote key :: ws)).Parses fun s =>
      ∃ labels value span, s = .field key true labels value span ∧
        Meets Ps (labels ++ [value]) := by
  have hword := word_quote key
  refine parses_line (opens_of_reads hword) (spelledAll_words (.cons hword hws)) fun ps line hps => ?_
  obtain ⟨vs, rfl, hvs, hclean⟩ := values_of_cues hps
  cases hvs with
  | @cons _ v _ vs hv hvs =>
    obtain ⟨span, rfl⟩ := hv
    have hvne : vs ≠ [] := by
      rintro rfl
      cases hvs
      cases hws
      exact hne rfl
    have hin := fun v hv => (hclean v (List.mem_cons_of_mem _ hv)).1
    have hline : Statement.ofLine ((Value.str key span :: vs).map .value) line =
        Statement.ofKeyed key true (.str key span) (vs.map .value) line := by
      cases vs with
      | nil => exact absurd rfl hvne
      | cons v vs => rfl
    refine ⟨_, hline.trans (Statement.ofKeyed_values hin hvne), ?_, vs.dropLast, vs.getLast hvne,
      line, rfl, ?_⟩
    · rw [Statement.overflows, List.dropLast_append_getLast]
      exact Value.overflowsAll_eq_nil fun v hv => (hclean v (List.mem_cons_of_mem _ hv)).2
    · rwa [List.dropLast_append_getLast]

/-! ## Blocks -/

def lineWords : List String := ["in", "from", "mutate", "rel", "relationship"]

theorem Node.parses_named_block {k : String} {ws : List String} {Ps : List (Value → Prop)}
    {body : List Node} {P : List Statement → Prop} (hn : isName k.toList = true) (hs : k ∉ specialWords)
    (hk : k ∉ lineWords) (hws : List.Forall₂ Word ws Ps) (hbody : ParsesAll body P) :
    (Node.block (k :: ws) body).Parses fun s =>
      ∃ labels ss span, s = .block k false labels ss span ∧ Meets Ps labels ∧ P ss := by
  have hword := word_name hn hs (fun h => hk (by simp [h, lineWords]))
  refine parses_block (opens_of_reads hword) (spelledAll_words (.cons hword hws)) hbody
    fun ps header hps => ?_
  rw [← List.append_nil (List.map Cue.word _)] at hps
  obtain ⟨span, vs, qs, rfl, hvs, -, hover, hqs⟩ := keyword_pieces hps
  cases hqs
  refine ⟨k, false, vs, ?_, hover, fun ss span hss => ⟨vs, ss, span, rfl, hvs, hss⟩⟩
  have hc : ["in", "from", "mutate", "rel", "relationship"].contains k = false := by
    simpa [lineWords] using hk
  rw [List.append_nil]
  simp only [Statement.blockHeader, hc, Bool.false_eq_true, if_false, List.drop_succ_cons,
    List.drop_zero, Piece.valuesOr_map, bind, Except.bind, pure, Except.pure]

theorem Node.parses_quoted_block (key : String) {body : List Node} {P : List Statement → Prop}
    (hbody : ParsesAll body P) : (Node.block [Written.quote key] body).Parses fun s =>
      ∃ ss span, s = .block key true [] ss span ∧ P ss := by
  have hword := word_quote key
  refine parses_block (opens_of_reads hword) (spelledAll_words (.cons hword .nil)) hbody
    fun ps header hps => ?_
  obtain ⟨vs, rfl, hvs, -⟩ := values_of_cues hps
  rcases hvs with _ | ⟨hv, _ | _⟩
  obtain ⟨span, rfl⟩ := hv
  exact ⟨key, true, [], rfl, rfl, fun ss span hss => ⟨ss, span, rfl, hss⟩⟩

/-! ## Lines with a shape of their own -/

theorem spelled_arrow : Spelled "->" [.op .arrow] :=
  spelled_op rfl (by decide) fun tail _ => rfl

theorem spelled_change (c : Change) : Spelled c.text [.op (.change c)] := by
  cases c <;> exact spelled_op rfl (by decide) fun tail _ => rfl

theorem arrow_pieces {k : String} {Ps Rs : List (Value → Prop)} {ps : List Piece}
    (h : List.Forall₂ (fun cue p => cue p) (((·.Names k) :: Ps).map Cue.word ++
      ([.op .arrow] ++ Rs.map Cue.word)) ps) :
    ∃ span vs span' us, ps = .value (.name k span) ::
      (vs.map .value ++ .op .arrow span' :: us.map .value) ∧
      Meets Ps vs ∧ Meets Rs us ∧
      Value.overflowsAll vs = [] ∧ Value.overflowsAll us = [] := by
  obtain ⟨span, vs, qs, rfl, hvs, -, hover, hqs⟩ := keyword_pieces h
  rcases hqs with _ | ⟨hp, hqs⟩
  obtain ⟨span', rfl⟩ := Cue.of_op hp
  obtain ⟨us, rfl, hus, hclean⟩ := values_of_cues hqs
  exact ⟨span, vs, span', us, rfl, hvs, hus, hover, Value.overflowsAll_eq_nil fun v hv =>
    (hclean v hv).2⟩

theorem Piece.span_arrow (vs : List Value) (span : Span) (rest : List Piece) :
    (vs.map Piece.value ++ Piece.op .arrow span :: rest).span (fun p => !p.isArrow) =
      (vs.map Piece.value, Piece.op .arrow span :: rest) := by
  rw [List.span_eq_takeWhile_dropWhile]
  induction vs with
  | nil => rfl
  | cons v vs ih =>
    rw [Prod.mk.injEq] at ih ⊢
    exact ⟨congrArg (Piece.value v :: ·) ih.1, ih.2⟩

/-- A relationship line, with or without a label in front of the kind. -/
theorem Node.parses_rel {k : String} (hn : isName k.toList = true) (hs : k ∉ specialWords)
    (hrel : k ∈ relWords) {label : Option String} {kind source target : String} {ws : List String}
    {L K S T : Value → Prop} {Ps : List (Value → Prop)} (hl : ∀ w ∈ label, Word w L)
    (hkind : Word kind K) (hsource : Word source S) (ht : Word target T)
    (hws : List.Forall₂ Word ws Ps) :
    (Node.line (k :: (label.toList ++ [kind, source]) ++ "->" :: target :: ws)).Parses fun s =>
      ∃ label' kind source target vs span, s = .rel k label' kind source target vs span ∧
        Option.Rel (fun _ v => L v) label label' ∧ K kind ∧ S source ∧ T target ∧
        Meets Ps vs := by
  have hk : ∀ w ∈ ["mutate", "from", "in"], k ≠ w := by
    have : ∀ w ∈ relWords, w ∉ ["mutate", "from", "in"] := by decide
    exact fun w hw h => this k hrel (h ▸ hw)
  have hword := word_name hn hs (hk "in" (by decide))
  have hbefore : List.Forall₂ Word (k :: (label.toList ++ [kind, source]))
      ((·.Names k) :: ((label.map fun _ => L).toList ++ [K, S])) :=
    .cons hword (List.rel_append (forall₂_optional hl) (.cons hkind (.cons hsource .nil)))
  refine parses_line (opens_of_reads hword) ((spelledAll_words hbefore).append
    (.cons spelled_arrow (spelledAll_words (.cons ht hws)))) fun ps line hps => ?_
  obtain ⟨span, vs, span', us, rfl, hvs, hus, hover, hover'⟩ := arrow_pieces hps
  have hofLine : Statement.ofLine (.value (.name k span) ::
      (vs.map Piece.value ++ Piece.op .arrow span' :: us.map Piece.value)) line =
      Statement.ofRel k (vs.map Piece.value ++ Piece.op .arrow span' :: us.map Piece.value) line := by
    simp [Statement.ofLine, hk "mutate" (by decide), hk "from" (by decide), hk "in" (by decide), hrel,
      Piece.isArrow]
  obtain ⟨label', rest, hL, hrest, rfl⟩ := optional_of_forall₂ hvs
  rcases hrest with _ | ⟨hK, _ | ⟨hS, _ | _⟩⟩
  rcases hus with _ | ⟨hT, hvalues⟩
  refine ⟨_, hofLine.trans ?_, ?_, label', _, _, _, _, line, rfl, hL, hK, hS, hT, hvalues⟩
  · rw [Statement.ofRel, Piece.span_arrow]
    cases label' <;> simp only [Option.toList_none, Option.toList_some, List.nil_append,
      List.cons_append, Piece.values_map, bind, Except.bind, List.drop_succ_cons, List.drop_zero,
      pure, Except.pure]
  · cases label' <;> simp_all [Statement.overflows, Value.overflowsAll]

theorem Cue.of_value {P : Value → Prop} {p : Piece} (h : Cue.value P p) : ∃ v, p = .value v ∧ P v := by
  cases p with
  | op o span => cases h
  | value v => exact ⟨v, rfl, h⟩

theorem Node.parses_mutate {target id : String} {P : Value → Prop} (ht : Word target (·.Names target))
    (hid : Word id P) (change : Change) {n : Number} (hn : Json.isHeld (.num n) = true) :
    (Node.line ["mutate", target, id, change.text, Written.number n]).Parses fun s =>
      ∃ v span, s = .mutate target v change n.reread span ∧ P v := by
  have hword : Word "mutate" (·.Names "mutate") := word_name (by decide) (by decide) (by decide)
  refine parses_line (opens_of_reads hword) (.cons (spelled_value hword) (.cons (spelled_value ht)
    (.cons (spelled_value hid)
      (.cons (spelled_change change) (.cons (spelled_value (word_number hn)) .nil)))))
    fun ps line hps => ?_
  rcases hps with _ | ⟨hk, _ | ⟨ht, _ | ⟨hid, _ | ⟨hop, _ | ⟨hnum, _ | _⟩⟩⟩⟩⟩
  obtain ⟨_, rfl⟩ := Cue.of_op hop
  obtain ⟨_, rfl, hfin⟩ := Cue.of_num hnum
  obtain ⟨_, rfl, -, -, _, rfl⟩ := Cue.of_value hk
  obtain ⟨_, rfl, -, -, _, rfl⟩ := Cue.of_value ht
  obtain ⟨v, rfl, -, hover, hv⟩ := Cue.of_value hid
  exact ⟨.mutate target v change n.reread line, rfl, by simp [Statement.overflows, hfin, hover], v,
    line, rfl, hv⟩

theorem Node.parses_from {source : String} {P : Value → Prop} (hsource : Word source P) :
    (Node.line ["from", source]).Parses fun s => ∃ v span, s = .origin v none span ∧ P v := by
  have hword : Word "from" (·.Names "from") := word_name (by decide) (by decide) (by decide)
  refine parses_line (opens_of_reads hword) (spelledAll_words (.cons hword (.cons hsource .nil)))
    fun ps line hps => ?_
  rcases hps with _ | ⟨hk, _ | ⟨hv, _ | _⟩⟩
  obtain ⟨_, rfl, -, -, _, rfl⟩ := Cue.of_value hk
  obtain ⟨v, rfl, -, hover, hv⟩ := Cue.of_value hv
  exact ⟨.origin v none line, rfl, by simp [Statement.overflows, Value.overflowsAll, hover], v,
    line, rfl, hv⟩

theorem Node.parses_from_via {source kind direction : String} {P K D : Value → Prop}
    (hsource : Word source P) (hkind : Word kind K) (hdirection : Word direction D) :
    (Node.line ["from", source, "via", kind, direction]).Parses fun s =>
      ∃ v k d span, s = .origin v (some (k, d)) span ∧ P v ∧ K k ∧ D d := by
  have hword : Word "from" (·.Names "from") := word_name (by decide) (by decide) (by decide)
  have hvia : Word "via" (·.Names "via") := word_name (by decide) (by decide) (by decide)
  refine parses_line (opens_of_reads hword)
    (spelledAll_words (.cons hword (.cons hsource (.cons hvia (.cons hkind
    (.cons hdirection .nil)))))) fun ps line hps => ?_
  rcases hps with _ | ⟨hk, _ | ⟨hv, _ | ⟨hvia, _ | ⟨hkind, _ | ⟨hdir, _ | _⟩⟩⟩⟩⟩
  obtain ⟨_, rfl, -, -, _, rfl⟩ := Cue.of_value hk
  obtain ⟨_, rfl, -, -, _, rfl⟩ := Cue.of_value hvia
  obtain ⟨v, rfl, -, ho₁, hv⟩ := Cue.of_value hv
  obtain ⟨k, rfl, -, ho₂, hkind⟩ := Cue.of_value hkind
  obtain ⟨d, rfl, -, ho₃, hdir⟩ := Cue.of_value hdir
  exact ⟨.origin v (some (k, d)) line,
    rfl, by simp [Statement.overflows, Value.overflowsAll, ho₁, ho₂, ho₃],
    v, k, d, line, rfl, hv, hkind, hdir⟩

theorem Node.parses_in {w : String} {P : Value → Prop} (hw : Word w P)
    (harr : ∀ v, P v → ∀ items span, v ≠ .array items span) :
    (Node.line ["in", w]).Parses fun s => ∃ v span, s = .within none [v] span ∧ P v := by
  have hword : Reads "in".toList fun v => ∃ span, v = .name "in" span :=
    (reads_ofWord (by decide) (by decide) (by decide)).imp fun _ ⟨span, hv⟩ => ⟨span, hv⟩
  refine parses_line (opens_of_reads hword)
    (.cons (spelled_value hword) (.cons (spelled_value hw) .nil)) fun ps line hps => ?_
  rcases hps with _ | ⟨hk, _ | ⟨hv, _ | _⟩⟩
  obtain ⟨_, rfl, _, rfl⟩ := Cue.of_value hk
  obtain ⟨v, rfl, -, hover, hv⟩ := Cue.of_value hv
  refine ⟨.within none [v] line, ?_, by simp [Statement.overflows, Value.overflowsAll, hover], v,
    line, rfl, hv⟩
  cases v with
  | array items span => exact absurd rfl (harr _ hv items span)
  | _ => rfl

/-! ## Short forms of items -/

theorem Piece.splitAtArrow_values (vs us : List Value) (span : Span) :
    Piece.splitAtArrow false (vs.map Piece.value ++ Piece.op .arrow span :: us.map Piece.value) =
      .ok (vs, us) := by
  have hseen : ∀ us : List Value, Piece.splitAtArrow true (us.map Piece.value) = .ok ([], us) := by
    intro us
    induction us with
    | nil => rfl
    | cons u us ih =>
      simp only [List.map_cons, splitAtArrow, ih, bind, Except.bind, pure, Except.pure, if_true]
  induction vs with
  | nil => simp [splitAtArrow, hseen]
  | cons v vs ih =>
    simp only [List.map_cons, List.cons_append, splitAtArrow, ih, bind, Except.bind, pure, Except.pure,
      Bool.false_eq_true, if_false]

theorem Statement.overflows_shorthand (key : String) (v : Value) :
    (shorthand key v).overflows = v.overflows := by
  simp [shorthand, overflows, Value.overflowsAll]

theorem Statement.overflows_asArray (v : Value) : (asArray v).overflows = v.overflows := by
  cases v <;> simp [asArray, Value.overflows, Value.overflowsAll]

/-- An axis on one line is a block of its fields. -/
theorem Node.parses_axis {id low high : String} {name description : Option String}
    {I N L H D : Value → Prop} (hid : Word id I) (hname : ∀ w ∈ name, Word w N) (hlow : Word low L)
    (hhigh : Word high H) (hdesc : ∀ w ∈ description, Word w D) :
    (Node.line ("axis" :: (id :: (name.toList ++ [low])) ++ "->" :: high :: description.toList)).Parses
    fun s =>
      ∃ i n l h d span, s = .block "axis" false [i] ((n.map (Statement.shorthand "name")).toList ++
        [Statement.shorthand "lowTag" l, Statement.shorthand "highTag" h] ++
        (d.map (Statement.shorthand "description")).toList) span ∧
        I i ∧ Option.Rel (fun _ v => N v) name n ∧ L l ∧ H h ∧
        Option.Rel (fun _ v => D v) description d := by
  have hword : Word "axis" (·.Names "axis") := word_name (by decide) (by decide) (by decide)
  have hbefore : List.Forall₂ Word ("axis" :: (id :: (name.toList ++ [low])))
      ((·.Names "axis") :: (I :: ((name.map fun _ => N).toList ++ [L]))) :=
    .cons hword (.cons hid (List.rel_append (forall₂_optional hname) (.cons hlow .nil)))
  refine parses_line (opens_of_reads hword) ((spelledAll_words hbefore).append (.cons spelled_arrow
    (spelledAll_words (.cons hhigh (forall₂_optional hdesc))))) fun ps line hps => ?_
  obtain ⟨span, vs, span', us, rfl, hvs, hus, hover, hover'⟩ := arrow_pieces hps
  have hofLine : Statement.ofLine (.value (.name "axis" span) ::
      (vs.map Piece.value ++ Piece.op .arrow span' :: us.map Piece.value)) line =
      Statement.ofAxisLine (vs.map Piece.value ++ Piece.op .arrow span' :: us.map Piece.value)
        line := by
    simp [Statement.ofLine, relWords, Piece.isArrow]
  rcases hvs with _ | ⟨hi, hvs⟩
  rcases hus with _ | ⟨hh, hus⟩
  obtain ⟨n, rest, hn, hrest, rfl⟩ := optional_of_forall₂ hvs
  rcases hrest with _ | ⟨hl, _ | _⟩
  rw [← List.append_nil (Option.toList _)] at hus
  obtain ⟨d, rest, hd, hrest, rfl⟩ := optional_of_forall₂ hus
  cases hrest
  rw [List.append_nil] at hofLine hover' ⊢
  refine ⟨_, hofLine.trans ?_, ?_, _, n, _, _, d, line, rfl, hi, hn, hl, hh, hd⟩
  · rw [Statement.ofAxisLine, Piece.splitAtArrow_values]
    cases n <;> cases d <;> rfl
  · cases n <;> cases d <;> simp_all [Value.overflowsAll, Statement.overflows, Statement.overflowsAll,
      Statement.overflows_shorthand]

/-- A kind of relationship on one line is a block of its fields. -/
theorem Node.parses_relationshipKind {kind source target : String} {description : Option String}
    {K S T D : Value → Prop} (hkind : Word kind K) (hsource : Word source S) (htarget : Word target T)
    (hdesc : ∀ w ∈ description, Word w D) :
    (Node.line ("relationship_kind" :: [kind, source] ++ "->" :: target :: description.toList)).Parses
    fun s =>
      ∃ k a b d span, s = .block "relationship_kind" false [k]
        ([Statement.shorthand "srcKinds" (Statement.asArray a),
          Statement.shorthand "dstKinds" (Statement.asArray b)] ++
        (d.map (Statement.shorthand "description")).toList) span ∧
        K k ∧ S a ∧ T b ∧ Option.Rel (fun _ v => D v) description d := by
  have hword : Word "relationship_kind" (·.Names "relationship_kind") :=
    word_name (by decide) (by decide) (by decide)
  have hbefore : List.Forall₂ Word ("relationship_kind" :: [kind, source])
      ((·.Names "relationship_kind") :: [K, S]) := .cons hword (.cons hkind (.cons hsource .nil))
  refine parses_line (opens_of_reads hword) ((spelledAll_words hbefore).append (.cons spelled_arrow
    (spelledAll_words (.cons htarget (forall₂_optional hdesc))))) fun ps line hps => ?_
  obtain ⟨span, vs, span', us, rfl, hvs, hus, hover, hover'⟩ := arrow_pieces hps
  have hofLine : Statement.ofLine (.value (.name "relationship_kind" span) ::
      (vs.map Piece.value ++ Piece.op .arrow span' :: us.map Piece.value)) line =
      Statement.ofRelationshipKindLine
        (vs.map Piece.value ++ Piece.op .arrow span' :: us.map Piece.value) line := by
    simp [Statement.ofLine, relWords, Piece.isArrow]
  rcases hvs with _ | ⟨hk, _ | ⟨hs, _ | _⟩⟩
  rcases hus with _ | ⟨ht, hus⟩
  rw [← List.append_nil (Option.toList _)] at hus
  obtain ⟨d, rest, hd, hrest, rfl⟩ := optional_of_forall₂ hus
  cases hrest
  rw [List.append_nil] at hofLine hover' ⊢
  refine ⟨_, hofLine.trans ?_, ?_, _, _, _, d, line, rfl, hk, hs, ht, hd⟩
  · rw [Statement.ofRelationshipKindLine, Piece.splitAtArrow_values]
    cases d <;> rfl
  · cases d <;> simp_all [Value.overflowsAll, Statement.overflows, Statement.overflowsAll,
      Statement.overflows_shorthand, Statement.overflows_asArray]

end Worldbook
