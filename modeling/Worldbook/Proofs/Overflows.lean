import Worldbook.Proofs.Blocks
import Worldbook.Proofs.Outcomes

/-!
# Numbers out of range

The scan for numbers out of range is apart from the compile: it walks the statements of a text and
does not ask which of them are compiled. It finds every number of the tree that no finite double
holds, once, and nothing else is reported with its message. So a text without errors has finite
numbers only, and a null in its records was written as one.
-/

namespace Worldbook

/-! ## The scan -/

def outOfRange (figures : List (Number × Span)) : List Span :=
  (figures.filter (!·.1.isFinite)).map (·.2)

theorem outOfRange_append (fs gs : List (Number × Span)) :
    outOfRange (fs ++ gs) = outOfRange fs ++ outOfRange gs := by
  simp [outOfRange]

namespace Value

theorem figures_eq (v : Value) :
    v.figures = (v.number?.map (·, v.span)).toList ++ v.parts.flatMap figures := by
  unfold figures
  rw [tree_eq, List.filterMap_cons, List.filterMap_flatMap]
  cases v.number? <;> rfl

mutual

theorem overflows_eq : ∀ v : Value, v.overflows = outOfRange v.figures
  | .num n s =>
    by cases h : n.isFinite <;> simp [overflows, figures, tree, number?, span, outOfRange, h]
  | .array items s => by
    rw [overflows, overflowsAll_eq items, figures_eq]
    rfl
  | .object members s => by
    rw [overflows, overflowsMembers_eq members, figures_eq]
    rfl
  | .call callee args s => by
    rw [overflows, overflowsAll_eq args, figures_eq]
    rfl
  | .str .. | .bool .. | .null .. | .name .. => rfl

theorem overflowsAll_eq : ∀ vs : List Value, overflowsAll vs = outOfRange (vs.flatMap figures)
  | [] => rfl
  | v :: vs =>
    by rw [overflowsAll, overflows_eq v, overflowsAll_eq vs, List.flatMap_cons, outOfRange_append]

theorem overflowsMembers_eq : ∀ ms : List (String × Value),
    overflowsMembers ms = outOfRange ((ms.map (·.2)).flatMap figures)
  | [] => rfl
  | (_, v) :: ms => by
    rw [overflowsMembers, overflows_eq v, overflowsMembers_eq ms, List.map_cons, List.flatMap_cons,
      outOfRange_append]

end

end Value

namespace Statement

/-- The numbers of a statement itself come first, then those in its values. -/
theorem outOfRange_figures (s : Statement) :
    outOfRange s.figures = (s.amounts.filter (!·.isFinite)).map (fun _ => s.span) ++
      Value.overflowsAll s.values := by
  rw [figures, outOfRange_append, ← Value.overflowsAll_eq]
  congr 1
  simp [outOfRange, List.filter_map, Function.comp_def]

theorem overflows_eq (s : Statement) : s.overflows = overflowsAll s.body ++ outOfRange s.figures := by
  rw [outOfRange_figures]
  cases s with
  | mutate target id op amount t =>
    cases h : amount.isFinite <;>
      simp [overflows, overflowsAll, body, amounts, values, span, Value.overflowsAll, h]
  | origin source via t => cases via <;> rfl
  | bare value t => exact (List.append_nil _).symm
  | _ => rfl

/-- A block is scanned from its body outwards. -/
theorem perm_of_body {s : Statement}
    (h : (overflowsAll s.body).Perm (outOfRange ((treeAll s.body).flatMap figures))) :
    s.overflows.Perm (outOfRange (s.tree.flatMap figures)) := by
  rw [overflows_eq, tree_eq, List.flatMap_cons, outOfRange_append]
  exact List.perm_append_comm.trans (h.append_left _)

mutual

theorem overflows_perm : ∀ s : Statement, s.overflows.Perm (outOfRange (s.tree.flatMap figures))
  | .block _ _ _ body _ => perm_of_body (overflowsAll_perm body)
  | .field .. | .rel .. | .mutate .. | .predicate .. | .within .. | .origin .. | .bare .. =>
    perm_of_body .nil

theorem overflowsAll_perm :
    ∀ ss : List Statement, (overflowsAll ss).Perm (outOfRange ((treeAll ss).flatMap figures))
  | [] => .nil
  | s :: ss => by
    rw [overflowsAll, treeAll, List.flatMap_append, outOfRange_append]
    exact (overflows_perm s).append (overflowsAll_perm ss)

end

end Statement

/-! ## The reports -/

theorem head_ofList (c : Char) (cs : List Char) :
    (String.ofList (c :: cs)).toList.head? = some c := by simp

theorem head_append (c : Char) (cs : List Char) (text : String) :
    (String.ofList (c :: cs) ++ text).toList.head? = some c := by simp

theorem second_ofList (c d : Char) (cs : List Char) :
    (String.ofList (c :: d :: cs)).toList.tail.head? = some d := by simp

theorem second_append (c d : Char) (cs : List Char) (text : String) :
    (String.ofList (c :: d :: cs) ++ text).toList.tail.head? = some d := by simp

/-- No other problem is worded like a number out of range: only one more
begins with its first letter. -/
theorem Problem.eq_numberOutOfRange {p : Problem} (h : p.message = Problem.numberOutOfRange.message) :
    p = .numberOutOfRange := by
  have hhead : p.message.toList.head? = some 'N' := by
    rw [h]
    exact head_ofList ..
  have hsecond : p.message.toList.tail.head? = some 'u' := by
    rw [h]
    exact second_ofList ..
  cases p
  case numberOutOfRange => rfl
  case tooManyNestedLabels name =>
    unfold message at hsecond
    simp only [String.append_assoc] at hsecond
    rw [second_append] at hsecond
    simp at hsecond
  all_goals
    unfold message at hhead
    simp only [String.append_assoc] at hhead
    first
    | rw [head_append] at hhead
    | rw [head_ofList] at hhead
    simp at hhead

def Diagnostic.isOutOfRange (d : Diagnostic) : Bool :=
  d.isError && d.message == "Number is out of range for a finite value"

theorem isOutOfRange_numberOutOfRange (s : Span) :
    (Problem.numberOutOfRange.reported s).isOutOfRange = true :=
  Bool.and_eq_true_iff.2 ⟨rfl, beq_self_eq_true _⟩

theorem Supply.Admits.not_isOutOfRange {S : Supply} {d : Diagnostic} (h : S.Admits d) :
    ¬ d.isOutOfRange = true := by
  obtain ⟨p, s, hp, -, rfl⟩ := h
  intro hd
  have hmessage := (Bool.and_eq_true_iff.1 hd).2
  exact hp (Problem.eq_numberOutOfRange (beq_iff_eq.1 hmessage))

def Supply.ofSpans (place : Span → Prop) (join : ∀ {a b}, place a → place b → place (a.join b)) :
    Supply where
  span := place
  json _ := True
  join := join
  str _ := trivial
  bool _ := trivial
  arr _ := ⟨fun _ _ _ => trivial, fun _ => trivial⟩
  obj _ := ⟨fun _ _ _ => trivial, fun _ => trivial⟩

theorem Supply.states_ofSpans {place : Span → Prop}
    {join : ∀ {a b}, place a → place b → place (a.join b)} {s : Statement}
    (h : place s.span) (hvalues : ∀ v ∈ s.values, ∀ w ∈ v.tree, place w.span) :
    (ofSpans place join).States s :=
  ⟨h, fun v hv => ⟨hvalues v hv, trivial⟩, fun _ _ => ⟨trivial, trivial⟩⟩

namespace Compilation

/-- The numbers out of range are the only reports with their message, and they come last. -/
theorem filter_isOutOfRange (ss : List Statement) :
    (ofStatements ss).diagnostics.filter Diagnostic.isOutOfRange =
      (Statement.overflowsAll ss).map Problem.numberOutOfRange.reported := by
  have hstates : ∀ t ∈ Statement.treeAll ss,
    (Supply.ofSpans (fun _ => True) fun _ _ => trivial).States t := by
    intro t _
    exact Supply.states_ofSpans trivial fun _ _ _ _ => trivial
  obtain ⟨-, ds, hds, heq⟩ := ofStatements_from hstates
  rw [heq, List.filter_append, List.filter_eq_nil_iff.2 fun d hd => (hds d hd).not_isOutOfRange,
    List.nil_append, List.filter_eq_self.2]
  intro d hd
  obtain ⟨s, -, rfl⟩ := List.mem_map.1 hd
  exact isOutOfRange_numberOutOfRange s

end Compilation

/-! ## Texts without errors -/

/-- The least whole number has no counterpart of 64 bits, but its double is finite. -/
theorem Number.isFinite_negate {n : Number} (hnarrow : n.IsNarrow) (h : n.isFinite = true) :
    n.negate.isFinite = true := by
  cases hnarrow with
  | @int i hi =>
    simp only [negate]
    split
    · rfl
    · simp only [inInt64, Bool.and_eq_true, decide_eq_true_eq] at hi
      exact Binary64.isFinite_ofDecimal false (by omega)
  | float x =>
    cases x with
    | finite n q h => rfl
    | infinite n => cases h

def Value.isNull : Value → Bool
  | null _ => true
  | _ => false

namespace Supply

variable {S : Supply}

def Reads (S : Supply) (w : Value) : Prop :=
  (∀ n, w.number? = some n → S.json (.ofNumber n)) ∧ (w.isNull = true → S.json .null)

mutual

theorem json_literal : ∀ v : Value, (∀ w ∈ v.tree, S.Reads w) → S.json v.literal
  | .str .., _ | .name .., _ => S.str _
  | .bool .., _ => S.bool _
  | .num n s, h => (h _ (Value.mem_tree_self _)).1 n rfl
  | .null s, h => (h _ (Value.mem_tree_self _)).2 rfl
  | .array items s, h => (S.arr _).2 (json_treeAll items fun w hw => h w (List.mem_cons_of_mem _ hw))
  | .object members s, h =>
    json_obj.2 (makes_treeMembers members fun w hw => h w (List.mem_cons_of_mem _ hw)).ofPairs
  | .call callee args s, h => by
    have hargs := json_treeAll args fun w hw => h w (List.mem_cons_of_mem _ hw)
    exact json_obj.2 (by simpa using hargs)

theorem json_treeAll :
    ∀ vs : List Value, (∀ w ∈ Value.treeAll vs, S.Reads w) → ∀ x ∈ Value.literals vs, S.json x
  | [], _ => nofun
  | v :: vs, h => by
    have hall := List.forall_mem_append.1 h
    exact List.forall_mem_cons.2 ⟨json_literal v hall.1, json_treeAll vs hall.2⟩

theorem makes_treeMembers : ∀ ms : List (String × Value), (∀ w ∈ Value.treeMembers ms, S.Reads w) →
    S.Makes (Value.literalMembers ms)
  | [], _ => nofun
  | (_, v) :: ms, h => by
    have hall := List.forall_mem_append.1 h
    exact makes_cons.2 ⟨json_literal v hall.1, makes_treeMembers ms hall.2⟩

end

end Supply

namespace Statement

/-- The numbers that a record can hold: those of the source, and its amounts with the other sign. -/
def recordNumbers (ss : List Statement) : List Number :=
  ((treeAll ss).flatMap figures).map (·.1) ++ ((treeAll ss).flatMap amounts).map Number.negate

def hasNull (ss : List Statement) : Bool :=
  (treeAll ss).any fun t => t.values.any fun v => v.tree.any Value.isNull

theorem mem_figures_of_values {t : Statement} {v w : Value} {n : Number} (hv : v ∈ t.values)
    (hw : w ∈ v.tree) (hn : w.number? = some n) : (n, w.span) ∈ t.figures :=
  List.mem_append_right _ (List.mem_flatMap.2 ⟨v, hv, List.mem_filterMap.2 ⟨w, hw, by rw [hn]; rfl⟩⟩)

theorem mem_figures_of_amounts {t : Statement} {n : Number} (hn : n ∈ t.amounts) :
    (n, t.span) ∈ t.figures :=
  List.mem_append_left _ (List.mem_map_of_mem hn)

end Statement

/-- A number of the list, and a null only where nulls may be. -/
def Json.isWithin (ns : List Number) (nulls : Bool) : Json → Bool
  | .null => nulls
  | .num n => ns.contains n
  | _ => true

def Supply.within (ns : List Number) (nulls : Bool) : Supply where
  span _ := True
  json v := v.every (Json.isWithin ns nulls) = true
  join _ _ := trivial
  str _ := rfl
  bool _ := rfl
  arr _ := by simp [Json.every_arr, Json.isWithin]
  obj _ := by simp [Json.every_obj, Json.isWithin]

theorem Supply.json_within {ns : List Number} {nulls : Bool} {n : Number} (hn : n ∈ ns)
    (h : n.isFinite = true) : (within ns nulls).json (.ofNumber n) := by
  rw [Json.ofNumber_of_isFinite h]
  exact List.contains_iff_mem.2 hn

/-- Statements with finite numbers state what their records hold. -/
theorem Supply.states_within {ss : List Statement} {t : Statement} (ht : t ∈ Statement.treeAll ss)
    (h : ∀ n ∈ Statement.recordNumbers ss, n.isFinite = true) :
    (within (Statement.recordNumbers ss) (Statement.hasNull ss)).States t := by
  have hnumber : ∀ {n s}, (n, s) ∈ t.figures → n ∈ Statement.recordNumbers ss := by
    intro n s hn
    exact List.mem_append_left _ (List.mem_map.2 ⟨_, List.mem_flatMap.2 ⟨t, ht, hn⟩, rfl⟩)
  refine ⟨trivial, ?_, ?_⟩
  · intro v hv
    refine ⟨fun _ _ => trivial, json_literal v ?_⟩
    intro w hw
    refine ⟨?_, ?_⟩
    · intro n hn
      have hmem := hnumber (Statement.mem_figures_of_values hv hw hn)
      exact json_within hmem (h n hmem)
    · intro hnull
      exact List.any_eq_true.2 ⟨t, ht, List.any_eq_true.2 ⟨v, hv, List.any_eq_true.2 ⟨w, hw, hnull⟩⟩⟩
  · intro n hn
    have hmem := hnumber (Statement.mem_figures_of_amounts hn)
    have hneg : n.negate ∈ Statement.recordNumbers ss :=
      List.mem_append_right _ (List.mem_map_of_mem (List.mem_flatMap.2 ⟨t, ht, hn⟩))
    exact ⟨json_within hmem (h n hmem), json_within hneg (h _ hneg)⟩

/-- Without a report of them the numbers that a record can hold are finite. -/
theorem isFinite_of_quiet {o : Cursor} {ss : List Statement}
    (hplaced : ∀ t ∈ Statement.treeAll ss, t.Placed o)
    (h : ∀ f ∈ (Statement.treeAll ss).flatMap Statement.figures, f.1.isFinite = true) :
    ∀ n ∈ Statement.recordNumbers ss, n.isFinite = true := by
  intro n hn
  cases List.mem_append.1 hn with
  | inl hn =>
    obtain ⟨f, hf, rfl⟩ := List.mem_map.1 hn
    exact h f hf
  | inr hn =>
    obtain ⟨m, hm, rfl⟩ := List.mem_map.1 hn
    obtain ⟨t, ht, hm⟩ := List.mem_flatMap.1 hm
    have hfinite := h _ (List.mem_flatMap.2 ⟨t, ht, Statement.mem_figures_of_amounts hm⟩)
    exact Number.isFinite_negate ((hplaced t ht).narrow m hm) hfinite

/-! ## The main result -/

open Compilation in
/-- Every number out of range in the statements of a text is reported once, at its
place, whatever becomes of its statement, and nothing else is reported in these words.
When a text is without errors, all its numbers are finite and none is read as null: the
numbers of its records are its own, and a null stands there only if one is written. -/
theorem overflows_reported_once :
    (∀ ss : List Statement,
      ((ofStatements ss).diagnostics.filter Diagnostic.isOutOfRange).Perm
        ((((Statement.treeAll ss).flatMap Statement.figures).filter (!·.1.isFinite)).map
          fun (_, s) => Problem.numberOutOfRange.reported s) ∧
      (ofStatements ss).diagnostics.countP Diagnostic.isOutOfRange =
        ((Statement.treeAll ss).flatMap Statement.figures).countP (!·.1.isFinite)) ∧
    ∀ file text, (compile file text).hasErrors = false → ∃ ss, parse file text = .ok ss ∧
      (∀ n ∈ Statement.recordNumbers ss, n.isFinite = true ∧ Json.ofNumber n = .num n) ∧
      ∀ e ∈ (compile file text).entries, ∀ m ∈ e.record,
        m.2.every (Json.isWithin (Statement.recordNumbers ss) (Statement.hasNull ss)) = true := by
  have hreports : ∀ ss : List Statement,
    ((ofStatements ss).diagnostics.filter Diagnostic.isOutOfRange).Perm
      ((((Statement.treeAll ss).flatMap Statement.figures).filter (!·.1.isFinite)).map
        fun (_, s) => Problem.numberOutOfRange.reported s) := by
    intro ss
    rw [filter_isOutOfRange]
    refine ((Statement.overflowsAll_perm ss).map _).trans ?_
    rw [outOfRange, List.map_map]
    rfl
  have hcount : ∀ ss : List Statement, (ofStatements ss).diagnostics.countP Diagnostic.isOutOfRange =
      ((Statement.treeAll ss).flatMap Statement.figures).countP (!·.1.isFinite) := by
    intro ss
    rw [List.countP_eq_length_filter, (hreports ss).length_eq, List.length_map,
      ← List.countP_eq_length_filter]
  refine ⟨fun ss => ⟨hreports ss, hcount ss⟩, ?_⟩
  intro file text h
  cases hparse : parse file text with
  | error e => simp [compile, hparse, hasErrors, SyntaxError.diagnostic, Diagnostic.isError] at h
  | ok ss =>
    have hcompile : compile file text = ofStatements ss := by rw [compile, hparse]
    rw [hcompile] at h ⊢
    -- Such a report is an error, and there is one for each of the numbers.
    have hnone : (ofStatements ss).diagnostics.countP Diagnostic.isOutOfRange = 0 := by
      rw [List.countP_eq_zero]
      intro d hd herror
      exact absurd ((Bool.and_eq_true_iff.1 herror).1) (List.any_eq_false.1 h d hd)
    rw [hcount, List.countP_eq_zero] at hnone
    have hplaced := ((shaped_parse file text).1 ss hparse).2
    have hfinite := isFinite_of_quiet hplaced (by simpa using hnone)
    refine ⟨ss, rfl, fun n hn => ⟨hfinite n hn, Json.ofNumber_of_isFinite (hfinite n hn)⟩, ?_⟩
    intro e he
    exact ((ofStatements_from fun t ht => Supply.states_within ht hfinite).1 e he).record

/-- A block that is not compiled and one that is, each with a number out of
range; and a text without errors. -/
theorem overflows_reported_once_dropped :
    let lost := "bogus do\n  age [1e999, 2]\nend\nculture elves do\n  age -1e400\nend\n"
    let kept := "culture elves do\n  age 900\nend\n"
    (∃ ss, parse 0 lost = .ok ss ∧
      (Compilation.ofStatements ss).diagnostics.countP Diagnostic.isOutOfRange = 2) ∧
    (compile 0 kept).hasErrors = false ∧ (compile 0 kept).entries.length = 1 ∧
      ∃ ss, parse 0 kept = .ok ss ∧ ∀ e ∈ (compile 0 kept).entries, ∀ m ∈ e.record,
        m.2.every (Json.isWithin (Statement.recordNumbers ss) (Statement.hasNull ss)) = true := by
  intro lost kept
  obtain ⟨hreports, hquiet⟩ := overflows_reported_once
  have hlost : (parse 0 lost).toOption.map
      (fun ss => ((Statement.treeAll ss).flatMap Statement.figures).countP (!·.1.isFinite)) =
        some 2 := by decide +kernel
  have hkept : (compile 0 kept).hasErrors = false := by decide +kernel
  refine ⟨?_, hkept, by decide +kernel, ?_⟩
  · obtain ⟨ss, hss, hcount⟩ := Option.map_eq_some_iff.1 hlost
    refine ⟨ss, ?_, (hreports ss).2.trans hcount⟩
    cases hparse : parse 0 lost with
    | error e => rw [hparse] at hss; cases hss
    | ok found => rw [hparse] at hss; cases hss; rfl
  · obtain ⟨ss, hparse, -, hrecords⟩ := hquiet 0 kept hkept
    exact ⟨ss, hparse, hrecords⟩

end Worldbook
