import Worldbook.Proofs.Batches
import Worldbook.Proofs.Overflows

/-!
# Spans

Every span that comes of a text says where in the text it is: those of its statements and values, of
its syntax error, of its records and of its reports. What stands in a statement or a value stands in
its span, in order, also in the statements that a short form is read as.
-/

namespace Worldbook

variable {file : FileId} {text : String}

namespace Statement

theorem Placed.states {t : Statement} (h : t.Placed (.ofText file text)) :
    (Supply.ofSpans (Span.Exact file text) Span.Exact.join).States t :=
  Supply.states_ofSpans h.holds.exact fun v hv w hw => (h.values v hv w hw).holds.exact

/-- A number stands in a value or, when the statement holds it itself, in the statement. -/
theorem Placed.figures {t : Statement} (h : t.Placed (.ofText file text)) :
    ∀ f ∈ t.figures, f.2.Exact file text := by
  intro f hf
  cases List.mem_append.1 hf with
  | inl hf =>
    obtain ⟨n, -, rfl⟩ := List.mem_map.1 hf
    exact h.holds.exact
  | inr hf =>
    obtain ⟨v, hv, hf⟩ := List.mem_flatMap.1 hf
    obtain ⟨w, hw, hf⟩ := List.mem_filterMap.1 hf
    obtain ⟨n, -, rfl⟩ := Option.map_eq_some_iff.1 hf
    exact (h.values v hv w hw).holds.exact

theorem overflowsAll_exact {ss : List Statement} (h : ∀ t ∈ treeAll ss, t.Placed (.ofText file text)) :
    ∀ s ∈ overflowsAll ss, s.Exact file text := by
  intro s hs
  obtain ⟨f, hf, rfl⟩ := List.mem_map.1 ((overflowsAll_perm ss).mem_iff.1 hs)
  obtain ⟨t, ht, hft⟩ := List.mem_flatMap.1 (List.mem_of_mem_filter hf)
  exact (h t ht).figures f hft

end Statement

theorem Compilation.ofStatements_exact {ss : List Statement}
    (h : ∀ t ∈ Statement.treeAll ss, t.Placed (.ofText file text)) :
    (∀ e ∈ (ofStatements ss).entries, e.span.Exact file text) ∧
      ∀ d ∈ (ofStatements ss).diagnostics, ∃ s, d.span = some s ∧ s.Exact file text := by
  obtain ⟨hentries, ds, hds, heq⟩ := ofStatements_from fun t ht => (h t ht).states
  refine ⟨fun e he => (hentries e he).span, ?_⟩
  rw [heq]
  intro d hd
  cases List.mem_append.1 hd with
  | inl hd =>
    obtain ⟨p, s, -, hs, rfl⟩ := hds d hd
    exact ⟨s, rfl, hs⟩
  | inr hd =>
    obtain ⟨s, hs, rfl⟩ := List.mem_map.1 hd
    exact ⟨s, rfl, Statement.overflowsAll_exact h s hs⟩

/-- All spans of a text are exact: that of its syntax error, those of its statements
and of their values at any depth, and those of its records and its reports.
Statements stand in order, and so do the labels, the values and the statements in a
statement and the values in a value, within the span of what they stand in. -/
theorem spans_exact (file : FileId) (text : String) :
    (∀ e, parse file text = .error e → e.span.Exact file text) ∧
    (∀ ss, parse file text = .ok ss →
      (ss.map Statement.span).Pairwise (·.stop.offset ≤ ·.start.offset) ∧
      ∀ t ∈ Statement.treeAll ss, t.span.Exact file text ∧
        t.span.Nests (t.values.map Value.span ++ t.body.map Statement.span) ∧
        ∀ v ∈ t.values, ∀ w ∈ v.tree, w.span.Exact file text ∧ w.span.Nests (w.parts.map Value.span)) ∧
    (∀ e ∈ (compile file text).entries, e.span.Exact file text) ∧
    ∀ d ∈ (compile file text).diagnostics, ∃ s, d.span = some s ∧ s.Exact file text := by
  have hread := shaped_parse file text
  refine ⟨fun e he => (hread.2 e he).2.exact, ?_, ?_⟩
  · intro ss hss
    obtain ⟨hordered, hplaced⟩ := hread.1 ss hss
    refine ⟨hordered, ?_⟩
    intro t ht
    have hself := hplaced t ht
    refine ⟨hself.holds.exact, hself.nests, ?_⟩
    intro v hv w hw
    have hvalue := hself.values v hv w hw
    exact ⟨hvalue.holds.exact, hvalue.nests⟩
  · unfold compile
    cases hparse : parse file text with
    | ok ss => exact Compilation.ofStatements_exact (hread.1 ss hparse).2
    | error e =>
      refine ⟨nofun, ?_⟩
      intro d hd
      rw [List.mem_singleton.1 hd]
      exact ⟨e.span, rfl, (hread.2 e hparse).2.exact⟩

/-- Two short forms in two lines, with a letter of two bytes, and a string that is not closed. -/
theorem spans_exact_short_forms :
    let text := "axis ård low -> high\nrelationship_kind ally npc -> [elf]"
    (∃ ss, parse 3 text = .ok ss ∧ (ss.map Statement.span).Pairwise (·.stop.offset ≤ ·.start.offset) ∧
      ∀ t ∈ Statement.treeAll ss, t.span.Exact 3 text ∧
        t.span.Nests (t.values.map Value.span ++ t.body.map Statement.span)) ∧
    ∃ e, parse 3 "lore \"ård" = .error e ∧ e.span.Exact 3 "lore \"ård" := by
  intro text
  refine ⟨?_, ?_⟩
  · obtain ⟨ss, hss⟩ : ∃ ss, parse 3 text = .ok ss := exists_parse_of_isOk (by decide +kernel)
    obtain ⟨hordered, htree⟩ := (spans_exact 3 text).2.1 ss hss
    exact ⟨ss, hss, hordered, fun t ht => ⟨(htree t ht).1, (htree t ht).2.1⟩⟩
  · have herror : (parse 3 "lore \"ård").isOk = false := by decide +kernel
    cases hparse : parse 3 "lore \"ård" with
    | ok ss => rw [hparse] at herror; cases herror
    | error e => exact ⟨e, rfl, (spans_exact 3 _).1 e hparse⟩

end Worldbook
