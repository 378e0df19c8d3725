import Worldbook.Proofs.Readings

/-!
# Attempts that see no bindings

Reading an argument, checking a comparison or refusing a statement has one
outcome, whatever is bound: `Fixed` says so, and with what the attempt gives.
-/

namespace Worldbook

open CompileM

/-- The attempt has one outcome, with the same reports whatever the bindings are, and leaves
them as they are. What it gives has the property, and it gives up only over an error. -/
def Fixed {α : Type} (m : Attempt α) (Q : α → Prop) : Prop :=
  ∃ r new, (∀ s, Runs m.run s r s new) ∧ (∀ a, r = some a → Q a) ∧
    (r = none → ∃ d ∈ new, d.isError = true)

section
variable {α β : Type} {P : α → Prop} {Q : β → Prop}

theorem fixed_pure {a : α} (h : P a) : Fixed (pure a) P := by
  refine ⟨some a, [], runs_pure (some a), ?_, nofun⟩
  intro b hb
  cases hb
  exact h

theorem fixed_reject {p : Problem} (hp : p.severity = .error) (span : Span) (P : α → Prop) :
    Fixed (reject p span) P := by
  refine ⟨none, [p.reported span], fun s ds => rfl, nofun, ?_⟩
  intro _
  exact ⟨_, List.mem_singleton_self _, decide_eq_true hp⟩

theorem Fixed.bind {m : Attempt α} {k : α → Attempt β} (hm : Fixed m P)
    (hk : ∀ a, P a → Fixed (k a) Q) : Fixed (m >>= k) Q := by
  obtain ⟨r, new, hruns, hgives, herror⟩ := hm
  cases r with
  | none =>
    refine ⟨none, new, ?_, nofun, fun _ => herror rfl⟩
    intro s
    rw [OptionT.run_bind, ← List.append_nil new]
    exact (hruns s).bind (runs_pure none s)
  | some a =>
    obtain ⟨r, more, hruns', hgives', herror'⟩ := hk a (hgives a rfl)
    refine ⟨r, new ++ more, ?_, hgives', ?_⟩
    · intro s
      rw [OptionT.run_bind]
      exact (hruns s).bind (hruns' s)
    · intro hr
      obtain ⟨d, hd, he⟩ := herror' hr
      exact ⟨d, List.mem_append_right _ hd, he⟩

end

/-! ## Arguments -/

/-- Some of the first arguments have been read, and the second are left. -/
def Args.Follow (a b : Args) : Prop := ∃ read, a.rest = read ++ b.rest

namespace Args

theorem Follow.refl (a : Args) : a.Follow a := ⟨[], rfl⟩

theorem Follow.trans {a b c : Args} (h : a.Follow b) (h' : b.Follow c) : a.Follow c := by
  obtain ⟨read, hread⟩ := h
  obtain ⟨more, hmore⟩ := h'
  exact ⟨read ++ more, by rw [hread, hmore, List.append_assoc]⟩

theorem Follow.of_cons {a b : Args} {v : Value} (h : a.rest = v :: b.rest) : a.Follow b := ⟨[v], h⟩

theorem Follow.of_cons_cons {a b : Args} {v w : Value} (h : a.rest = v :: w :: b.rest) : a.Follow b :=
  ⟨[v, w], h⟩

theorem fixed_value (a : Args) (what : String) :
    Fixed (a.value what) fun p => a.rest = p.1 :: p.2.rest := by
  unfold value
  split
  · next v rest h => exact fixed_pure h
  · exact fixed_reject rfl _ _

theorem fixed_text (a : Args) (what : String) :
    Fixed (a.text what) fun p => ∃ v : Value, v.text? = some p.1 ∧ a.rest = v :: p.2.rest := by
  refine (fixed_value a what).bind fun ⟨v, b⟩ hv => ?_
  dsimp only
  split
  · next text htext => exact fixed_pure ⟨v, htext, hv⟩
  · exact fixed_reject rfl _ _

theorem fixed_number (a : Args) (what : String) : Fixed (a.number what) fun p => a.Follow p.2 := by
  refine (fixed_value a what).bind fun ⟨v, b⟩ hv => ?_
  dsimp only
  split
  · exact fixed_pure (.of_cons hv)
  · exact fixed_reject rfl _ _

theorem fixed_finish (a : Args) : Fixed a.finish fun _ => a.rest = [] := by
  unfold finish
  split
  · next h => exact fixed_pure h
  · exact fixed_reject rfl _ _

theorem marker_true {a b : Args} {word : String} (h : a.marker word = (true, b)) :
    ∃ m : Value, m.isWord word = true ∧ a.rest = m :: b.rest := by
  unfold marker at h
  split at h
  · next m rest hrest =>
    split at h
    · next hword =>
      cases h
      exact ⟨m, hword, hrest⟩
    · cases h
  · cases h

theorem marker_false {a b : Args} {word : String} (h : a.marker word = (false, b)) : b = a := by
  unfold marker at h
  split at h
  · split at h
    · cases h
    · cases h
      rfl
  · cases h
    rfl

theorem fixed_markedText (a : Args) (word what : String) :
    Fixed (a.markedText word what) fun p => match p.1 with
      | some text =>
        ∃ m v : Value, m.isWord word = true ∧ v.text? = some text ∧ a.rest = m :: v :: p.2.rest
      | none => p.2 = a := by
  unfold markedText
  split
  · next b hmarker =>
    obtain ⟨m, hword, hrest⟩ := marker_true hmarker
    refine (fixed_text b what).bind fun ⟨text, c⟩ ⟨v, htext, hv⟩ => fixed_pure ?_
    exact ⟨m, v, hword, htext, by rw [hrest, hv]⟩
  · next b hmarker => exact fixed_pure (marker_false hmarker)

theorem follow_of_markedText {a b : Args} {word : String} {text : Option String}
    (h : match text with
      | some text =>
        ∃ m v : Value, m.isWord word = true ∧ v.text? = some text ∧ a.rest = m :: v :: b.rest
      | none => b = a) : a.Follow b := by
  cases text with
  | none =>
    obtain rfl : b = a := h
    exact .refl b
  | some text =>
    obtain ⟨m, v, -, -, hrest⟩ := h
    exact .of_cons_cons hrest

end Args

namespace CompileM

theorem fixed_rowText (field : String) (v : Value) :
    Fixed (rowText field v) fun text => v.text? = some text := by
  unfold rowText
  split
  · next text htext => exact fixed_pure htext
  · exact fixed_reject rfl _ _

theorem fixed_unknownKeyword {α : Type} (language : String) (s : Statement) (Q : α → Prop) :
    Fixed (do unknownKeyword language s; failure) Q := by
  unfold unknownKeyword
  refine fixed_reject ?_ s.span Q
  cases s.keyword? <;> rfl

end CompileM

/-! ## Bounds -/

theorem fixed_boundFields (comparison : Comparator × Number × Option Number) (span : Span) :
    Fixed (boundFields comparison span) fun _ => True := by
  obtain ⟨comparator, n, upper⟩ := comparison
  unfold boundFields
  dsimp only
  split
  · exact fixed_reject rfl _ _
  · cases comparator with
    | ge | le | eq => exact fixed_pure trivial
    | gt | lt => exact fixed_reject rfl _ _

/-! ## Languages -/

namespace Condition

theorem fits_of_isBlock {k : Keyword} {s : Statement} (h : k.fits s = true) (hk : k.isBlock = true) :
    s.positional = [] := by
  cases s <;> simp_all [Keyword.fits, Statement.positional]

end Condition

namespace Filter

theorem fits_of_isBlock {k : Keyword} {s : Statement} (h : k.fits s = true) (hk : k.isBlock = true) :
    s.positional = [] := by
  cases s <;> simp_all [Keyword.fits, Statement.positional]

end Filter

namespace Mutation

theorem fixed_direction (args : Args) : Fixed (direction args) fun p => args.Follow p.2 :=
  (args.fixed_markedText _ _).bind fun _ hd => fixed_pure (Args.follow_of_markedText hd)

theorem fixed_unknown (s : Statement) (Q : Json → Prop) : Fixed (do unknown s; failure) Q := by
  fun_cases unknown s with
  | case1 => exact fixed_reject rfl _ _
  | case2 => exact fixed_unknownKeyword "mutation" s Q

end Mutation

end Worldbook
