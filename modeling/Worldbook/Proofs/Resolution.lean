import Worldbook.Proofs.Items
import Worldbook.Proofs.Referents
import Worldbook.Proofs.Widening

/-!
# References resolve

Bindings are only added, a bare name becomes a reference exactly where it is bound, and where an
entity has to be named nothing but a reference comes out. What compiles without an error compiles
with more bindings too, to the same but for bare names that have become references. The main result
is `references_resolve`.
-/

namespace Worldbook

open CompileM

/-! ## Items -/

theorem fixed_report (p : Problem) (span : Span) : Fixed (liftM (report p span)) fun _ => True :=
  ⟨some (), [p.reported span], fun s => (runs_report p span s).lift, fun _ _ => trivial, nofun⟩

/-- A first step that reports an error has nothing to answer for. -/
theorem lifts_error {α : Type} {R : α → α → Prop} {p : Problem} (hp : p.severity = .error) {span : Span}
    {k : Unit → CompileM α} {n : CompileM α} (hk : OnlyBinds (k ())) :
    Lifts R (report p span >>= k) n := by
  intro s t _
  obtain ⟨a, s', new, hrun, hgrows⟩ := hk s
  refine ⟨a, s', _, (runs_report p span s).bind hrun, hgrows, ?_⟩
  intro hnew
  exact hnew.of_append.1.absurd ⟨_, List.mem_singleton_self _, decide_eq_true hp⟩

theorem Collection.isReferenceKey_label {c : Collection} (hc : c ∈ all) {field : String}
    (hfield : some field ∈ c.labelFields) : isReferenceKey field = false := by
  have hall : ∀ c ∈ all, ∀ field ∈ c.labelFields, ∀ name ∈ field, isReferenceKey name = false := by
    decide
  exact hall c hc _ hfield field rfl

namespace Item

variable {names : List String} {r r' : Record}

/-- Labels fill text fields. -/
theorem fixed_labelFields (c : Collection) (i : Nat) (labels : List Value) :
    Fixed (labelFields c i labels) fun r => ∀ m ∈ r, some m.1 ∈ c.labelFields ∧
    ∃ text, m.2 = .str text := by
  induction labels generalizing i with
  | nil => exact fixed_pure nofun
  | cons label rest ih =>
    unfold labelFields
    cases hfield : c.labelFields[i]?.join with
    | none => exact (fixed_report _ _).bind fun _ _ => fixed_pure nofun
    | some field =>
      have hmem : some field ∈ c.labelFields := List.mem_of_getElem? (Option.join_eq_some_iff.1 hfield)
      cases label.text? with
      | some text =>
        exact (ih (i + 1)).bind fun r hr => fixed_pure (List.forall_mem_cons.2 ⟨⟨hmem, text, rfl⟩, hr⟩)
      | none =>
        by_cases hi : i = 0
        · simp only [if_pos hi]
          rw [← bind_assoc]
          exact Fixed.bind (fixed_reject rfl _ fun _ => False) fun _ hfalse => hfalse.elim
        · simp only [if_neg hi]
          exact (fixed_report _ _).bind fun _ _ => ih (i + 1)

theorem same_str {v : Json} {text : String} (h : v.same (.str text) = true) : v = .str text := by
  cases v with
  | str found => exact congrArg Json.str (eq_of_beq h)
  | _ => cases h

/-- A field that is the text of its label is no reference, so with more bindings it still is. -/
theorem lifts_unlabelled {labels : Record}
    (hlabels : ∀ m ∈ labels, isReferenceKey m.1 = false ∧ ∃ text, m.2 = .str text)
    (place : String → Span) (hr : r.Raised names r') :
    Lifts (Record.Raised names) (unlabelled labels place r) (unlabelled labels place r') := by
  induction r generalizing r' with
  | nil =>
    cases hr
    exact lifts_pure .nil
  | cons m r ih =>
    cases hr with
    | cons key hv hs =>
      unfold unlabelled
      cases hlabel : labels.get? key with
      | none => exact (ih hs).bind fun more more' hmore => lifts_pure (.cons key hv hmore)
      | some label =>
        obtain ⟨hkey, text, rfl⟩ := hlabels _ (Record.mem_of_get? hlabel)
        dsimp only
        split
        · exact lifts_error rfl (ih hs).onlyBinds
        · next hsame =>
          simp only [Bool.not_eq_true', Bool.not_eq_false] at hsame
          obtain rfl := same_str hsame
          rw [hkey] at hv
          cases hv
          rw [if_neg (by simp [hsame])]
          exact ih hs

theorem rises_blockRecord {c : Collection} (hc : c ∈ Collection.all) (labels : List Value)
    {body : List Statement} (hbody : Statement.bareNamesAll body ⊆ names) (span : Span) :
    Rises (Record.Raised names) (blockRecord c labels body span) (blockRecord c labels body span) := by
  unfold blockRecord
  refine (fixed_labelFields c 0 labels).rises_bind fun labels hlabels => ?_
  have hbody := Nested.lifting_ofBody (Statement.lifting_children body hbody)
  refine (hbody.fields (.refl [])).lift.bind fun fields fields' hfields => ?_
  have hplain : ∀ m ∈ labels, isReferenceKey m.1 = false ∧ ∃ text, m.2 = .str text :=
    fun m hm => ⟨Collection.isReferenceKey_label hc (hlabels m hm).1, (hlabels m hm).2⟩
  refine (lifts_unlabelled hplain _ hfields).lift.bind fun rest rest' hrest => ?_
  have hall : Record.Raised names (labels ++ rest) (labels ++ rest') :=
    (Record.Raised.refl labels).append hrest
  cases c.requiredId? with
  | none => exact rises_pure hall
  | some field =>
    dsimp only
    rw [hall.has field]
    split
    · exact rises_pure hall
    · exact rises_reject rfl _

theorem Among.leadingText {vs : List Value} (h : Among names vs) : Among names (leadingText vs).2 := by
  unfold Item.leadingText
  split
  · split
    · exact (h.of_cons rfl).2
    · exact h
  · exact h

theorem rises_tagRow {vs : List Value} (hvs : Among names vs) (span : Span) :
    Rises (Record.Raised names) (tagRow vs span) (tagRow vs span) := by
  unfold tagRow
  split
  · next tag category rarity rest =>
    refine (fixed_rowText "tag" tag).rises_bind fun tag _ => ?_
    refine (fixed_rowText "category" category).rises_bind fun category _ => ?_
    refine (fixed_rowText "rarity" rarity).rises_bind fun rarity _ => ?_
    have hrest : Among names rest := (((hvs.of_cons rfl).2.of_cons rfl).2.of_cons rfl).2
    exact rises_pairFields (Among.leadingText hrest) span (.refl _)
  · exact rises_reject rfl _

theorem rises_keyedRow (c : Collection) (idField : String) {vs : List Value} (hvs : Among names vs)
    (span : Span) :
    Rises (Record.Raised names) (keyedRow c idField vs span) (keyedRow c idField vs span) := by
  cases vs with
  | nil => exact rises_reject rfl _
  | cons id rest =>
    have hrest : Among names rest := (hvs.of_cons rfl).2
    refine (fixed_rowText idField id).rises_bind fun id _ => ?_
    cases c.nameField with
    | none => exact rises_pairFields hrest span (.refl _)
    | some field => exact rises_pairFields (Among.leadingText hrest) span (.refl _)

theorem rises_rowRecord (c : Collection) {vs : List Value} (hvs : Among names vs) (span : Span) :
    Rises (Record.Raised names) (rowRecord c vs span) (rowRecord c vs span) := by
  unfold rowRecord
  split
  · exact rises_tagRow hvs span
  · cases c.idField with
    | none => exact rises_pairFields hvs span (.refl _)
    | some field => exact rises_keyedRow c field hvs span

theorem rises_record {i : Item} (hc : i.collection ∈ Collection.all) (hfits : i.Fits)
    (h : i.statement.bareNames ⊆ names) : Rises (Record.Raised names) i.record i.record := by
  obtain ⟨form, c, t⟩ := i
  have hreferable : Among names t.referable := Statement.among_referable h
  cases form with
  | row => exact rises_rowRecord c (Statement.among_positional hreferable) t.span
  | block =>
    cases t with
    | block name quoted labels body span =>
      rw [Statement.bareNames, List.append_subset] at h
      exact rises_blockRecord hc labels h.2 span
    | _ => exact hfits.elim
  | rel =>
    cases t with
    | rel key label kind source target values span =>
      exact Statement.rises_relationship false key label kind span hreferable
    | _ => exact hfits.elim

end Item

/-! ## The main result -/

theorem Scope.resolve_bare (s : Scope) {token : String} (h : hasSigil token = false) :
    s.resolve token = if s.isBound (stem token) then "$" ++ token else token := by
  unfold resolve require?
  rw [if_neg (by simp [h])]
  split <;> rfl

/-- References resolve soundly, and with more bindings in the same way. Every binding is
written with a `$`, and a bare name gains one exactly where the part before its first point is
bound; a quoted text stays, each end of a relationship apart from the other, and so does the
value of a field whose key is that of no reference. Compiling only adds bindings. What compiles
without an error, in whatever language a list of statements is read, compiles with more
bindings to the same with the same reports, but for bare names of the list that have become
references where references stand. An entity that has to be named, by a condition, a filter or
a mutation, is a reference, whose name is bound unless it was written with its `$`. -/
theorem references_resolve (ss : List Statement) (t : Statement) (s : Scope) :
    (∀ name, (s.declare name).2 = "$" ++ Scope.baseOf name ∧
      (s.declare name).1.isBound (Scope.baseOf name) = true ∧
      s.names <+: (s.declare name).1.names) ∧
    (∀ token, Scope.hasSigil token = false →
      s.resolve token = if s.isBound (Scope.stem token) then "$" ++ token else token) ∧
    (∀ v : Value, v.bareNames = [] → v.resolved s = v.literal) ∧
    (∀ (key : String) (v : Value), key ∉ Value.referenceKeys → v.underKey s key = v.literal) ∧
    (∀ source target ends s' new, Runs (relationshipEnds false source target).run s (some ends) s' new →
      ends = (source.resolved s, target.resolved s)) ∧
    (Nested.ofBody (Statement.children ss)).Lifting (Statement.bareNamesAll ss) ∧
    (∀ i ∈ Item.items ss, Rises (Record.Raised i.statement.bareNames) i.record i.record) ∧
    (t.plainKeyword? = some "entity_exists" → ∀ j s' new,
      Runs (Condition.compile t t.nested).run s (some j) s' new →
      ∃ r : Record, j = .obj r ∧ r.Names s "entity" t.positional[0]?) ∧
    (t.plainKeyword? = some "exclude" → ∀ j s' new,
      Runs (Filter.compile t t.nested).run s (some j) s' new →
      ∃ (r : Record) (js : List Json), j = .obj r ∧ r.get? "entities" = some (.arr js) ∧
        List.Forall₂ s.Refers (Args.of t).flat js) ∧
    ∀ j s' new, Runs (Mutation.compile t t.nested).run s (some j) s' new →
      ∃ r : Record, j = .obj r ∧ ∀ p ∈ Mutation.required t, r.Names s p.1 p.2 := by
  refine ⟨?_, ?_, ?_, ?_, ?_, ?_, ?_, ?_, ?_, ?_⟩
  · intro name
    refine ⟨rfl, ?_, s.grows_declare name⟩
    rw [Scope.isBound_iff, Scope.mem_declare]
    exact .inr rfl
  · intro token
    exact s.resolve_bare
  · exact Value.resolved_of_no_bareNames s
  · intro key v hkey
    rw [Value.underKey, if_neg (by simpa using hkey)]
  · intro source target ends s' new hrun
    have hends :
      Runs (relationshipEnds false source target).run s (some (source.resolved s, target.resolved s))
      s [] :=
      runs_silent fun _ => rfl
    exact (Option.some.inj (hends.eq hrun).1).symm
  · exact Nested.lifting_ofBody (Statement.lifting_children ss (List.Subset.refl _))
  · intro i hi
    exact Item.rises_record (Item.placed_of_mem_items hi).1 (Item.fits_of_mem_items hi)
      (List.Subset.refl _)
  · intro ht j s' new hrun
    exact (Condition.givesFrom_compile ht t.nested s).of_runs hrun
  · intro ht j s' new hrun
    exact (Filter.givesFrom_compile ht t.nested s).of_runs hrun
  · intro j s' new hrun
    exact (Mutation.givesFrom_compile s t t.nested).of_runs hrun

/-- The condition `tag_exists brave ally` where nothing is bound and where
`ally` is, and the mutation `change_status hero dead` where `hero` is bound. -/
theorem references_resolve_ally :
    let name (word : String) : Value := .name word .nowhere
    let asks : Statement := .field "tag_exists" false [name "brave"] (name "ally") .nowhere
    let kills : Statement := .field "change_status" false [name "hero"] (name "dead") .nowhere
    (∃ few many t, Runs (Condition.compileAll (Statement.children [asks])) .empty few .empty [] ∧
      Runs (Condition.compileAll (Statement.children [asks])) ⟨["ally"]⟩ many t [] ∧
      List.Forall₂ (Json.Raised ["brave", "ally"] false) few many) ∧
    ∃ r : Record, Runs (Mutation.compile kills kills.nested).run ⟨["hero"]⟩ (some (.obj r))
      ⟨["hero"]⟩ [] ∧
      r.Names ⟨["hero"]⟩ "entity" (some (name "hero")) := by
  intro name asks kills
  obtain ⟨-, -, -, -, -, hlifting, -, -, -, hmutations⟩ := references_resolve [asks] kills ⟨["hero"]⟩
  constructor
  · have hfew : Runs (Condition.compileAll (Statement.children [asks])) .empty
        [.obj [textField "type" "tag_exists", textField "tag" "brave", textField "entity" "ally"]]
          .empty [] := by
      apply runs_silent
      intro ds
      simp only [asks, name]
      rfl
    obtain ⟨few, s', new, hrun, -, hlifts⟩ := hlifting.conditions .empty ⟨["ally"]⟩ nofun
    obtain ⟨rfl, rfl, rfl⟩ := hfew.eq hrun
    obtain ⟨many, t, hmany, -, hboth⟩ := hlifts noErrors_nil
    exact ⟨_, many, t, hrun, hmany, hboth⟩
  · have hkills : Runs (Mutation.compile kills kills.nested).run ⟨["hero"]⟩
        (some (.obj [textField "type" "change_status", textField "entity" "$hero",
          textField "newStatus" "dead"]))
        ⟨["hero"]⟩ [] := by
      apply runs_silent
      intro ds
      simp only [kills, name]
      rfl
    obtain ⟨r, hr, hnames⟩ := hmutations _ _ _ hkills
    cases hr
    exact ⟨_, hkills, hnames _ (List.mem_singleton_self _)⟩

end Worldbook
