import Mathlib.Data.List.Basic
import Worldbook.Compile.Args
import Worldbook.Diagnostic.Problem

/-!
# Moving values and statements

`relocate` changes every span of a value or a statement and leaves the rest. What a value or a
statement says does not change; this module states so for each way of looking at them. To forget
all spans is to move everything to one place.
-/

namespace Worldbook

def Span.nowhere : Span := .point 0 .origin

@[simp] theorem Span.join_nowhere : Span.nowhere.join .nowhere = .nowhere := rfl

mutual

def Value.relocate (g : Span → Span) : Value → Value
  | .str text span => .str text (g span)
  | .num n span => .num n (g span)
  | .bool b span => .bool b (g span)
  | .null span => .null (g span)
  | .name text span => .name text (g span)
  | .array items span => .array (relocateAll g items) (g span)
  | .object members span => .object (relocateMembers g members) (g span)
  | .call callee args span => .call callee (relocateAll g args) (g span)

def Value.relocateAll (g : Span → Span) : List Value → List Value
  | [] => []
  | v :: rest => v.relocate g :: relocateAll g rest

def Value.relocateMembers (g : Span → Span) : List (String × Value) → List (String × Value)
  | [] => []
  | (key, v) :: rest => (key, v.relocate g) :: relocateMembers g rest

end

mutual

def Statement.relocate (g : Span → Span) : Statement → Statement
  | .field key quoted labels value span =>
    .field key quoted (labels.map (·.relocate g)) (value.relocate g) (g span)
  | .block name quoted labels body span =>
    .block name quoted (labels.map (·.relocate g)) (relocateAll g body) (g span)
  | .rel key label kind source target values span =>
    .rel key (label.map (·.relocate g)) (kind.relocate g) (source.relocate g) (target.relocate g)
      (values.map (·.relocate g)) (g span)
  | .mutate target id change amount span => .mutate target (id.relocate g) change amount (g span)
  | .predicate word args comparator number upper span =>
    .predicate word (args.map (·.relocate g)) comparator number upper (g span)
  | .within key items span => .within key (items.map (·.relocate g)) (g span)
  | .origin source via span =>
    .origin (source.relocate g) (via.map fun p => (p.1.relocate g, p.2.relocate g)) (g span)
  | .bare value span => .bare (value.relocate g) (g span)

def Statement.relocateAll (g : Span → Span) : List Statement → List Statement
  | [] => []
  | s :: rest => s.relocate g :: relocateAll g rest

end

/-! ## Values -/

namespace Value

variable (g : Span → Span)

theorem relocateAll_eq_map (vs : List Value) : relocateAll g vs = vs.map (·.relocate g) := by
  induction vs with
  | nil => rfl
  | cons v vs ih => rw [relocateAll, ih, List.map_cons]

theorem relocateMembers_eq_map (ms : List (String × Value)) :
    relocateMembers g ms = ms.map fun m => (m.1, m.2.relocate g) := by
  induction ms with
  | nil => rfl
  | cons m ms ih => rw [relocateMembers, ih, List.map_cons]

mutual

theorem relocate_relocate (h : Span → Span) :
    ∀ v : Value, (v.relocate g).relocate h = v.relocate (h ∘ g)
  | .str .. | .num .. | .bool .. | .null .. | .name .. => rfl
  | .array items _ => by rw [relocate, relocate, relocateAll_relocateAll h items, relocate]; rfl
  | .object members _ =>
    by rw [relocate, relocate, relocateMembers_relocateMembers h members, relocate]; rfl
  | .call _ args _ => by rw [relocate, relocate, relocateAll_relocateAll h args, relocate]; rfl

theorem relocateAll_relocateAll (h : Span → Span) :
    ∀ vs : List Value, relocateAll h (relocateAll g vs) = relocateAll (h ∘ g) vs
  | [] => rfl
  | v :: rest =>
    by rw [relocateAll, relocateAll, relocate_relocate h v, relocateAll_relocateAll h rest, relocateAll]

theorem relocateMembers_relocateMembers (h : Span → Span) :
    ∀ ms : List (String × Value), relocateMembers h (relocateMembers g ms) = relocateMembers (h ∘ g) ms
  | [] => rfl
  | (_, v) :: rest => by
    rw [relocateMembers, relocateMembers, relocate_relocate h v, relocateMembers_relocateMembers h rest,
      relocateMembers]

end

mutual

theorem relocate_id : ∀ v : Value, v.relocate id = v
  | .str .. | .num .. | .bool .. | .null .. | .name .. => rfl
  | .array items _ => by rw [relocate, relocateAll_id items]; rfl
  | .object members _ => by rw [relocate, relocateMembers_id members]; rfl
  | .call _ args _ => by rw [relocate, relocateAll_id args]; rfl

theorem relocateAll_id : ∀ vs : List Value, relocateAll id vs = vs
  | [] => rfl
  | v :: rest => by rw [relocateAll, relocate_id v, relocateAll_id rest]

theorem relocateMembers_id : ∀ ms : List (String × Value), relocateMembers id ms = ms
  | [] => rfl
  | (_, v) :: rest => by rw [relocateMembers, relocate_id v, relocateMembers_id rest]

end

@[simp] theorem span_relocate (v : Value) : (v.relocate g).span = g v.span := by cases v <;> rfl

@[simp] theorem name?_relocate (v : Value) : (v.relocate g).name? = v.name? := by cases v <;> rfl

@[simp] theorem text?_relocate (v : Value) : (v.relocate g).text? = v.text? := by cases v <;> rfl

@[simp] theorem number?_relocate (v : Value) : (v.relocate g).number? = v.number? := by cases v <;> rfl

@[simp] theorem bool?_relocate (v : Value) : (v.relocate g).bool? = v.bool? := by cases v <;> rfl

@[simp] theorem describe_relocate (v : Value) :
    (v.relocate g).describe = v.describe := by cases v <;> rfl

@[simp] theorem isWord_relocate (v : Value) (word : String) :
    (v.relocate g).isWord word = v.isWord word := by
  rw [isWord, name?_relocate, isWord]

@[simp] theorem key?_relocate (v : Value) :
    (v.relocate g).key? = v.key? := by rw [key?, name?_relocate, key?]

mutual

theorem literal_relocate : ∀ v : Value, (v.relocate g).literal = v.literal
  | .str .. | .num .. | .bool .. | .null .. | .name .. => rfl
  | .array items _ => by rw [relocate, literal, literals_relocateAll items, literal]
  | .object members _ => by rw [relocate, literal, literalMembers_relocateMembers members, literal]
  | .call _ args _ => by rw [relocate, literal, literals_relocateAll args, literal]

theorem literals_relocateAll : ∀ vs : List Value, literals (relocateAll g vs) = literals vs
  | [] => rfl
  | v :: rest => by rw [relocateAll, literals, literal_relocate v, literals_relocateAll rest, literals]

theorem literalMembers_relocateMembers :
    ∀ ms : List (String × Value), literalMembers (relocateMembers g ms) = literalMembers ms
  | [] => rfl
  | (_, v) :: rest => by
    rw [relocateMembers, literalMembers, literal_relocate v, literalMembers_relocateMembers rest,
      literalMembers]

end

attribute [simp] literal_relocate

@[simp] theorem literals_relocate (vs : List Value) :
    literals (vs.map (·.relocate g)) = literals vs := by
  rw [← relocateAll_eq_map, literals_relocateAll]

mutual

theorem resolved_relocate (scope : Scope) :
    ∀ v : Value, (v.relocate g).resolved scope = v.resolved scope
  | .str .. | .num .. | .bool .. | .null .. | .name .. => rfl
  | .array items _ => by rw [relocate, resolved, resolvedItems_relocateAll scope items, resolved]
  | .object members span => literal_relocate g (.object members span)
  | .call callee args span => literal_relocate g (.call callee args span)

theorem resolvedItems_relocateAll (scope : Scope) :
    ∀ vs : List Value, resolvedItems scope (relocateAll g vs) = resolvedItems scope vs
  | [] => rfl
  | v :: rest => by
    rw [relocateAll, resolvedItems, resolved_relocate scope v, resolvedItems_relocateAll scope rest,
      resolvedItems]

end

attribute [simp] resolved_relocate

@[simp] theorem underKey_relocate (scope : Scope) (key : String) (v : Value) :
    (v.relocate g).underKey scope key = v.underKey scope key := by
  rw [underKey, resolved_relocate, literal_relocate, underKey]

theorem pairs?_relocate (vs : List Value) :
    pairs? (vs.map (·.relocate g)) = (pairs? vs).map (List.map fun p => (p.1, p.2.relocate g)) := by
  fun_induction pairs? vs with
  | case1 => rfl
  | case2 v => rfl
  | case3 key value rest ih =>
    simp only [List.map_cons, pairs?, key?_relocate, ih]
    cases key.key? <;> cases pairs? rest <;> rfl

@[simp] theorem fieldLiteral_relocate (labels : List Value) (value : Value) :
    fieldLiteral (labels.map (·.relocate g)) (value.relocate g) = fieldLiteral labels value := by
  have hall : labels.map (·.relocate g) ++ [value.relocate g] =
    (labels ++ [value]).map (·.relocate g) := by simp
  rw [fieldLiteral, fieldLiteral, List.isEmpty_map, literal_relocate, hall, pairs?_relocate,
    literals_relocate]
  cases pairs? (labels ++ [value]) with
  | none => rfl
  | some pairs => simp only [Option.map_some, ← relocateMembers_eq_map, literalMembers_relocateMembers]

end Value

/-! ## Statements -/

namespace Statement

variable (g : Span → Span)

theorem relocateAll_eq_map (ss : List Statement) : relocateAll g ss = ss.map (·.relocate g) := by
  induction ss with
  | nil => rfl
  | cons s ss ih => rw [relocateAll, ih, List.map_cons]

mutual

theorem relocate_relocate (h : Span → Span) :
    ∀ s : Statement, (s.relocate g).relocate h = s.relocate (h ∘ g)
  | .block name quoted labels body span => by
    simp only [relocate, relocateAll_relocateAll h body, List.map_map, Function.comp_def,
      Value.relocate_relocate]
  | .origin source via span => by
    cases via <;> simp only [relocate, Option.map_none, Option.map_some, Function.comp_def,
      Value.relocate_relocate]
  | .field .. | .rel .. | .mutate .. | .predicate .. | .within .. | .bare .. => by
    simp only [relocate, List.map_map, Option.map_map, Function.comp_def, Value.relocate_relocate]

theorem relocateAll_relocateAll (h : Span → Span) :
    ∀ ss : List Statement, relocateAll h (relocateAll g ss) = relocateAll (h ∘ g) ss
  | [] => rfl
  | s :: rest =>
    by rw [relocateAll, relocateAll, relocate_relocate h s, relocateAll_relocateAll h rest, relocateAll]

end

mutual

theorem relocate_id : ∀ s : Statement, s.relocate id = s
  | .block name quoted labels body span => by
    simp only [relocate, relocateAll_id body, Value.relocate_id, List.map_id', id]
  | .origin source via span => by cases via <;> simp [relocate, Value.relocate_id]
  | .field .. | .rel .. | .mutate .. | .predicate .. | .within .. | .bare .. =>
    by simp [relocate, Value.relocate_id]

theorem relocateAll_id : ∀ ss : List Statement, relocateAll id ss = ss
  | [] => rfl
  | s :: rest => by rw [relocateAll, relocate_id s, relocateAll_id rest]

end

@[simp] theorem span_relocate (s : Statement) : (s.relocate g).span = g s.span := by cases s <;> rfl

@[simp] theorem keyword?_relocate (s : Statement) : (s.relocate g).keyword? = s.keyword? := by
  cases s with
  | bare value span => exact value.name?_relocate g
  | _ => rfl

@[simp] theorem keyword_relocate (s : Statement) : (s.relocate g).keyword = s.keyword := by
  rw [keyword, keyword?_relocate, keyword]

@[simp] theorem isQuoted_relocate (s : Statement) :
    (s.relocate g).isQuoted = s.isQuoted := by cases s <;> rfl

@[simp] theorem plainKeyword?_relocate (s : Statement) :
    (s.relocate g).plainKeyword? = s.plainKeyword? := by
  rw [plainKeyword?, isQuoted_relocate, keyword?_relocate, plainKeyword?]

@[simp] theorem positional_relocate (s : Statement) :
    (s.relocate g).positional = s.positional.map (·.relocate g) := by
  cases s with
  | field key quoted labels value span => simp [relocate, positional]
  | _ => rfl

@[simp] theorem isBlock_relocate (s : Statement) :
    (s.relocate g).isBlock = s.isBlock := by cases s <;> rfl

@[simp] theorem comparison?_relocate (s : Statement) : (s.relocate g).comparison? = s.comparison? := by
  cases s <;> rfl

@[simp] theorem describe_relocate (s : Statement) :
    (s.relocate g).describe = s.describe := by cases s <;> rfl

/-! A moved statement has the shape of the one that was moved. -/

variable {g} {s : Statement}

theorem relocate_eq_field {key : String} {quoted : Bool} {labels : List Value} {value : Value}
    {span : Span} (h : s.relocate g = .field key quoted labels value span) :
    ∃ labels' value' span', s = .field key quoted labels' value' span' ∧
    labels'.map (·.relocate g) = labels := by
  cases s <;> cases h
  exact ⟨_, _, _, rfl, rfl⟩

theorem relocate_eq_block {name : String} {quoted : Bool} {labels : List Value} {body : List Statement}
    {span : Span} (h : s.relocate g = .block name quoted labels body span) :
    ∃ labels' body' span', s = .block name quoted labels' body' span' ∧
    labels'.map (·.relocate g) = labels := by
  cases s <;> cases h
  exact ⟨_, _, _, rfl, rfl⟩

theorem relocate_eq_within {key : Option String} {items : List Value} {span : Span}
    (h : s.relocate g = .within key items span) : ∃ items' span', s = .within key items' span' := by
  cases s <;> cases h
  exact ⟨_, _, rfl⟩

theorem relocate_eq_bare_name {text : String} {inner span : Span}
    (h : s.relocate g = .bare (.name text inner) span) :
    ∃ inner' span', s = .bare (.name text inner') span' := by
  cases s with
  | bare value span' =>
    obtain ⟨hv, -⟩ := Statement.bare.inj h
    cases value <;> cases hv
    exact ⟨_, _, rfl⟩
  | _ => cases h

end Statement

end Worldbook
