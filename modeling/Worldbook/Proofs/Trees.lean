import Mathlib.Data.List.Basic
import Worldbook.Source.Statement

/-!
# Trees of values and statements

What stands directly in a value or a statement, and everything that stands in it at any depth. The
figures of a statement are the numbers it holds itself, which stand where the statement stands, and
those in its values.
-/

namespace Worldbook

namespace Value

def parts : Value → List Value
  | array items _ => items
  | object members _ => members.map (·.2)
  | call _ args _ => args
  | _ => []

mutual

def tree : Value → List Value
  | array items s => array items s :: treeAll items
  | object members s => object members s :: treeMembers members
  | call callee args s => call callee args s :: treeAll args
  | v => [v]

def treeAll : List Value → List Value
  | [] => []
  | v :: rest => v.tree ++ treeAll rest

def treeMembers : List (String × Value) → List Value
  | [] => []
  | (_, v) :: rest => v.tree ++ treeMembers rest

end

theorem treeAll_eq (vs : List Value) : treeAll vs = vs.flatMap tree := by
  induction vs with
  | nil => rfl
  | cons v vs ih => rw [treeAll, ih, List.flatMap_cons]

theorem treeMembers_eq (ms : List (String × Value)) : treeMembers ms = (ms.map (·.2)).flatMap tree := by
  induction ms with
  | nil => rfl
  | cons m ms ih =>
    obtain ⟨key, v⟩ := m
    rw [treeMembers, ih, List.map_cons, List.flatMap_cons]

theorem tree_eq (v : Value) : v.tree = v :: v.parts.flatMap tree := by
  cases v with
  | array items s => rw [tree, treeAll_eq, parts]
  | object members s => rw [tree, treeMembers_eq, parts]
  | call callee args s => rw [tree, treeAll_eq, parts]
  | _ => rfl

theorem forall_mem_tree {P : Value → Prop} {v : Value} :
    (∀ w ∈ v.tree, P w) ↔ P v ∧ ∀ p ∈ v.parts, ∀ w ∈ p.tree, P w := by
  rw [tree_eq, List.forall_mem_cons, List.forall_mem_flatMap]

theorem mem_tree_self (v : Value) : v ∈ v.tree := by simp [tree_eq v]

def figures (v : Value) : List (Number × Span) := v.tree.filterMap fun w => w.number?.map (·, w.span)

end Value

namespace Statement

def values : Statement → List Value
  | field _ _ labels value _ => labels ++ [value]
  | block _ _ labels _ _ => labels
  | rel _ label kind source target values _ => label.toList ++ [kind, source, target] ++ values
  | mutate _ id _ _ _ => [id]
  | predicate _ args _ _ _ _ => args
  | within _ items _ => items
  | origin source via _ => source :: (via.map fun (kind, direction) => [kind, direction]).getD []
  | bare value _ => [value]

def body : Statement → List Statement
  | block _ _ _ body _ => body
  | _ => []

mutual

def tree : Statement → List Statement
  | block name quoted labels body s => block name quoted labels body s :: treeAll body
  | s => [s]

def treeAll : List Statement → List Statement
  | [] => []
  | s :: rest => s.tree ++ treeAll rest

end

theorem treeAll_eq (ss : List Statement) : treeAll ss = ss.flatMap tree := by
  induction ss with
  | nil => rfl
  | cons s ss ih => rw [treeAll, ih, List.flatMap_cons]

theorem tree_eq (s : Statement) : s.tree = s :: treeAll s.body := by
  cases s <;> rfl

theorem mem_tree_self (s : Statement) : s ∈ s.tree := by simp [tree_eq s]

theorem mem_treeAll {ss : List Statement} {s t : Statement} (hs : s ∈ ss) (ht : t ∈ s.tree) :
    t ∈ treeAll ss := by
  rw [treeAll_eq]
  exact List.mem_flatMap.2 ⟨s, hs, ht⟩

/-- The numbers that a statement holds itself. -/
def amounts : Statement → List Number
  | mutate _ _ _ amount _ => [amount]
  | predicate _ _ _ number upper _ => number :: upper.toList
  | _ => []

/-- The numbers of a statement, each with its span, those of its body left out. -/
def figures (s : Statement) : List (Number × Span) :=
  s.amounts.map (·, s.span) ++ s.values.flatMap Value.figures

end Statement

end Worldbook
