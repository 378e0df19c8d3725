import Worldbook.Body.Write
import Worldbook.Item.Basic

/-!
# Writing items

A record is written in the shortest form it has: the one-line form of its collection, a row of
`key value` pairs, or a block.
-/

namespace Worldbook.Item

open Written

/-! ## One-line forms -/

def description? (o : Record) (key : String) : Option (List String) := do
  return ((← optionalText? o key).map quote).toList

/-- A tag, `tag id category rarity ["description"]`. -/
def tagLine? (o : Record) : Option Node := do
  if !o.hasOnly ["tag", "category", "rarity", "description"] then none
  return .line (["tag", string (← text? o "tag"), string (← text? o "category"),
    string (← text? o "rarity")] ++ (← description? o "description"))

/-- An axis, `axis id ["Name"] low -> high ["description"]`. -/
def axisLine? (o : Record) : Option Node := do
  if !o.hasOnly ["id", "name", "lowTag", "highTag", "description"] then none
  return .line (["axis", string (← text? o "id")] ++ (← description? o "name") ++
    [string (← text? o "lowTag"), "->", string (← text? o "highTag")] ++
    (← description? o "description"))

def kinds? (o : Record) (key : String) : Option String := do
  let v ← o.get? key
  match ← strings? v with
  | [single] => return string single
  | _ => return value v

/-- A kind of relationship, `relationship_kind kind source -> target ["description"]`. -/
def relationshipKindLine? (o : Record) : Option Node := do
  if !o.hasOnly ["kind", "srcKinds", "dstKinds", "description"] then none
  return .line (["relationship_kind", string (← text? o "kind"), ← kinds? o "srcKinds", "->",
    ← kinds? o "dstKinds"] ++ (← description? o "description"))

def shortLine? (c : Collection) (o : Record) : Option Node :=
  match c.block with
  | "tag" => tagLine? o
  | "axis" => axisLine? o
  | "relationship_kind" => relationshipKindLine? o
  | "seed_relationship" => relationship? "seed_relationship" o []
  | _ => none

/-! ## Rows and blocks -/

def labels (c : Collection) (o : Record) : List String × List String :=
  match c.idField with
  | none => ([c.block], [])
  | some idField =>
    match text? o idField with
    | none => ([c.block], [])
    | some id =>
      match c.nameField.bind fun field => (text? o field).map (Prod.mk field) with
      | none => ([c.block, string id], [idField])
      | some (field, name) => ([c.block, string id, quote name], [idField, field])

def row? (c : Collection) (o : Record) : Option Node := do
  if c.kind ≠ .keyed || c.block = "tag" then none
  let (words, skip) := labels c o
  return .line (words ++ (← pairs? (o.filter fun m => !skip.contains m.1)))

def block (c : Collection) (o : Record) : Node :=
  let (words, skip) := labels c o
  .block words ((Json.obj o).forms.body skip)

def write (c : Collection) (o : Record) : Node :=
  match shortLine? c o with
  | some line => line
  | none => (row? c o).getD (block c o)

end Worldbook.Item
