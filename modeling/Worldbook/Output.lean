import Worldbook.Item.Write

/-!
# Writing a configuration

One file for each collection, in order. Records that cannot be told apart from others, because
they are no objects or have no id, are left out.
-/

namespace Worldbook

inductive SortOrder where
  | preserve
  /-- By the id field, in code point order. -/
  | byId
  | custom (compare : Json → Json → Ordering)

structure OutputOptions where
  /-- Also write a file for a collection without records. -/
  includeEmpty : Bool
  sort : SortOrder
  /-- Blanks for each level. -/
  indent : Nat
  /-- The extension of file names, without its point. -/
  extension : String

namespace OutputOptions

def standard : OutputOptions := ⟨false, .byId, 2, "wdsl"⟩

end OutputOptions

structure OutputFile where
  name : String
  content : String
deriving DecidableEq

inductive OutputError where
  | notAnObject (found : String)
  | collectionShape (collection expected found : String)
deriving DecidableEq

def OutputError.message : OutputError → String
  | notAnObject found => "configuration must be a JSON object, found " ++ found
  | collectionShape collection expected found =>
    "collection '" ++ collection ++ "' must be " ++ expected ++ ", found " ++ found

def Json.describe : Json → String
  | .null => "null"
  | .bool _ => "a boolean"
  | .num _ => "a number"
  | .str _ => "a string"
  | .arr _ => "an array"
  | .obj _ => "an object"

namespace Output

/-- A record that has the id its collection asks for. -/
def record? (c : Collection) (v : Json) : Option Record := do
  let o ← v.object?
  match c.requiredId? with
  | none => return o
  | some field =>
    let _ ← Written.text? o field
    return o

def records (c : Collection) : Option Json → Except OutputError (List Record)
  | none | some .null => .ok []
  | some v =>
    if c.isList then
      match v with
      | .arr items => .ok (items.filterMap (record? c))
      | _ => .error (.collectionShape c.key "an array" v.describe)
    else
      match v with
      | .obj o => .ok [o]
      | _ => .error (.collectionShape c.key "an object" v.describe)

/-- A record without the field comes before any with it. -/
def idBefore (field : String) (a b : Record) : Bool :=
  match Written.text? a field, Written.text? b field with
  | none, _ => true
  | some _, none => false
  | some s, some t => !decide (t < s)

/-- The records of a collection in order; equals stay as they are. -/
def sorted (c : Collection) (order : SortOrder) (records : List Record) : List Record :=
  match order with
  | .preserve => records
  | .byId =>
    match c.idField with
    | some field => records.mergeSort (idBefore field)
    | none => records
  | .custom compare => records.mergeSort fun a b => compare (.obj a) (.obj b) != .gt

def content (c : Collection) (indent : Nat) (records : List Record) : String :=
  String.intercalate "\n" (records.map fun o => (Item.write c o).text indent 0)

def file? (options : OutputOptions) (config : Record) (c : Collection) :
    Except OutputError (Option OutputFile) := do
  let found ← records c (config.get? c.key)
  if found.isEmpty && !options.includeEmpty then return none
  return some ⟨c.file ++ "." ++ options.extension,
    content c options.indent (sorted c options.sort found)⟩

end Output

def writeFiles (options : OutputOptions) (config : Json) : Except OutputError (List OutputFile) :=
  match config with
  | .obj members => do
    return (← Collection.all.mapM (Output.file? options members)).filterMap id
  | other => .error (.notAnObject other.describe)

end Worldbook
