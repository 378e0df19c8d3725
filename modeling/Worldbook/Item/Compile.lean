import Worldbook.Body.Compile
import Worldbook.Item.Basic

/-!
# Compiling items

An item becomes one record. Labels and the leading values of a row fill the fields that its
collection names; they win over fields of the same name in the body.
-/

namespace Worldbook.Item

open CompileM

/-! ## Blocks -/

/-- The fields of the labels from number `i` on. Only the first label has to be right. -/
def labelFields (c : Collection) : Nat → List Value → Attempt Record
  | _, [] => return []
  | i, label :: rest =>
    match c.labelFields[i]?.join with
    | none => do
      report (.tooManyLabels c.block (c.labelFields.filterMap id).length) label.span
      return []
    | some field =>
      match label.text? with
      | some text => do return textField field text :: (← labelFields c (i + 1) rest)
      | none => do
        report (.labelNotText field label.describe) label.span
        if i = 0 then failure
        labelFields c (i + 1) rest

/-- The fields that no label gives; a field that contradicts its label is reported. -/
def unlabelled (labels : Record) (place : String → Span) : Record → CompileM Record
  | [] => return []
  | (key, value) :: rest => do
    match labels.get? key with
    | some label =>
      if !value.same label then report (.labelMismatch key value label) (place key)
      unlabelled labels place rest
    | none =>
      let more ← unlabelled labels place rest
      return (key, value) :: more

def placeOf (body : List Statement) (block : Span) (key : String) : Span :=
  ((body.find? (·.keyword? == some key)).map Statement.span).getD block

/-- An item as a block, `culture elves "Elves" do ... end`. -/
def blockRecord (c : Collection) (labels : List Value) (body : List Statement) (span : Span) :
    Attempt Record := do
  let labels ← labelFields c 0 labels
  let fields ← Body.fields (Statement.children body) []
  let rest ← unlabelled labels (placeOf body span) fields
  let record := labels ++ rest
  match c.requiredId? with
  | none => return record
  | some field =>
    if Record.has record field then return record
    else reject (.missingId c.block field) span

/-! ## Rows -/

def leadingText (values : List Value) : Option String × List Value :=
  match values with
  | .str text _ :: rest => if values.length % 2 = 1 then (some text, rest) else (none, values)
  | _ => (none, values)

/-- A tag on one line, `tag id category rarity ["description"] [key value]*`. -/
def tagRow (values : List Value) (span : Span) : Attempt Record := do
  match values with
  | tag :: category :: rarity :: rest =>
    let tag ← rowText "tag" tag
    let category ← rowText "category" category
    let rarity ← rowText "rarity" rarity
    let (description, rest) := leadingText rest
    pairFields rest span
      ([textField "tag" tag, textField "category" category, textField "rarity" rarity] ++
        optionalText "description" description)
  | _ => reject .tagUsage span

/-- An item on one line, `culture elves ["Elves"] [key value]*`. -/
def keyedRow (c : Collection) (idField : String) (values : List Value) (span : Span) :
    Attempt Record := do
  match values with
  | [] => reject (.rowNeedsId c.block) span
  | id :: rest =>
    let id ← rowText idField id
    let (name, rest) := match c.nameField with
      | none => ([], rest)
      | some field =>
        let (name, rest) := leadingText rest
        (optionalText field name, rest)
    pairFields rest span (textField idField id :: name)

def rowRecord (c : Collection) (values : List Value) (span : Span) : Attempt Record :=
  if c.block = "tag" then tagRow values span
  else match c.idField with
    | some field => keyedRow c field values span
    | none => pairFields values span []

/-! ## Items -/

def record (i : Item) : Attempt Record :=
  match i.form, i.statement with
  | .block, .block _ _ labels body span => blockRecord i.collection labels body span
  | .row, s => rowRecord i.collection s.positional s.span
  | .rel, s => s.relationship false
  | _, _ => failure

/-- The record of an item, which sees no binding of another item. -/
def compile (i : Item) : CompileM (Option Record) := do
  modify fun c => { c with scope := .empty }
  i.record.run

end Worldbook.Item
