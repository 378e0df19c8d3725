import Worldbook.Item.Compile
import Worldbook.Source.Parser

/-!
# Compiling texts

A text compiles to records and diagnostics. A batch of texts is compiled text by text and merged in
order; of a collection that holds a single record the first declaration stays.
-/

namespace Worldbook

structure Entry where
  collection : Collection
  record : Record
  span : Span

structure Compilation where
  entries : List Entry
  diagnostics : List Diagnostic

/-! ## Numbers out of range -/

mutual

/-- The spans of the numbers in a value that no finite double holds. -/
def Value.overflows : Value → List Span
  | .num n span => if n.isFinite then [] else [span]
  | .array items _ => Value.overflowsAll items
  | .call _ args _ => Value.overflowsAll args
  | .object members _ => Value.overflowsMembers members
  | _ => []

def Value.overflowsAll : List Value → List Span
  | [] => []
  | v :: rest => v.overflows ++ Value.overflowsAll rest

def Value.overflowsMembers : List (String × Value) → List Span
  | [] => []
  | (_, v) :: rest => v.overflows ++ Value.overflowsMembers rest

end

mutual

/-- The spans of the numbers out of range in a statement. A number of the statement itself is put
at the whole statement, and a body comes before the labels of its block. -/
def Statement.overflows : Statement → List Span
  | .field _ _ labels value _ => Value.overflowsAll (labels ++ [value])
  | .block _ _ labels body _ => Statement.overflowsAll body ++ Value.overflowsAll labels
  | .rel _ label kind source target values _ =>
    Value.overflowsAll (label.toList ++ [kind, source, target] ++ values)
  | .mutate _ id _ amount span => (if amount.isFinite then [] else [span]) ++ id.overflows
  | .predicate _ args _ n upper span =>
    ((n :: upper.toList).filter (!·.isFinite)).map (fun _ => span) ++ Value.overflowsAll args
  | .within _ items _ => Value.overflowsAll items
  | .origin source via _ =>
    Value.overflowsAll (source :: match via with
      | some (kind, direction) => [kind, direction]
      | none => [])
  | .bare value _ => value.overflows

def Statement.overflowsAll : List Statement → List Span
  | [] => []
  | s :: rest => s.overflows ++ Statement.overflowsAll rest

end

/-! ## One text -/

open CompileM in
/-- The entries of items in order. `seen` holds the single-record collections already filled. -/
def compileItems : List Collection → List Item → CompileM (List Entry)
  | _, [] => return []
  | seen, i :: rest => do
    match ← i.compile with
    | none => compileItems seen rest
    | some record =>
      let entry : Entry := ⟨i.collection, record, i.statement.span⟩
      if i.collection.isList then return entry :: (← compileItems seen rest)
      else if seen.contains i.collection then
        report (.duplicateSingleton i.collection.block) i.statement.span
        compileItems seen rest
      else return entry :: (← compileItems (i.collection :: seen) rest)

namespace Compilation

def ofStatements (ss : List Statement) : Compilation :=
  let (entries, context) := (compileItems [] (Item.items ss)).run ⟨.empty, Item.reports ss⟩
  ⟨entries, context.diagnostics ++
    (Statement.overflowsAll ss).map Problem.numberOutOfRange.reported⟩

def hasErrors (c : Compilation) : Bool := c.diagnostics.any (·.isError)

def collectionValue? (c : Compilation) (collection : Collection) : Option Json :=
  match (c.entries.filter (·.collection.key == collection.key)).map (Json.obj ·.record) with
  | [] => none
  | first :: rest => some (if collection.isList then .arr (first :: rest) else first)

def config (c : Compilation) : Json :=
  .obj (Collection.all.filterMap fun collection =>
    (c.collectionValue? collection).map (Prod.mk collection.key))

end Compilation

def SyntaxError.diagnostic (e : SyntaxError) : Diagnostic :=
  ⟨.error, "syntax-error", e.message, some e.span⟩

/-- Compiles one text. A syntax error is all that is reported of its text. -/
def compile (file : FileId) (text : String) : Compilation :=
  match parse file text with
  | .ok statements => .ofStatements statements
  | .error e => ⟨[], [e.diagnostic]⟩

/-! ## Batches -/

namespace Compilation

/-- Entries whose single-record collection is not yet filled, the others as reports, and the
collections filled after them. -/
def keepFirst : List Collection → List Entry → List Entry × List Diagnostic × List Collection
  | seen, [] => ([], [], seen)
  | seen, e :: rest =>
    if e.collection.isList then
      let (kept, reports, seen) := keepFirst seen rest
      (e :: kept, reports, seen)
    else if seen.contains e.collection then
      let (kept, reports, seen) := keepFirst seen rest
      (kept, (Problem.duplicateSingleton e.collection.block).reported e.span :: reports, seen)
    else
      let (kept, reports, seen) := keepFirst (e.collection :: seen) rest
      (e :: kept, reports, seen)

/-- Diagnostics without a span come first, the others by where they start. -/
def startsBefore (a b : Diagnostic) : Bool :=
  match a.span, b.span with
  | none, _ => true
  | some _, none => false
  | some s, some t => s.start.offset ≤ t.start.offset

/-- Merges compilations in order; the diagnostics of each are sorted by offset. -/
def merge : List Collection → List Compilation → Compilation
  | _, [] => ⟨[], []⟩
  | seen, c :: rest =>
    let (kept, reports, seen) := keepFirst seen c.entries
    let merged := merge seen rest
    ⟨kept ++ merged.entries,
      (c.diagnostics ++ reports).mergeSort startsBefore ++ merged.diagnostics⟩

end Compilation

def compileFiles (files : List (FileId × String)) : Compilation :=
  Compilation.merge [] (files.map fun (file, text) => compile file text)

end Worldbook
