import Worldbook.Written.Literal

/-!
# Statements to be written

A line of words, or a block with a header of words. Lines are put on paper at the end, with the
indentation of their depth.
-/

namespace Worldbook

inductive Node where
  | line (words : List String)
  | block (header : List String) (body : List Node)

namespace Node

def indented (width : Nat) (words : List String) : String :=
  String.ofList (List.replicate width ' ') ++ String.intercalate " " words ++ "\n"

mutual

/-- The text of a statement, `width` being its indentation and `indent` what a level adds. -/
def text (indent width : Nat) : Node → String
  | .line words => indented width words
  | .block header [] => indented width (header ++ ["do", "end"])
  | .block header (first :: rest) =>
    indented width (header ++ ["do"]) ++ texts indent (width + indent) (first :: rest) ++
      indented width ["end"]

def texts (indent width : Nat) : List Node → String
  | [] => ""
  | n :: rest => text indent width n ++ texts indent width rest

end

end Node

namespace Written

def text? (o : Record) (key : String) : Option String := (o.get? key).bind Json.string?

/-- The string under a key, if the key is present; `none` when something else stands there. -/
def optionalText? (o : Record) (key : String) : Option (Option String) :=
  match o.get? key with
  | none => some none
  | some (.str s) => some (some s)
  | some _ => none

def number? (o : Record) (key : String) : Option String :=
  ((o.get? key).bind Json.number?).map number

def hasOnly (o : Record) (fields : List String) : Bool := o.hasOnly ("type" :: fields)

def strings? : Json → Option (List String)
  | .arr [] => none
  | .arr items => items.mapM Json.string?
  | _ => none

/-- The comparison of `min` and `max`, without words when neither is there; `none` when a bound is
no number. -/
def bounds? (o : Record) : Option (List String) :=
  match o.get? "min", o.get? "max" with
  | none, none => some []
  | some (.num low), none => some [">=", number low]
  | none, some (.num high) => some ["<=", number high]
  | some (.num low), some (.num high) =>
    if low.same high then some ["==", number low] else some ["==", number low ++ ",", number high]
  | _, _ => none

def requiredBounds? (o : Record) : Option (List String) := (bounds? o).filter (!·.isEmpty)

def marked (word : String) (write : String → String) : Option String → List String
  | some s => [word, write s]
  | none => []

/-- The alias of a record, if it has one; `none` when it is not a binding. -/
def aliasWord? (o : Record) : Option (List String) := do
  match ← optionalText? o "as" with
  | none => return []
  | some s => return [← alias? s]

/-- A relationship on one line, `word [$alias] kind source -> target [strength] [key value]*`; the
fields in `skip` are written elsewhere. -/
def relationship? (word : String) (o : Record) (skip : List String) : Option Node := do
  let bound ← aliasWord? o
  let kind ← text? o "kind"
  let source ← text? o "src"
  let target ← text? o "dst"
  let strength := number? o "strength"
  let written := ["kind", "src", "dst", "as"] ++ skip ++ (strength.map fun _ => "strength").toList
  let pairs ← pairs? (o.filter fun m => !written.contains m.1)
  return .line (word :: bound ++ [string kind, reference source, "->", reference target] ++
    strength.toList ++ pairs)

end Written

end Worldbook
