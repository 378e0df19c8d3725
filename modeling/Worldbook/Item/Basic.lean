import Worldbook.Collection
import Worldbook.Diagnostic.Problem
import Worldbook.Source.Statement

/-!
# Top-level items

Every statement at the top of a text is a block, a row or a relationship of one collection, or a
container of such. What is none of these is reported and left out.
-/

namespace Worldbook

inductive Item.Form where
  | block
  | row
  | rel
deriving DecidableEq, Repr

structure Item where
  form : Item.Form
  collection : Collection
  statement : Statement

namespace Item

def ofStatement? (s : Statement) : Option Item :=
  match s with
  | .block name .. => (Collection.ofBlock? name).map fun c => ⟨.block, c, s⟩
  | .field key .. => ((Collection.ofBlock? key).filter (·.isList)).map fun c => ⟨.row, c, s⟩
  | .rel key .. =>
    if key = "seed_relationship" then (Collection.ofBlock? key).map fun c => ⟨.rel, c, s⟩ else none
  | _ => none

def inContainer? (c : Collection) (s : Statement) : Option Item :=
  match s with
  | .block name false .. => if name = c.block then some ⟨.block, c, s⟩ else none
  | .field key false .. => if key = c.block then some ⟨.row, c, s⟩ else none
  | .rel .. => if c.kind = .relationship then some ⟨.rel, c, s⟩ else none
  | _ => none

/-- The collection that a statement is a container of. A block of a collection is none. -/
def containerOf? : Statement → Option Collection
  | .block name false .. =>
    if (Collection.ofBlock? name).isSome then none else Collection.ofContainer? name
  | _ => none

def contents (c : Collection) (container : String) (body : List Statement) :
    List (Except Diagnostic Item) :=
  body.map fun s =>
    match inContainer? c s with
    | some item => .ok item
    | none => .error ((Problem.containerContent container c.block s.describe).reported s.span)

def unknown (s : Statement) : Problem :=
  match s.keyword? with
  | some word => .unknownBlock word s.isQuoted
  | none => .unexpectedAtTop s.describe

/-- The items of one statement, with the reports in their place. -/
def outcomes (s : Statement) : List (Except Diagnostic Item) :=
  if s.isQuoted then [.error ((unknown s).reported s.span)]
  else match containerOf? s, s with
    | some c, .block name _ labels body _ =>
      (labels.head?.map fun l => .error ((Problem.containerLabels name).reported l.span)).toList ++
        contents c name body
    | _, _ =>
      match ofStatement? s with
      | some item => [.ok item]
      | none => [.error ((unknown s).reported s.span)]

def items (ss : List Statement) : List Item :=
  (ss.flatMap outcomes).filterMap fun
    | .ok item => some item
    | .error _ => none

def reports (ss : List Statement) : List Diagnostic :=
  (ss.flatMap outcomes).filterMap fun
    | .ok _ => none
    | .error d => some d

end Item

end Worldbook
