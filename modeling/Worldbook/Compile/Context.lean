import Worldbook.Compile.Literal
import Worldbook.Diagnostic.Problem
import Worldbook.Source.Statement

/-!
# Compiling with reports

Compiling goes on after a problem: it reports, and leaves out the statement at fault. An `Attempt`
may give up; whatever it reported or declared before stays.
-/

namespace Worldbook

/-- What a compile pass carries along: the bindings of the item at hand, and the reports of all
items so far. -/
structure Context where
  scope : Scope
  diagnostics : List Diagnostic

abbrev CompileM := StateM Context

abbrev Attempt := OptionT CompileM

namespace CompileM

def report (problem : Problem) (span : Span) : CompileM Unit :=
  modify fun c => { c with diagnostics := c.diagnostics ++ [problem.reported span] }

def reject {α : Type} (problem : Problem) (span : Span) : Attempt α := do
  report problem span
  failure

/-- Runs attempts in order and keeps what succeeds. -/
def collect {α β : Type} (attempt : α → Attempt β) : List α → CompileM (List β)
  | [] => return []
  | x :: rest => do
    let found ← (attempt x).run
    let more ← collect attempt rest
    return found.toList ++ more

def thread {α σ : Type} (step : α → σ → CompileM σ) : List α → σ → CompileM σ
  | [], state => return state
  | x :: rest, state => do thread step rest (← step x state)

def orElseKeep {σ : Type} (attempt : Attempt σ) (state : σ) : CompileM σ := do
  return (← attempt.run).getD state

/-! ## Bindings -/

def declare (name : String) : CompileM String :=
  modifyGet fun c =>
    let (scope, reference) := c.scope.declare name
    (reference, { c with scope := scope })

def aliasField : Option String → CompileM Record
  | none => return []
  | some name => do
    let bound ← declare name
    return [("as", .str bound)]

/-- A value where a reference may stand. -/
def reference (v : Value) : CompileM Json := return v.resolved (← get).scope

def optionalReference (key : String) : Option Value → CompileM Record
  | none => return []
  | some v => return [(key, ← reference v)]

def fieldValue (key : String) (v : Value) : CompileM Json := return v.underKey (← get).scope key

/-- A value that must refer to a binding. -/
def requiredReference (v : Value) : Attempt Json :=
  match v with
  | .name token span => do
    match (← get).scope.require? token with
    | some found => return .str found
    | none => reject (.unresolvedReference token) span
  | .str text _ => return .str text
  | other => reject (.notAReference other.describe) other.span

/-! ## Fields -/

/-- Sets a field, with a warning when it was set before. -/
def setField (key : String) (value : Json) (span : Span) (r : Record) : CompileM Record := do
  if r.has key then report (.duplicateKey key) span
  return r.set key value

/-- Sets a key of the object under `name`, which is made when missing. `duplicate` is the warning
for a key set before. -/
def setEntry (name key : String) (value : Json) (duplicate : Problem) (span : Span) (r : Record) :
    CompileM Record := do
  match (r.get? name).getD (.obj []) with
  | .obj held =>
    if Record.has held key then report duplicate span
    return r.set name (.obj (Record.set held key value))
  | _ =>
    report (.notAnObject name) span
    return r

def rowText (field : String) (v : Value) : Attempt String :=
  match v.text? with
  | some text => return text
  | none => reject (.nameExpected field v.describe) v.span

def setPairs : List Value → Record → Attempt Record
  | key :: value :: rest, r => do
    match key.key? with
    | none => reject (.fieldNameExpected key.describe) key.span
    | some word =>
      let r ← setField word (← fieldValue word value) key.span r
      setPairs rest r
  | _, r => return r

/-- Sets the fields of `key value` pairs; a value without its partner is refused before any. -/
def pairFields (values : List Value) (span : Span) (r : Record) : Attempt Record :=
  if values.length % 2 = 1 then
    reject (.unpairedValues values.length) ((values.getLast?.map Value.span).getD span)
  else setPairs values r

def unknownKeyword (language : String) (s : Statement) : CompileM Unit :=
  report (match s.keyword? with
    | some word => .unknownKeyword language word s.isQuoted
    | none => .unexpectedInList language s.describe) s.span

end CompileM

/-- The strength in `[strength] [key value]*`, which follow the ends of a relationship. -/
def strengthFirst : List Value → Record × List Value
  | .num n _ :: rest => ([("strength", .ofNumber n)], rest)
  | values => ([], values)

open CompileM in
/-- Both ends of a relationship. Ends that are required are both looked up before giving up. -/
def relationshipEnds (required : Bool) (source target : Value) : Attempt (Json × Json) := do
  if required then
    let first : Option Json ← OptionT.lift (requiredReference source).run
    let second : Option Json ← OptionT.lift (requiredReference target).run
    match first, second with
    | some first, some second => return (first, second)
    | _, _ => failure
  else
    let first ← reference source
    let second ← reference target
    return (first, second)

open CompileM in
def labelAlias : Option Value → Attempt Record
  | none => return []
  | some label => do
    let name ← rowText "as" label
    aliasField (some name)

open CompileM in
/-- The record of a relationship line. The ends must be bound when `required`; elsewhere they
resolve if they can. -/
def Statement.relationship (required : Bool) : Statement → Attempt Record
  | .rel _ label kind source target values span => do
    let kind ← rowText "kind" kind
    let (first, second) ← relationshipEnds required source target
    let (strength, rest) := strengthFirst values
    let bound ← labelAlias label
    pairFields rest span
      ([("kind", .str kind), ("src", first), ("dst", second)] ++ strength ++ bound)
  | _ => failure

end Worldbook
