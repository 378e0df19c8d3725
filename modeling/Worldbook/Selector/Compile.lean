import Worldbook.Compile.Nested

/-!
# Compiling selections and variables

The statements of `selection`, `actor` and `target` blocks, and the `let` statements that bind what
such a selection finds.
-/

namespace Worldbook.Selector

open CompileM

def directions : List String := ["inbound", "outbound", "both"]

def plural? : String → Option String
  | "kind" | "kinds" => some "kinds"
  | "subtype" | "subtypes" => some "subtypes"
  | "status" | "statuses" => some "statuses"
  | _ => none

/-! ## Selections -/

def pick (s : Statement) (r : Record) : Attempt Record := do
  let (strategy, args) ← (Args.of s).text "a pick strategy"
  args.finish
  setField "pickStrategy" (.str strategy) s.span r

def most (s : Statement) (r : Record) : Attempt Record := do
  let (n, args) ← (Args.of s).number "a result count"
  args.finish
  setField "maxResults" (.ofNumber n) s.span r

def single (key field : String) (value : Value) (span : Span) (r : Record) : CompileM Record := do
  match value with
  | .array .. => setField field value.literal span r
  | _ =>
    match value.text? with
    | some text => setField key (.str text) span r
    | none =>
      report (.wrongArgument key "a name" value.describe) value.span
      return r

def field (key : String) (labels : List Value) (value : Value) (span : Span) (r : Record) :
    CompileM Record := do
  let s := Statement.field key false labels value span
  if key = "pick" || key = "strategy" then orElseKeep (pick s r) r
  else if key = "max" then orElseKeep (most s r) r
  else match plural? key with
    | some plural =>
      if labels.isEmpty && key != plural then single key plural value span r
      else setField plural (.arr (Value.literals (Args.of s).flat)) span r
    | none =>
      unknownKeyword "selector statement" s
      return r

/-- A limit `inbound kind [fromKind] <= n`: at most so many relationships. -/
def saturation (s : Statement) (direction : String) (comparator : Comparator) (n : Number)
    (upper : Option Number) (r : Record) : Attempt Record := do
  if comparator != .le || upper.isSome then reject (.saturationUsage direction) s.span
  let (kind, args) ← (Args.of s).text "a relationship kind"
  let (fromKind, args) := args.text?
  args.finish
  let limit := [textField "direction" direction, textField "relationshipKind" kind] ++
    optionalText "fromKind" fromKind ++ [("maxCount", .ofNumber n)]
  return r.extend "saturationLimits" [.obj limit]

def origin (source : Value) (via : Option (Value × Value)) (span : Span) : Attempt Json := do
  match via with
  | none => if source.isWord "graph" then return .str "graph" else reference source
  | some (kind, direction) =>
    match kind.text?, direction.text? with
    | some kind, some direction =>
      let source ← reference source
      return .obj [("relatedTo", source), textField "relationshipKind" kind,
        textField "direction" direction]
    | _, _ => reject .originUsage span

def part (c : Child) (r : Record) : CompileM Record := do
  let (s, nested) := c
  match s with
  | .field key true labels value span => setField key (Value.fieldLiteral labels value) span r
  | .field key false labels value span => field key labels value span r
  | .block name true _ _ span => setField name (.obj (← nested.fields [])) span r
  | .block name false labels _ _ =>
    if labels.isEmpty && (name = "filters" || name = "preferFilters") then
      return r.extend name (← nested.filters)
    else
      unknownKeyword "selector statement" s
      return r
  | .within (some key) items span =>
    match plural? key with
    | some plural => setField plural (.arr (Value.literals items)) span r
    | none =>
      unknownKeyword "selector statement" s
      return r
  | .predicate direction _ comparator n upper _ =>
    if directions.contains direction then orElseKeep (saturation s direction comparator n upper r) r
    else
      unknownKeyword "selector statement" s
      return r
  | .origin source via span =>
    orElseKeep (do setField "from" (← origin source via span) span r) r
  | _ =>
    unknownKeyword "selector statement" s
    return r

def compile (body : List Child) (r : Record) : CompileM Record := thread part body r

/-! ## Variables -/

/-- The flag `required true` of a variable; a value of another kind leaves it as it was. -/
def requiredFlag (value : Value) (held : Option Bool) : CompileM (Option Bool) := do
  match value.bool? with
  | some flag => return some flag
  | none =>
    report (.wrongArgument "required" "true or false" value.describe) value.span
    return held

def bindingPart : Child → Binding → CompileM Binding
  | (.block "select" false [] _ _, nested), b =>
    return { b with select := ← nested.selection b.select }
  | (.field "required" false [] value _, _), b =>
    return { b with required := ← requiredFlag value b.required }
  | (.bare (.name "required" _) _, _), b => return { b with required := some true }
  | c, b => return { b with select := ← part c b.select }

def binding (body : List Child) : CompileM Binding := thread bindingPart body ⟨[], none⟩

def bindingPairs : List Value → Binding → CompileM Binding
  | key :: value :: rest, b => do
    let word := (key.text?).getD ""
    let b ← if word = "required" then
        pure { b with required := ← requiredFlag value b.required }
      else
        pure { b with select := ← field word [] value (key.span.join value.span) b.select }
    bindingPairs rest b
  | _, b => return b

def bindingOf (s : Statement) (nested : Nested) (name : String) (more : List Value) :
    Attempt Binding := do
  if s.isBlock then
    if let extra :: _ := more then report .variableLabels extra.span
    nested.binding
  else if (Value.pairs? more).isNone then reject (.variableUsage s.keyword name) s.span
  else bindingPairs more ⟨[], none⟩

/-- A variable, `let $name do ... end` or `let $name key value ...`, recorded under `variables`. The
name is bound after its body, so that the body cannot refer to it. -/
def declaration (s : Statement) (nested : Nested) (r : Record) : Attempt Record := do
  match s.positional with
  | first :: more =>
    match first.text? with
    | some name =>
      let b ← bindingOf s nested name more
      let entry := ("select", .obj b.select) ::
        (b.required.map fun f => ("required", Json.bool f)).toList
      let reference ← declare name
      setEntry "variables" reference (.obj entry) (.duplicateVariable reference) s.span r
    | none => reject (.missingArgument s.keyword "a variable name") s.span
  | [] => reject (.missingArgument s.keyword "a variable name") s.span

end Worldbook.Selector
