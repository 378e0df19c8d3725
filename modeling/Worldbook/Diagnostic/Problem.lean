import Worldbook.Diagnostic.Basic

/-!
# Problems

Everything that can be wrong with a text whose syntax is right. A problem fixes its severity, its
code and its wording; the place is added when it is reported.
-/

namespace Worldbook

inductive Problem where
  -- top level
  | unknownBlock (word : String) (quoted : Bool)
  | unexpectedAtTop (found : String)
  | containerLabels (container : String)
  | containerContent (container block found : String)
  | duplicateSingleton (block : String)
  | numberOutOfRange
  -- labels and rows
  | tooManyLabels (block : String) (allowed : Nat)
  | labelNotText (field found : String)
  | labelMismatch (field : String) (value label : Json)
  | missingId (block field : String)
  | rowNeedsId (block : String)
  | tagUsage
  | nameExpected (field found : String)
  | unpairedValues (count : Nat)
  | fieldNameExpected (found : String)
  -- record bodies
  | duplicateKey (key : String)
  | duplicateEntry (label name : String)
  | notAnObject (name : String)
  | labelsRejected (name : String)
  | nestedLabelNotText (found : String)
  | tooManyNestedLabels (name : String)
  | creationLabels
  | misplacedComparison (word : String)
  | unexpectedInBody (found : String)
  -- statements of a small language
  | unknownKeyword (language word : String) (quoted : Bool)
  | unexpectedInList (language found : String)
  | unexpectedShape (language word found : String)
  | missingArgument (word what : String)
  | wrongArgument (word what found : String)
  | extraArgument (word found : String)
  | needsBlock (word : String)
  | takesNoBlock (word : String)
  | rangeComparator (comparator : String)
  | strictComparator (comparator : String)
  | takesNoComparison (word : String)
  -- references
  | unresolvedReference (token : String)
  | notAReference (found : String)
  -- paths, selectors, variables
  | unknownCheck (check : String)
  | missingCheck
  | saturationUsage (direction : String)
  | originUsage
  | variableLabels
  | variableUsage (word name : String)
  | duplicateVariable (reference : String)
  -- mutations
  | unknownMutateTarget (target : String)
  | pressureIdExpected
  | writtenAs (word form : String)
  | transferUsage

namespace Problem

def severity : Problem → Severity
  | duplicateKey _ | duplicateEntry .. | duplicateVariable _ => .warning
  | _ => .error

def code : Problem → String
  | unknownBlock .. | unexpectedAtTop _ => "unknown-block"
  | containerContent .. => "container-content"
  | duplicateSingleton _ => "duplicate-singleton"
  | labelMismatch .. => "id-mismatch"
  | missingId .. | rowNeedsId _ | tagUsage | missingArgument .. | missingCheck | transferUsage =>
    "missing-field"
  | containerLabels _ | tooManyLabels .. | labelsRejected _ | tooManyNestedLabels _ | creationLabels
  | extraArgument .. | variableLabels => "unexpected-argument"
  | duplicateKey _ | duplicateEntry .. | duplicateVariable _ => "duplicate-key"
  | unknownKeyword .. | unexpectedInList .. | unknownMutateTarget _ => "unknown-keyword"
  | rangeComparator _ | strictComparator _ | takesNoComparison _ | saturationUsage _ =>
    "invalid-comparator"
  | unresolvedReference _ => "unresolved-reference"
  | _ => "type-mismatch"

def written (word : String) (quoted : Bool) : String :=
  if quoted then "\"" ++ word ++ "\"" else "'" ++ word ++ "'"

def message : Problem → String
  | unknownBlock word quoted => "Unknown top-level block " ++ written word quoted
  | unexpectedAtTop found => "Unexpected " ++ found ++ " at top level"
  | containerLabels container => "Container '" ++ container ++ "' takes no labels"
  | containerContent container block found =>
    "Container '" ++ container ++ "' may only hold '" ++ block ++ "' entries, found " ++ found
  | duplicateSingleton block => "Only one '" ++ block ++ "' block is allowed; keeping the first"
  | numberOutOfRange => "Number is out of range for a finite value"
  | tooManyLabels block allowed =>
    "'" ++ block ++ "' takes at most " ++ toString allowed ++ " label(s)"
  | labelNotText field found =>
    "The '" ++ field ++ "' label must be a name or string, found " ++ found
  | labelMismatch field value label =>
    "Field '" ++ field ++ "' is " ++ value.text ++ " but the block label says " ++ label.text ++
      "; keeping the label"
  | missingId block field =>
    "'" ++ block ++ "' block needs an id label or a '" ++ field ++ "' field"
  | rowNeedsId block => "'" ++ block ++ "' row needs an id"
  | tagUsage => "Tag rows are written 'tag id category rarity [\"description\"]'"
  | nameExpected field found => "Expected a name for '" ++ field ++ "', found " ++ found
  | unpairedValues count =>
    "Expected key/value pairs, found " ++ toString count ++ " trailing value(s)"
  | fieldNameExpected found => "Expected a field name, found " ++ found
  | duplicateKey key => "Duplicate key '" ++ key ++ "'; the later value wins"
  | duplicateEntry label name =>
    "Duplicate entry '" ++ label ++ "' in '" ++ name ++ "'; the later one wins"
  | notAnObject name => "'" ++ name ++ "' already holds a non-object value"
  | labelsRejected name => "'" ++ name ++ "' blocks take no labels"
  | nestedLabelNotText found => "Block label must be a name or string, found " ++ found
  | tooManyNestedLabels name => "Nested block '" ++ name ++ "' takes at most one label"
  | creationLabels => "'create ... do' takes only the entity reference"
  | misplacedComparison word =>
    "Comparison '" ++ word ++ "' is only valid in conditions and selectors"
  | unexpectedInBody found => "Unexpected " ++ found ++ " in a record body"
  | unknownKeyword language word quoted => "Unknown " ++ language ++ " " ++ written word quoted
  | unexpectedInList language found => "Unexpected " ++ found ++ " in " ++ language ++ " list"
  | unexpectedShape language word found =>
    "Unexpected " ++ found ++ " for " ++ language ++ " '" ++ word ++ "'"
  | missingArgument word what => "'" ++ word ++ "' needs " ++ what
  | wrongArgument word what found => "'" ++ word ++ "' expects " ++ what ++ ", found " ++ found
  | extraArgument word found => "Unexpected argument " ++ found ++ " for '" ++ word ++ "'"
  | needsBlock word => "'" ++ word ++ "' must be written as '" ++ word ++ " do ... end'"
  | takesNoBlock word => "'" ++ word ++ "' does not take a block"
  | rangeComparator comparator =>
    "A range 'n, m' is only valid after '==', not '" ++ comparator ++ "'"
  | strictComparator comparator =>
    "Strict comparator '" ++ comparator ++
      "' is not supported; bounds are inclusive, use '>=' or '<='"
  | takesNoComparison word => "'" ++ word ++ "' does not take a comparison"
  | unresolvedReference token =>
    "Unresolved reference '" ++ token ++ "'; declare it with create, let or rel first"
  | notAReference found => "Expected an entity reference, found " ++ found
  | unknownCheck check =>
    "Unknown path check '" ++ check ++ "'; expected exists, not_exists or count"
  | missingCheck => "graph_path needs a 'check' of exists, not_exists or count"
  | saturationUsage direction =>
    "Saturation limits are written '" ++ direction ++ " kind [fromKind] <= n'"
  | originUsage => "Expected 'from <entity> via <relationship> <direction>'"
  | variableLabels => "A variable block takes only its name"
  | variableUsage word name => "Expected '" ++ word ++ " " ++ name ++ " key value ...'"
  | duplicateVariable reference =>
    "Variable '" ++ reference ++ "' is declared twice; the later one wins"
  | unknownMutateTarget target =>
    "Unknown mutate target '" ++ target ++ "'; expected pressure or prominence"
  | pressureIdExpected => "Expected a pressure id"
  | writtenAs word form => "'" ++ word ++ "' is written as " ++ form
  | transferUsage =>
    "'transfer_relationship' is written 'transfer_relationship entity kind from a to b'"

def reported (p : Problem) (span : Span) : Diagnostic := ⟨p.severity, p.code, p.message, some span⟩

end Problem

end Worldbook
