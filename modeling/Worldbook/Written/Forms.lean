import Worldbook.Written.Node

/-!
# Forms of a value

The same object can be written as a condition in one place and field by field in another. `Forms`
holds what a value becomes in each of these places, so that a language writes its own records and
asks for the forms of what they hold, without knowing how the other languages work. A form is
`none` where the value has no such shape.
-/

namespace Worldbook

structure Forms where
  /-- For each field of an object, the statements that write it. -/
  fields : List (String × List Node)
  /-- An object as an entry of a list in one of the languages. -/
  condition : Option Node
  filter : Option Node
  mutation : Option Node
  constraint : Option Node
  step : Option Node
  creation : Option Node
  /-- An object as the variable of a given name. -/
  binding : String → Option Node
  /-- An object as the body of a block. -/
  selection : Option (List Node)
  path : Option (List Node)
  bindings : Option (List Node)
  /-- A list as the body of a block. -/
  conditions : Option (List Node)
  filters : Option (List Node)
  mutations : Option (List Node)
  constraints : Option (List Node)
  steps : Option (List Node)
  creations : Option (List Node)

namespace Forms

def scalar : Forms where
  fields := []
  condition := none
  filter := none
  mutation := none
  constraint := none
  step := none
  creation := none
  binding := fun _ => none
  selection := none
  path := none
  bindings := none
  conditions := none
  filters := none
  mutations := none
  constraints := none
  steps := none
  creations := none

def ofItems (items : List Forms) : Forms :=
  { scalar with
    conditions := items.mapM (·.condition)
    filters := items.mapM (·.filter)
    mutations := items.mapM (·.mutation)
    constraints := items.mapM (·.constraint)
    steps := items.mapM (·.step)
    creations := items.mapM (·.creation) }

/-- The statements of a record body, without the fields in `skip`. -/
def body (f : Forms) (skip : List String) : List Node :=
  (f.fields.filter fun m => !skip.contains m.1).flatMap (·.2)

end Forms

abbrev Members := List (String × Json × Forms)

namespace Members

def record (ms : Members) : Record := ms.map fun m => (m.1, m.2.1)

/-- The forms of a member; an absent one has none. -/
def forms (ms : Members) (key : String) : Forms := ((List.lookup key ms).map (·.2)).getD .scalar

end Members

end Worldbook
