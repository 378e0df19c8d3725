import Worldbook.Compile.Args

/-!
# Readings of a nested body

The body of a block is read by the language that the block belongs to: the same statements are
fields in one place, conditions in another. `Nested` holds the reading of a body in each language,
so that a language compiles its own statements and asks for the readings of their bodies, without
knowing how the other languages work.
-/

namespace Worldbook

structure Branches where
  conditions : Option (List Json)
  consequence : Option (List Json)
  alternative : Option (List Json)

structure Binding where
  select : Record
  required : Option Bool

structure Nested where
  /-- Fields on top of a record. -/
  fields : Record → CompileM Record
  conditions : CompileM (List Json)
  filters : CompileM (List Json)
  mutations : CompileM (List Json)
  /-- The constraints of a path. -/
  constraints : CompileM (List Json)
  /-- The path assertion of the block with the given span. -/
  path : Span → CompileM Record
  /-- The details of one step of a path. -/
  step : Record → CompileM Record
  /-- The parts of a selection on top of a record. -/
  selection : Record → CompileM Record
  /-- The parts of a variable. -/
  binding : CompileM Binding
  /-- The branches of a conditional. -/
  branches : CompileM Branches

abbrev Child := Statement × Nested

end Worldbook
