import Worldbook.Scope
import Worldbook.Variable.References

/-!
# Order of variables

Variables are written so that each follows the ones its value mentions. A counter for each variable
says how many of its mentions are still to come. Of the variables whose counter is at zero, the one
declared first comes next and takes one off the counters of those that mention it; what lies on or
behind a cycle never gets to zero and keeps its order at the end.
-/

namespace Worldbook.Variables

/-- The place of the variable that a mention stands for: the last one declared with that name. -/
def place? (vars : Record) (name : String) : Option Nat :=
  (vars.zipIdx.reverse.find? fun m => Scope.baseOf m.1.1 == name).map (·.2)

/-- The places of the variables that the value of the variable `key` mentions, its own place `i`
left out. -/
def mentionedPlaces (vars : Record) (key : String) (i : Nat) : List Nat :=
  match vars.get? key with
  | none => []
  | some value => (value.references.filterMap (place? vars)).filter (· != i)

structure Waits where
  /-- For each place, the places of the variables that mention it. -/
  dependents : List (List Nat)
  /-- For each place, how many places its variable mentions. -/
  inDegree : List Nat

def Waits.add (i : Nat) (w : Waits) (dep : Nat) : Waits :=
  { dependents := w.dependents.modify dep (· ++ [i]), inDegree := w.inDegree.modify i (· + 1) }

def waits (vars : Record) : Waits :=
  (vars.map (·.1)).zipIdx.foldl (fun w m => (mentionedPlaces vars m.1 m.2).foldl (Waits.add m.2) w)
    { dependents := List.replicate vars.length [], inDegree := List.replicate vars.length 0 }

/-- Puts a place among ascending ones, where it stands once. -/
def insertPlace (i : Nat) : List Nat → List Nat
  | [] => [i]
  | k :: rest => if i < k then i :: k :: rest else if i = k then k :: rest else k :: insertPlace i rest

structure Tally where
  inDegree : List Nat
  /-- The places whose variables come next, ascending. -/
  ready : List Nat
  emitted : List Bool
  order : List String

namespace Tally

def isPending (t : Tally) (i : Nat) : Bool := t.emitted[i]? == some false

/-- Takes one off the counter at a place, which is ready at zero. A counter that is at zero already
has nothing to take off. -/
def release (t : Tally) (i : Nat) : Option Tally :=
  match t.inDegree[i]? with
  | some (count + 1) =>
    some { t with
      inDegree := t.inDegree.set i count
      ready := if count = 0 then insertPlace i t.ready else t.ready }
  | _ => none

/-- The variable at place `i` comes next, and `ready` are the other places that are ready. -/
def emit (keys : List String) (dependents : List (List Nat)) (t : Tally) (i : Nat) (ready : List Nat) :
    Option Tally := do
  let key ← keys[i]?
  let released ← dependents[i]?
  released.foldlM release { t with ready, emitted := t.emitted.set i true, order := t.order ++ [key] }

/-- Emits the lowest ready place as long as there is one, at most `rounds` times. -/
def drain (keys : List String) (dependents : List (List Nat)) (rounds : Nat) (t : Tally) :
    Option Tally :=
  match t.ready, rounds with
  | [], _ => some t
  | _ :: _, 0 => none
  | i :: ready, rounds + 1 => do drain keys dependents rounds (← t.emit keys dependents i ready)

def left (keys : List String) (t : Tally) : List String :=
  (keys.zipIdx.filter fun m => t.isPending m.2).map (·.1)

end Tally

def tally (vars : Record) : Tally where
  inDegree := (waits vars).inDegree
  ready := (List.range vars.length).filter fun i => (waits vars).inDegree[i]? == some 0
  emitted := List.replicate vars.length false
  order := []

/-- Nothing where a counter would fall below zero or the rounds do not suffice. -/
def order? (vars : Record) : Option (List String) := do
  let keys := vars.map (·.1)
  let t ← (tally vars).drain keys (waits vars).dependents keys.length
  some (t.order ++ t.left keys)

def order (vars : Record) : List String := (order? vars).getD []

end Worldbook.Variables
