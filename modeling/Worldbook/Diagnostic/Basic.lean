import Worldbook.Json.Text
import Worldbook.Source.Span

/-!
# Diagnostics

What a compile pass reports: a severity, a code, a message, and where there is one a span.
-/

namespace Worldbook

inductive Severity where
  | error
  | warning
deriving DecidableEq, Repr

def Severity.text : Severity → String
  | error => "error"
  | warning => "warning"

structure Diagnostic where
  severity : Severity
  code : String
  message : String
  span : Option Span
deriving DecidableEq

def Position.json (p : Position) : Json :=
  .obj [("line", .num (.int p.line)), ("column", .num (.int p.column)),
    ("offset", .num (.int p.offset))]

def Span.json (s : Span) : Json :=
  .obj [("file", .num (.int s.file)), ("start", s.start.json), ("end", s.stop.json)]

/-- A line and column for readers, who count from one. -/
def Position.display (p : Position) : String := s!"{p.line + 1}:{p.column + 1}"

def Span.display (s : Span) : String :=
  let start := s!"file#{s.file}:" ++ s.start.display
  if s.start = s.stop then start else start ++ "-" ++ s.stop.display

namespace Diagnostic

def isError (d : Diagnostic) : Bool := d.severity = .error

def display (d : Diagnostic) : String :=
  let place := match d.span with
    | some s => s.display ++ ": "
    | none => ""
  place ++ d.severity.text ++ ": " ++ d.message ++ " (" ++ d.code ++ ")"

def json (d : Diagnostic) : Json :=
  .obj ([("severity", .str d.severity.text), ("code", .str d.code), ("message", .str d.message)] ++
    (d.span.map fun s => ("span", s.json)).toList)

def jsonText (ds : List Diagnostic) : String := (Json.arr (ds.map json)).text

end Diagnostic

end Worldbook
