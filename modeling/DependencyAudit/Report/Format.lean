import DependencyAudit.Json.Printer
import DependencyAudit.Report.Text

/-!
# Report formats

A report is printed as text or as one JSON object with the two lists of names
and the number of issues.  The JSON report has no colours.
-/

namespace DependencyAudit.Report

inductive Format where
  | text
  | json
  deriving DecidableEq, Repr

def Format.name : Format → String
  | .text => "text"
  | .json => "json"

def Format.ofName (name : String) : Except Abort Format :=
  if name = Format.text.name then .ok .text
  else if name = Format.json.name then .ok .json
  else .error (.unknownFormat name)

def jsonValue (analysis : Analysis) : Json :=
  .object [
    ("unused", .array (analysis.unused.map Json.string)),
    ("misplaced", .array (analysis.misplaced.map Json.string)),
    ("totalIssues", .integer analysis.total)]

def render (terminal : Terminal) (analysis : Analysis) : Format → CodeText
  | .text => text terminal analysis
  | .json => (jsonValue analysis).render

end DependencyAudit.Report
