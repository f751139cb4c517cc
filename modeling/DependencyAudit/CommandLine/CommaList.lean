import DependencyAudit.Ascending
import DependencyAudit.Text.Blank
import DependencyAudit.Text.Parts

/-!
# Comma lists

A comma list denotes a set of names: its parts without the blanks around them,
those apart of which nothing is left.
-/

namespace DependencyAudit.CommandLine

def entries (text : List Char) : List (List Char) :=
  ((Text.parts ',' text).map Text.trim).filter fun entry => !entry.isEmpty

/-- The set that a comma list denotes, in ascending order. -/
def nameSet (text : String) : List String :=
  Ascending.ofList ((entries text.toList).map String.ofList)

theorem entries_append_comma (left right : List Char) :
    entries (left ++ ',' :: right) = entries left ++ entries right := by
  simp [entries, Text.parts_append_separator]

end DependencyAudit.CommandLine
