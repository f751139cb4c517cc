import DependencyAudit.Text.Parts

/-!
# Package names

A specifier that starts with a dot or a slash names a file of the project.  Any
other names a package and perhaps a path within it: the package is the first part
of the specifier, or the first two when the name has a scope.
-/

namespace DependencyAudit.Source

open DependencyAudit.Text

/-- The package that provides the module of a specifier. -/
def packageName? (specifier : String) : Option String :=
  match specifier.toList with
  | [] => none
  | first :: _ =>
    if first = '.' ∨ first = '/' then none
    else
      match stringParts '/' specifier with
      | [] => none
      | [name] => if first = '@' then none else some name
      | scope :: name :: _ => if first = '@' then some (scope ++ "/" ++ name) else some scope

def packageNames (specifiers : List String) : List String :=
  specifiers.filterMap packageName?

end DependencyAudit.Source
