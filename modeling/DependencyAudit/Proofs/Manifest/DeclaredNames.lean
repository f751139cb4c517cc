import DependencyAudit.Manifest.Basic

/-!
# Declared names

Merging classes keeps every name that one of them declares and adds none.  So the names
that are checked are those of production, or with all checked those of every class.  A
list is merged from the left: a name that comes last is added unless it is there.
-/

namespace DependencyAudit.Manifest

variable {manifest : Manifest}

theorem eraseDups_concat (names : List CodeText) (name : CodeText) :
    (names ++ [name]).eraseDups =
      if name ∈ names then names.eraseDups else names.eraseDups ++ [name] := by
  rw [List.eraseDups_append]
  split
  · next hmem => simp [List.removeAll, hmem]
  · next hmem => simp [List.removeAll, hmem, List.eraseDups_cons]

theorem mem_merged {classes : List DependencyClass} {name : CodeText} :
    name ∈ manifest.merged classes ↔ ∃ cls ∈ classes, name ∈ manifest.names cls := by
  rw [merged, List.mem_eraseDups, List.mem_flatMap]

theorem mem_declared {checkAll : Bool} {name : CodeText} :
    name ∈ manifest.declared checkAll ↔
      ∃ cls, (cls = .production ∨ checkAll = true) ∧ name ∈ manifest.names cls := by
  cases checkAll with
  | false =>
      have hdeclared : manifest.declared false = manifest.merged [.production] := rfl
      rw [hdeclared, mem_merged]
      simp
  | true =>
      have hdeclared : manifest.declared true = manifest.merged DependencyClass.all := rfl
      have hall : ∀ cls, cls ∈ DependencyClass.all := by
        intro cls
        cases cls <;> decide
      rw [hdeclared, mem_merged]
      simp [hall]

end DependencyAudit.Manifest
