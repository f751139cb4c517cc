import DependencyAudit.Source.Statement

/-!
# Module specifiers

The scan goes through a source text from the left and resumes behind each
statement it finds, so the statements it reports do not overlap and none is lost
but those that start within a reported one.
-/

namespace DependencyAudit.Source

/-- The bodies of the statements in a text, from left to right. -/
def bodies (text : List Char) : List (List Char) :=
  match text with
  | [] => []
  | c :: rest =>
    match _h : statement? (c :: rest) with
    | some (body, after) => body :: bodies after
    | none => bodies rest
termination_by text.length
decreasing_by
  · exact length_lt_of_statement? _h
  · simp

/-- The specifiers that a source text imports, from left to right. -/
def specifiers (text : String) : List String :=
  (bodies text.toList).map String.ofList

theorem bodies_nil : bodies [] = [] := by
  simp [bodies]

theorem bodies_of_statement? {text body after : List Char}
    (h : statement? text = some (body, after)) : bodies text = body :: bodies after := by
  cases text with
  | nil => simp [statement?, namedStatement?, requiredStatement?, afterWord?] at h
  | cons c rest =>
      rw [bodies]
      split
      · next found later hfound =>
          rw [h, Option.some.injEq, Prod.mk.injEq] at hfound
          rw [← hfound.1, ← hfound.2]
      · next hnone =>
          rw [h] at hnone
          contradiction

theorem bodies_cons_of_none {c : Char} {rest : List Char}
    (h : statement? (c :: rest) = none) : bodies (c :: rest) = bodies rest := by
  rw [bodies]
  split
  · next found later hfound =>
      rw [h] at hfound
      contradiction
  · rfl

end DependencyAudit.Source
