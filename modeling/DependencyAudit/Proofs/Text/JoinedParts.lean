import DependencyAudit.Text.Parts

/-!
# Parts joined and cut again

Parts without the separator are what cutting their join gives back.  There has to be one: no
parts and a single empty one have the same join.
-/

namespace DependencyAudit.Text

theorem parts_intercalate {α : Type} [DecidableEq α] {separator : α} {pieces : List (List α)}
    (hne : pieces ≠ []) (h : ∀ piece ∈ pieces, separator ∉ piece) :
    parts separator ([separator].intercalate pieces) = pieces := by
  induction pieces with
  | nil => contradiction
  | cons piece rest ih =>
      have hpiece := parts_of_not_mem (h piece (List.mem_cons_self ..))
      cases rest with
      | nil => simpa [List.intercalate] using hpiece
      | cons next more =>
          have hrest := ih (by simp) fun other hother => h other (List.mem_cons_of_mem piece hother)
          rw [List.intercalate_cons_cons, List.append_assoc, List.singleton_append,
            parts_append_separator, hpiece, hrest, List.singleton_append]

theorem stringParts_intercalate {separator : Char} {pieces : List String} (hne : pieces ≠ [])
    (h : ∀ piece ∈ pieces, separator ∉ piece.toList) :
    stringParts separator ((String.singleton separator).intercalate pieces) = pieces := by
  have hpieces : ∀ piece ∈ pieces.map String.toList, separator ∉ piece := by simpa using h
  rw [stringParts, String.toList_intercalate, String.toList_singleton,
    parts_intercalate (by simpa using hne) hpieces]
  simp

end DependencyAudit.Text
