/-!
# Parts of a separated text

Paths, package names and comma lists are texts cut at a separator, and a report is
cut at its line ends.  `parts` cuts at every occurrence, so adjacent separators leave
an empty part and a text without separator is its own only part.  Cutting a
concatenation cuts only the part in which it was made.
-/

namespace DependencyAudit.Text

variable {α : Type} [DecidableEq α]

/-- The texts between the occurrences of a separator; there is at least one. -/
def parts (separator : α) : List α → List (List α)
  | [] => [[]]
  | c :: rest =>
    if c = separator then [] :: parts separator rest
    else
      match parts separator rest with
      | [] => [[c]]
      | first :: others => (c :: first) :: others

def stringParts (separator : Char) (text : String) : List String :=
  (parts separator text.toList).map String.ofList

theorem parts_ne_nil (separator : α) (text : List α) :
    parts separator text ≠ [] := by
  cases text with
  | nil => simp [parts]
  | cons c rest =>
      simp only [parts]
      split
      · simp
      · split <;> simp

theorem parts_separator_cons (separator : α) (rest : List α) :
    parts separator (separator :: rest) = [] :: parts separator rest := by
  simp [parts]

theorem parts_of_not_mem {separator : α} {text : List α}
    (h : separator ∉ text) : parts separator text = [text] := by
  induction text with
  | nil => rfl
  | cons c rest ih =>
      simp only [List.mem_cons, not_or] at h
      simp [parts, ih h.2, Ne.symm h.1]

/-- Cutting at a separator that stands between two texts. -/
theorem parts_append_separator (separator : α) (left right : List α) :
    parts separator (left ++ separator :: right) =
      parts separator left ++ parts separator right := by
  induction left with
  | nil => simp [parts]
  | cons c rest ih =>
      by_cases hc : c = separator
      · subst hc
        simp [parts, ih]
      · simp only [List.cons_append, parts, hc, if_false, ih]
        cases hparts : parts separator rest with
        | nil => exact absurd hparts (parts_ne_nil separator rest)
        | cons first others => simp

theorem not_mem_of_mem_parts {separator : α} {text part : List α}
    (h : part ∈ parts separator text) : separator ∉ part := by
  induction text generalizing part with
  | nil => simp_all [parts]
  | cons c rest ih =>
      by_cases hc : c = separator
      · simp only [parts, hc, if_true, List.mem_cons] at h
        rcases h with rfl | h
        · simp
        · exact ih h
      · simp only [parts, hc, if_false] at h
        cases hparts : parts separator rest with
        | nil => exact absurd hparts (parts_ne_nil separator rest)
        | cons first others =>
            rw [hparts] at h ih
            simp only [List.mem_cons] at h
            rcases h with rfl | h
            · have hfirst := ih (List.mem_cons_self ..)
              simp only [List.mem_cons, not_or]
              exact ⟨Ne.symm hc, hfirst⟩
            · exact ih (List.mem_cons_of_mem _ h)

end DependencyAudit.Text
