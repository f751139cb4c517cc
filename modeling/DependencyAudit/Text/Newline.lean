/-!
# Line ends

Files may end their lines with a line feed, a carriage return, or both.  All
that reads their text sees line feeds alone.
-/

namespace DependencyAudit.Text

/-- A text with every kind of line end written as a line feed. -/
def unifyNewlines : List Char → List Char
  | [] => []
  | '\r' :: '\n' :: rest => '\n' :: unifyNewlines rest
  | c :: rest => (if c = '\r' then '\n' else c) :: unifyNewlines rest

theorem unifyNewlines_cons_of_ne {c : Char} (h : c ≠ '\r') (rest : List Char) :
    unifyNewlines (c :: rest) = c :: unifyNewlines rest := by
  rw [unifyNewlines]
  · simp [h]
  · intro more hc
    exact absurd hc h

theorem unifyNewlines_of_not_mem {text : List Char} (h : '\r' ∉ text) :
    unifyNewlines text = text := by
  induction text with
  | nil => rfl
  | cons c rest ih =>
      simp only [List.mem_cons, not_or] at h
      rw [unifyNewlines_cons_of_ne (Ne.symm h.1), ih h.2]

theorem length_unifyNewlines_le (text : List Char) :
    (unifyNewlines text).length ≤ text.length := by
  fun_induction unifyNewlines text with
  | case1 => exact Nat.le_refl 0
  | case2 rest ih =>
      simp only [List.length_cons]
      omega
  | case3 c rest hnext ih =>
      simp only [List.length_cons]
      omega

end DependencyAudit.Text
