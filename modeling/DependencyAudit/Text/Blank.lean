/-!
# Blank characters

Two parts of the audit skip white space: import statements allow it between
their words, and comma lists allow it around their entries.  Both mean the same
twenty-nine characters, listed here as ranges of code points.  The statements
below say that a trimmed text neither starts nor ends with one, and that padding a
text does not change what is left of it.
-/

namespace DependencyAudit.Text

def inRanges (ranges : List (Nat × Nat)) (c : Char) : Bool :=
  ranges.any fun range => range.1 ≤ c.toNat && c.toNat ≤ range.2

/-- The characters that separate words, as inclusive ranges of code points. -/
def blankRanges : List (Nat × Nat) :=
  [(0x09, 0x0D), (0x1C, 0x20), (0x85, 0x85), (0xA0, 0xA0), (0x1680, 0x1680),
    (0x2000, 0x200A), (0x2028, 0x2029), (0x202F, 0x202F), (0x205F, 0x205F),
    (0x3000, 0x3000)]

def isBlank (c : Char) : Bool :=
  inRanges blankRanges c

/-- A text without the characters of a class at its two ends. -/
def trimBy (skip : Char → Bool) (text : List Char) : List Char :=
  ((text.dropWhile skip).reverse.dropWhile skip).reverse

def trim (text : List Char) : List Char :=
  trimBy isBlank text

theorem trimBy_append_of_skip {skip : Char → Bool} {after : List Char}
    (h : ∀ c ∈ after, skip c = true) (text : List Char) :
    trimBy skip (text ++ after) = trimBy skip text := by
  have hreverse : ∀ c ∈ after.reverse, skip c = true := by simpa using h
  rw [trimBy, trimBy, List.dropWhile_append]
  split
  · next hempty =>
      have hafter : (after ++ []).dropWhile skip = [] := List.dropWhile_append_of_pos h
      rw [List.append_nil] at hafter
      rw [List.isEmpty_iff] at hempty
      rw [hempty, hafter]
  · rw [List.reverse_append, List.dropWhile_append_of_pos hreverse]

/-- What is trimmed off does not count. -/
theorem trimBy_padded {skip : Char → Bool} {before after : List Char}
    (hbefore : ∀ c ∈ before, skip c = true) (hafter : ∀ c ∈ after, skip c = true)
    (text : List Char) : trimBy skip (before ++ text ++ after) = trimBy skip text := by
  rw [trimBy_append_of_skip hafter, trimBy, List.dropWhile_append_of_pos hbefore, ← trimBy]

theorem head?_trimBy {skip : Char → Bool} {text : List Char} {c : Char}
    (h : (trimBy skip text).head? = some c) : skip c = false := by
  have hprefix : trimBy skip text <+: text.dropWhile skip := by
    rw [trimBy, ← List.reverse_suffix, List.reverse_reverse]
    exact List.dropWhile_suffix _
  obtain ⟨rest, hrest⟩ := hprefix
  have hhead := List.head?_dropWhile_not skip text
  rw [← hrest, List.head?_append, h] at hhead
  simpa using hhead

theorem getLast?_trimBy {skip : Char → Bool} {text : List Char} {c : Char}
    (h : (trimBy skip text).getLast? = some c) : skip c = false := by
  rw [trimBy, List.getLast?_reverse] at h
  have hlast := List.head?_dropWhile_not skip (text.dropWhile skip).reverse
  rw [h] at hlast
  simpa using hlast

/-- A text is left as it is when neither end is of the class. -/
theorem trimBy_eq_self {skip : Char → Bool} {text : List Char}
    (hfirst : ∀ c, text.head? = some c → skip c = false)
    (hlast : ∀ c, text.getLast? = some c → skip c = false) : trimBy skip text = text := by
  have hfront : ∀ chars : List Char, (∀ c, chars.head? = some c → skip c = false) →
      chars.dropWhile skip = chars := by
    intro chars hhead
    cases chars with
    | nil => rfl
    | cons c rest => simp [List.dropWhile, hhead c rfl]
  rw [trimBy, hfront text hfirst, hfront text.reverse (by simpa using hlast),
    List.reverse_reverse]

end DependencyAudit.Text
