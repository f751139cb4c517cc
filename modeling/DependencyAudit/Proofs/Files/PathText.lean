import DependencyAudit.Files.Path
import DependencyAudit.Proofs.Text.JoinedParts
import Mathlib.Algebra.BigOperators.Group.List.Basic
import Mathlib.Tactic.Ring

/-!
# Paths and their texts

The text of a path is read back as that path when its segments are such as reading
leaves: not empty, not a single dot, and without a slash.  The length of the text is
that of its segments and of the slashes before and between them.
-/

namespace DependencyAudit.Path

open DependencyAudit.Text

variable {anchor : Anchor} {segments : List String}

/-- The segments of a path that has been read. -/
def AreSegments (segments : List String) : Prop :=
  ∀ segment ∈ segments, isSegment segment = true ∧ '/' ∉ segment.toList

theorem AreSegments.head?_ne_slash (h : AreSegments segments) :
    ("/".intercalate segments).toList.head? ≠ some '/' := by
  cases segments with
  | nil => simp
  | cons segment rest =>
      obtain ⟨hsegment, hslash⟩ := h segment (List.mem_cons_self ..)
      have hne : segment.toList ≠ [] := by
        intro hnil
        rw [String.toList_eq_nil_iff] at hnil
        simp [isSegment, hnil] at hsegment
      obtain ⟨c, more, hc⟩ := List.exists_cons_of_ne_nil hne
      have hhead : ("/".intercalate (segment :: rest)).toList.head? = some c := by
        cases rest with
        | nil => simp [hc]
        | cons next others => simp [String.intercalate_cons_cons, hc]
      rw [hhead, Ne, Option.some.injEq]
      intro heq
      exact hslash (by simp [hc, heq])

theorem anchorOf_anchorText {rest : List Char} (h : rest.head? ≠ some '/') :
    anchorOf ((anchorText anchor).toList ++ rest) = anchor := by
  have hrest : rest.takeWhile (· = '/') = [] := by
    cases rest with
    | nil => rfl
    | cons c more =>
        rw [List.head?_cons, Ne, Option.some.injEq] at h
        simp [h]
  cases anchor with
  | workingDirectory => simp [anchorOf, anchorText, hrest]
  | root => simp [anchorOf, anchorText, hrest]
  | doubleSlash => simp [anchorOf, anchorText, hrest]

theorem stringParts_intercalate (hne : segments ≠ []) (h : AreSegments segments) :
    stringParts '/' ("/".intercalate segments) = segments :=
  Text.stringParts_intercalate hne fun segment hsegment => (h segment hsegment).2

theorem filter_stringParts (h : AreSegments segments) :
    (stringParts '/' ("/".intercalate segments)).filter isSegment = segments := by
  by_cases hne : segments = []
  · subst hne
    cbv
  · rw [stringParts_intercalate hne h, List.filter_eq_self]
    intro segment hsegment
    exact (h segment hsegment).1

theorem filter_slash_append (text : String) :
    (stringParts '/' ("/" ++ text)).filter isSegment =
      (stringParts '/' text).filter isSegment := by
  have hempty : isSegment "" = false := by cbv
  have hparts : stringParts '/' ("/" ++ text) = "" :: stringParts '/' text := by
    rw [stringParts, stringParts, String.toList_append]
    exact congrArg (List.map String.ofList) (parts_separator_cons '/' text.toList)
  rw [hparts, List.filter_cons_of_neg (by simp [hempty])]

/-- The text of a path is read back as the path. -/
theorem parse_text (h : AreSegments segments) :
    parse (text ⟨anchor, segments⟩) = ⟨anchor, segments⟩ := by
  rw [text]
  split
  · next hroot =>
      obtain ⟨rfl, rfl⟩ := hroot
      cbv
  · have hanchor : anchorOf ((anchorText anchor).toList ++ ("/".intercalate segments).toList) =
        anchor := anchorOf_anchorText h.head?_ne_slash
    have hsplit : (stringParts '/' (anchorText anchor ++ "/".intercalate segments)).filter
        isSegment = segments := by
      cases anchor with
      | workingDirectory => simpa [anchorText] using filter_stringParts h
      | root => rw [anchorText, filter_slash_append, filter_stringParts h]
      | doubleSlash =>
          have hslashes : anchorText .doubleSlash = "/" ++ "/" := rfl
          rw [hslashes, String.append_assoc, filter_slash_append, filter_slash_append,
            filter_stringParts h]
    rw [parse, String.toList_append, hanchor, hsplit]

/-! ## Going on from a path -/

theorem join_left_cancel {path : Path} {first second : List String}
    (h : path.join first = path.join second) : first = second := by
  simpa [join] using h

/-! ## Lengths -/

theorem size_intercalate (hne : segments ≠ []) :
    ("/".intercalate segments).utf8ByteSize + 1 =
      (segments.map fun segment => segment.utf8ByteSize + 1).sum := by
  have hslash : "/".utf8ByteSize = 1 := rfl
  induction segments with
  | nil => contradiction
  | cons segment rest ih =>
      cases rest with
      | nil => simp
      | cons next more =>
          rw [String.intercalate_cons_cons, String.utf8ByteSize_append,
            String.utf8ByteSize_append, hslash, List.map_cons, List.sum_cons, ← ih (by simp)]
          ring

/-- A path that begins at the working directory is too long when its segments are, each
with the slash after it. -/
theorem isTooLong_iff (hne : segments ≠ []) :
    isTooLong ⟨.workingDirectory, segments⟩ = true ↔
      maxBytes + 1 < (segments.map fun segment => segment.utf8ByteSize + 1).sum := by
  rw [isTooLong, text, if_neg (fun hroot => hne hroot.2), anchorText, String.empty_append,
    decide_eq_true_eq, ← size_intercalate hne, Nat.add_lt_add_iff_right]

end DependencyAudit.Path
