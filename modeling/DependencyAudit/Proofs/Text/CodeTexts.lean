import DependencyAudit.Text.CodeText
import Mathlib.Data.List.Infix

/-!
# Strings as texts of code points

A string spells the code points of its characters and nothing else, so membership and
prefixes are the same in both.  Lines that are joined can be printed when each of them can.
-/

namespace DependencyAudit.CodeText

open CodePoint

theorem ofChar_injective : Function.Injective ofChar :=
  fun _ _ h => ofChar_inj.mp h

theorem ofChar_mem_ofString {c : Char} {text : String} :
    ofChar c ∈ ofString text ↔ c ∈ text.toList :=
  List.mem_map_of_injective ofChar_injective

theorem ofString_prefix_iff {left right : String} :
    ofString left <+: ofString right ↔ left.toList <+: right.toList :=
  List.prefix_map_iff_of_injective ofChar_injective

theorem isPlain_intercalate (lines : List CodeText) :
    IsPlain ((ofString "\n").intercalate lines) ↔ ∀ line ∈ lines, IsPlain line := by
  induction lines with
  | nil => simp
  | cons line rest ih =>
      cases rest with
      | nil => simp [List.intercalate]
      | cons next more =>
          rw [List.intercalate_cons_cons, isPlain_append, isPlain_append, ih,
            List.forall_mem_cons]
          simp

theorem chars_intercalate (lines : List CodeText) :
    chars ((ofString "\n").intercalate lines) = ['\n'].intercalate (lines.map chars) := by
  induction lines with
  | nil => rfl
  | cons line rest ih =>
      cases rest with
      | nil => simp [List.intercalate]
      | cons next more =>
          rw [List.intercalate_cons_cons, chars_append, chars_append, ih, chars_ofString]
          simp [List.intercalate_cons_cons]

end DependencyAudit.CodeText
