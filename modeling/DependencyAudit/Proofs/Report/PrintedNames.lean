import DependencyAudit.Proofs.Json.Printing
import DependencyAudit.Proofs.Text.CodeTexts
import DependencyAudit.Report.Format

/-!
# Names that can be printed

A report holds the names of its analysis and otherwise only characters.  So in either
format, and in every colour, it can be printed exactly when each name is made of
characters.  A JSON report that is printed is then an element of its value.
-/

namespace DependencyAudit

/-- Each name of the analysis is made of characters. -/
def Analysis.IsPrintable (analysis : Analysis) : Prop :=
  ∀ name, name ∈ analysis.unused ∨ name ∈ analysis.misplaced → CodeText.IsPlain name

namespace Report

open CodeText

variable {terminal : Terminal} {analysis : Analysis}

/-! ## The text report -/

theorem isPlain_painted (terminal : Terminal) (style : Style) (text : String) :
    IsPlain (painted terminal style text) :=
  isPlain_ofString _

theorem isPlain_sectionLines (terminal : Terminal) (style : Style) (heading remark : String)
    (names : List CodeText) :
    (∀ line ∈ sectionLines terminal style heading remark names, IsPlain line) ↔
      ∀ name ∈ names, IsPlain name := by
  unfold sectionLines
  split
  · next hnone => simp [List.isEmpty_iff.mp hnone]
  · simp [isPlain_painted, or_imp, forall_and]

theorem isPlain_text_iff : IsPlain (text terminal analysis) ↔ analysis.IsPrintable := by
  have hissues : (∀ line ∈ issueLines terminal analysis, IsPlain line) ↔
      analysis.IsPrintable := by
    simp [issueLines, or_imp, forall_and, isPlain_sectionLines, rule, isPlain_painted,
      Analysis.IsPrintable]
  rw [text, isPlain_intercalate, textLines, List.forall_mem_append]
  split
  · rw [hissues]
    simp [titleLines, rule, isPlain_painted]
  · next hnone =>
      have hempty : analysis.unused = [] ∧ analysis.misplaced = [] := by
        simpa [Analysis.hasIssues] using hnone
      simp [titleLines, praiseLines, rule, isPlain_painted, Analysis.IsPrintable, hempty]

/-! ## The JSON report -/

theorem realsOfItems_map_string (names : List CodeText) :
    Json.realsOfItems (names.map Json.string) = [] := by
  induction names with
  | nil => rfl
  | cons name rest ih =>
      rw [List.map_cons, Json.realsOfItems, ih]
      rfl

theorem textsOfItems_map_string (names : List CodeText) :
    Json.textsOfItems (names.map Json.string) = names := by
  induction names with
  | nil => rfl
  | cons name rest ih =>
      rw [List.map_cons, Json.textsOfItems, ih]
      rfl

theorem reals_jsonValue (analysis : Analysis) : Json.reals (jsonValue analysis) = [] := by
  simp [jsonValue, Json.reals, Json.realsOfMembers, realsOfItems_map_string]

theorem isPlain_jsonValue_iff :
    (∀ text ∈ Json.texts (jsonValue analysis), IsPlain text) ↔ analysis.IsPrintable := by
  simp [jsonValue, Json.texts, Json.textsOfMembers, textsOfItems_map_string, or_imp, forall_and,
    Analysis.IsPrintable]

theorem element_of_printed {printed : String}
    (h : string? (render terminal analysis .json) = some printed) :
    Json.Element printed.toList (jsonValue analysis) :=
  Json.element_render (by simp [reals_jsonValue]) h

/-! ## Both formats -/

/-- A report has no text to be printed exactly when a name has none. -/
theorem string?_render_eq_none_iff (terminal : Terminal) (analysis : Analysis)
    (format : Format) :
    string? (render terminal analysis format) = none ↔ ¬ analysis.IsPrintable := by
  cases format with
  | text => rw [render, string?_eq_none_iff, isPlain_text_iff]
  | json => rw [render, Json.string?_render_eq_none_iff, isPlain_jsonValue_iff]

theorem exists_printed (terminal : Terminal) (format : Format) (h : analysis.IsPrintable) :
    ∃ report, string? (render terminal analysis format) = some report := by
  rw [← Option.ne_none_iff_exists', Ne, string?_render_eq_none_iff, not_not]
  exact h

end Report

end DependencyAudit
