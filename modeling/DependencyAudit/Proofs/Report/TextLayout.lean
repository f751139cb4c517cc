import DependencyAudit.Proofs.Report.Colors
import DependencyAudit.Proofs.Text.JoinedParts
import DependencyAudit.Proofs.Text.WholeNumbers

/-!
# The text report is read back

Names stand in the text report as they are, one on a line behind a bullet.  A name without
a line feed cannot leave its line, and the line starts as no heading, rule or empty line
does.  So a reader that goes through the lines finds the end of each section and its names,
whatever they imitate.
-/

namespace DependencyAudit.Report

open CodeText

variable {terminal : Terminal} {style : Style} {heading remark : String}
variable {names : List CodeText}

def lineFeed : CodePoint := CodePoint.ofChar '\n'

/-- No name leaves its line. -/
def FitsLines (analysis : Analysis) : Prop :=
  ∀ name ∈ analysis.unused ++ analysis.misplaced, lineFeed ∉ name

instance (analysis : Analysis) : Decidable (FitsLines analysis) :=
  inferInstanceAs (Decidable (∀ name ∈ analysis.unused ++ analysis.misplaced, lineFeed ∉ name))

/-! ## Lines -/

def linesOf (report : CodeText) : List CodeText :=
  Text.parts lineFeed report

def bulletLines (terminal : Terminal) (style : Style) (names : List CodeText) :
    List CodeText :=
  names.map fun name => ofString (bullet terminal style) ++ name

/-- The styles of the two sections. -/
def bulletStyles : List Style := [.yellow, .red]

/-- Whether a line starts with the bullet of a section. -/
def isBulletLine (terminal : Terminal) (line : CodeText) : Bool :=
  bulletStyles.any fun style => (ofString (bullet terminal style)).isPrefixOf line

def totalLine (terminal : Terminal) (n : Nat) : CodeText :=
  painted terminal .bold ("  Total Issues: " ++ toString n)

theorem sectionLines_nil : sectionLines terminal style heading remark [] = [] := rfl

theorem sectionLines_of_ne_nil (h : names ≠ []) :
    sectionLines terminal style heading remark names =
      painted terminal style heading :: painted terminal style remark :: [] ::
        (bulletLines terminal style names ++ [[]]) := by
  simp [sectionLines, h, bulletLines]

/-! ## The reader -/

/-- The name on a line with a bullet. -/
def nameOn? (bullet line : CodeText) : Option CodeText :=
  if bullet.isPrefixOf line then some (line.drop bullet.length) else none

/-- The names up to the first line without a bullet, and the lines behind that one. -/
def readNames (bullet : CodeText) : List CodeText → List CodeText × List CodeText
  | [] => ([], [])
  | line :: rest =>
    match nameOn? bullet line with
    | none => ([], rest)
    | some name => (name :: (readNames bullet rest).1, (readNames bullet rest).2)

/-- The names of a section, and the lines behind it.  A section of another heading is left
where it is. -/
def readSection (terminal : Terminal) (style : Style) (heading : String) :
    List CodeText → List CodeText × List CodeText
  | first :: remark :: blank :: rest =>
    if first = painted terminal style heading then
      readNames (ofString (bullet terminal style)) rest
    else ([], first :: remark :: blank :: rest)
  | lines => ([], lines)

/-- The analysis that a text report shows. -/
def readText (terminal : Terminal) (report : CodeText) : Analysis :=
  let unused := readSection terminal .yellow "⚠ Unused Dependencies:" ((linesOf report).drop 5)
  let misplaced := readSection terminal .red "⚠ Misplaced Dependencies:" unused.2
  ⟨unused.1, misplaced.1⟩

theorem isPrefixOf_append (bullet name : CodeText) :
    bullet.isPrefixOf (bullet ++ name) = true := by
  rw [List.isPrefixOf_iff_prefix]
  exact List.prefix_append _ _

theorem nameOn?_bullet (bullet name : CodeText) : nameOn? bullet (bullet ++ name) = some name := by
  rw [nameOn?, if_pos (isPrefixOf_append bullet name), List.drop_left]

theorem bullet_ne_nil (terminal : Terminal) (style : Style) :
    ofString (bullet terminal style) ≠ [] := by
  simp [ofString, bullet]

theorem nameOn?_nil (terminal : Terminal) (style : Style) :
    nameOn? (ofString (bullet terminal style)) [] = none := by
  obtain ⟨first, rest, hbullet⟩ := List.exists_cons_of_ne_nil (bullet_ne_nil terminal style)
  rw [nameOn?, hbullet]
  rfl

theorem readNames_bulletLines (terminal : Terminal) (style : Style)
    (names rest : List CodeText) :
    readNames (ofString (bullet terminal style)) (bulletLines terminal style names ++ [] :: rest) =
      (names, rest) := by
  induction names with
  | nil => simp [bulletLines, readNames, nameOn?_nil]
  | cons name names ih =>
      have hcons : bulletLines terminal style (name :: names) ++ [] :: rest =
          (ofString (bullet terminal style) ++ name) ::
            (bulletLines terminal style names ++ [] :: rest) := rfl
      simp only [hcons, readNames, nameOn?_bullet, ih]

theorem readSection_of_head? {lines : List CodeText}
    (h : lines.head? ≠ some (painted terminal style heading)) :
    readSection terminal style heading lines = ([], lines) := by
  unfold readSection
  split
  · next first remark blank rest =>
      rw [List.head?_cons, Ne, Option.some.injEq] at h
      rw [if_neg h]
  · rfl

/-- A section is read when what follows is no section of the same heading. -/
theorem readSection_append {rest : List CodeText}
    (h : rest.head? ≠ some (painted terminal style heading)) :
    readSection terminal style heading
        (sectionLines terminal style heading remark names ++ rest) = (names, rest) := by
  by_cases hnames : names = []
  · rw [hnames, sectionLines_nil, List.nil_append, readSection_of_head? h]
  · rw [sectionLines_of_ne_nil hnames]
    simp only [List.cons_append, List.append_assoc, List.nil_append, readSection, if_true,
      readNames_bulletLines]

/-! ## Lines without a name -/

/-- The texts that are the same in every report. -/
def fixedTexts : List String :=
  [String.ofList (List.replicate 60 '━'), "  Dependency Analysis Report",
    "✓ All dependencies are properly used and placed!", "⚠ Unused Dependencies:",
    "  (declared but not imported in source code)", "⚠ Misplaced Dependencies:",
    "  (in devDependencies but used in source code)"]

/-- A text of one line without a sequence.  It starts as no line with a name does, nor as the
line with the number of issues. -/
structure IsFixed (text : String) : Prop where
  escape : '\x1b' ∉ text.toList
  newline : '\n' ∉ text.toList
  bullet : ¬ "  •".toList <+: text.toList
  total : ¬ "  Total".toList <+: text.toList

theorem isFixed_of_mem {text : String} (h : text ∈ fixedTexts) : IsFixed text := by
  have hfixed : ∀ text ∈ fixedTexts, '\x1b' ∉ text.toList ∧ '\n' ∉ text.toList ∧
      ¬ "  •".toList <+: text.toList ∧ ¬ "  Total".toList <+: text.toList := by
    simp [fixedTexts, List.replicate]
  obtain ⟨hescape, hnewline, hbullet, htotal⟩ := hfixed text h
  exact ⟨hescape, hnewline, hbullet, htotal⟩

theorem not_mem_totalText {c : Char} (hdigit : c.isDigit = false)
    (htext : c ∉ "  Total Issues: ".toList) (n : Nat) :
    c ∉ ("  Total Issues: " ++ toString n).toList := by
  rw [String.toList_append, List.mem_append, not_or, Nat.toString_eq_repr, Nat.toList_repr]
  exact ⟨htext, Text.not_mem_toDigits hdigit n⟩

theorem prefix_totalText (n : Nat) :
    "  Total".toList <+: ("  Total Issues: " ++ toString n).toList := by
  simp

theorem not_prefix_totalText (n : Nat) :
    ¬ "  •".toList <+: ("  Total Issues: " ++ toString n).toList := by
  simp

theorem eq_of_painted_eq {other : Style} {left right : String} (hleft : '\x1b' ∉ left.toList)
    (hright : '\x1b' ∉ right.toList)
    (h : painted terminal style left = painted terminal other right) : left = right := by
  have hplain := congrArg withoutColors (ofString_inj.mp h)
  rwa [withoutColors_paint, withoutColors_paint, withoutColors_of_not_mem hleft,
    withoutColors_of_not_mem hright] at hplain

theorem newline_not_mem_paint {text : String} (h : '\n' ∉ text.toList) :
    '\n' ∉ (terminal.paint style text).toList := by
  rw [Terminal.paint, Terminal.colorize]
  split
  · cases style <;> simp [Style.code, h]
  · exact h

theorem lineFeed_not_mem_painted {text : String} (h : '\n' ∉ text.toList) :
    lineFeed ∉ painted terminal style text := by
  rw [lineFeed, painted, ofChar_mem_ofString]
  exact newline_not_mem_paint h

/-- A text that does not start as a plain bullet does, starts in no colour as a bullet. -/
theorem isBulletLine_painted {text : String} (h : ¬ "  •".toList <+: text.toList) :
    isBulletLine terminal (painted terminal style text) = false := by
  rw [isBulletLine, List.any_eq_false]
  intro other _ hbullet
  rw [List.isPrefixOf_iff_prefix, painted, ofString_prefix_iff] at hbullet
  -- In colour the text starts with an escape character, and the bullet line with a blank.
  by_cases hcolor : terminal.supportsColor = true
  · have hspace : (bullet terminal other).toList =
        ' ' :: ' ' :: ((terminal.paint other "•").toList ++ [' ']) := by simp [bullet]
    have hescape : (terminal.paint style text).toList =
        '\x1b' :: '[' :: (style.code ++ "m" ++ text ++ "\x1b[0m").toList := by
      simp [Terminal.paint, Terminal.colorize, hcolor]
    rw [hspace, hescape, List.cons_prefix_cons] at hbullet
    exact absurd hbullet.1 (by decide)
  · have hplain : (bullet terminal other).toList = "  •".toList ++ [' '] := by
      simp [bullet, Terminal.paint, Terminal.colorize, hcolor]
    rw [hplain, Terminal.paint, Terminal.colorize, if_neg hcolor] at hbullet
    exact h ((List.prefix_append _ _).trans hbullet)

theorem isBulletLine_nil (terminal : Terminal) : isBulletLine terminal [] = false := by
  simp [isBulletLine, bullet_ne_nil]

theorem isBulletLine_bullet (h : style ∈ bulletStyles) (name : CodeText) :
    isBulletLine terminal (ofString (bullet terminal style) ++ name) = true := by
  rw [isBulletLine, List.any_eq_true]
  exact ⟨style, h, isPrefixOf_append _ name⟩

/-- A line of a report without a name: empty, a fixed text, or the number of issues. -/
inductive IsFrame (terminal : Terminal) (analysis : Analysis) : CodeText → Prop
  | empty : IsFrame terminal analysis []
  | fixed (style : Style) {text : String} (h : text ∈ fixedTexts) :
    IsFrame terminal analysis (painted terminal style text)
  | total (h : analysis.hasIssues = true) :
    IsFrame terminal analysis (totalLine terminal analysis.total)

namespace IsFrame

variable {analysis : Analysis} {line : CodeText}

theorem lineFeed_not_mem (h : IsFrame terminal analysis line) : lineFeed ∉ line := by
  cases h with
  | empty => exact List.not_mem_nil
  | fixed style h => exact lineFeed_not_mem_painted (isFixed_of_mem h).newline
  | total => exact lineFeed_not_mem_painted (not_mem_totalText (by decide) (by decide) _)

theorem isBulletLine_eq_false (h : IsFrame terminal analysis line) :
    isBulletLine terminal line = false := by
  cases h with
  | empty => exact isBulletLine_nil terminal
  | fixed style h => exact isBulletLine_painted (isFixed_of_mem h).bullet
  | total => exact isBulletLine_painted (not_prefix_totalText _)

/-- The one line with a number of issues has the right number. -/
theorem eq_total {n : Nat} (h : IsFrame terminal analysis (totalLine terminal n)) :
    analysis.hasIssues = true ∧ n = analysis.total := by
  have hescape : ∀ m : Nat, '\x1b' ∉ ("  Total Issues: " ++ toString m).toList :=
    not_mem_totalText (by decide) (by decide)
  generalize hline : totalLine terminal n = line at h
  cases h with
  | empty =>
      have hplain := congrArg bareLine hline
      rw [totalLine, bareLine_painted, uncolored_of_not_mem (hescape n)] at hplain
      have hnothing : "  Total".toList <+: bareLine [] := hplain ▸ prefix_totalText n
      rw [bareLine, chars_nil, uncolored_nil, List.prefix_nil] at hnothing
      exact absurd hnothing (by decide)
  | fixed style h =>
      have hfixed := isFixed_of_mem h
      have htext := eq_of_painted_eq (hescape n) hfixed.escape hline
      exact absurd (htext ▸ prefix_totalText n) hfixed.total
  | total h =>
      have htext := eq_of_painted_eq (hescape n) (hescape _) hline
      exact ⟨h, Text.eq_of_toString_eq ((String.append_right_inj _).mp htext)⟩

end IsFrame

/-! ## The lines of a report -/

variable {analysis : Analysis} {line : CodeText}

def unusedLines (terminal : Terminal) (analysis : Analysis) : List CodeText :=
  sectionLines terminal .yellow "⚠ Unused Dependencies:"
    "  (declared but not imported in source code)" analysis.unused

def misplacedLines (terminal : Terminal) (analysis : Analysis) : List CodeText :=
  sectionLines terminal .red "⚠ Misplaced Dependencies:"
    "  (in devDependencies but used in source code)" analysis.misplaced

/-- What follows the sections. -/
def closingLines (terminal : Terminal) (analysis : Analysis) : List CodeText :=
  if analysis.hasIssues then
    [rule terminal, totalLine terminal analysis.total, rule terminal, []]
  else praiseLines terminal

theorem textLines_eq_append (terminal : Terminal) (analysis : Analysis) :
    textLines terminal analysis =
      titleLines terminal ++ (unusedLines terminal analysis ++
        (misplacedLines terminal analysis ++ closingLines terminal analysis)) := by
  by_cases h : analysis.hasIssues = true
  · rw [textLines, if_pos h, closingLines, if_pos h, issueLines, List.append_assoc,
      unusedLines, misplacedLines, totalLine]
  · -- Without issues both sections are empty, so they may stand before the praise as well.
    have hnone : analysis.unused = [] ∧ analysis.misplaced = [] := by
      simpa [Analysis.hasIssues] using h
    rw [textLines, if_neg h, closingLines, if_neg h, unusedLines, misplacedLines, hnone.1,
      hnone.2, sectionLines_nil, sectionLines_nil, List.nil_append, List.nil_append]

theorem isFrame_of_mem_titleLines (h : line ∈ titleLines terminal) :
    IsFrame terminal analysis line := by
  simp only [titleLines, rule, List.mem_cons, List.not_mem_nil, or_false] at h
  rcases h with rfl | rfl | rfl | rfl | rfl
  · exact .empty
  · exact .fixed .cyan (by simp [fixedTexts])
  · exact .fixed .bold (by simp [fixedTexts])
  · exact .fixed .cyan (by simp [fixedTexts])
  · exact .empty

theorem isFrame_of_mem_closingLines (h : line ∈ closingLines terminal analysis) :
    IsFrame terminal analysis line := by
  have hrule : IsFrame terminal analysis (rule terminal) :=
    .fixed .cyan (List.mem_cons_self ..)
  unfold closingLines at h
  split at h
  · next hissues =>
      simp only [List.mem_cons, List.not_mem_nil, or_false] at h
      rcases h with rfl | rfl | rfl | rfl
      · exact hrule
      · exact .total hissues
      · exact hrule
      · exact .empty
  · simp only [praiseLines, List.mem_cons, List.not_mem_nil, or_false] at h
    rcases h with rfl | rfl | rfl | rfl
    · exact .fixed .green (by simp [fixedTexts])
    · exact .empty
    · exact hrule
    · exact .empty

theorem isFrame_or_mem_bulletLines (hheading : heading ∈ fixedTexts) (hremark : remark ∈ fixedTexts)
    (h : line ∈ sectionLines terminal style heading remark names) :
    IsFrame terminal analysis line ∨ line ∈ bulletLines terminal style names := by
  by_cases hnames : names = []
  · rw [hnames, sectionLines_nil] at h
    exact absurd h List.not_mem_nil
  · rw [sectionLines_of_ne_nil hnames] at h
    simp only [List.mem_cons, List.mem_append, List.not_mem_nil, or_false] at h
    rcases h with rfl | rfl | rfl | h | rfl
    · exact .inl (.fixed style hheading)
    · exact .inl (.fixed style hremark)
    · exact .inl .empty
    · exact .inr h
    · exact .inl .empty

theorem isFrame_or_mem_of_mem_textLines (h : line ∈ textLines terminal analysis) :
    IsFrame terminal analysis line ∨ line ∈ bulletLines terminal .yellow analysis.unused ∨
      line ∈ bulletLines terminal .red analysis.misplaced := by
  rw [textLines_eq_append, List.mem_append, List.mem_append, List.mem_append] at h
  rcases h with h | h | h | h
  · exact .inl (isFrame_of_mem_titleLines h)
  · exact (isFrame_or_mem_bulletLines (by simp [fixedTexts]) (by simp [fixedTexts]) h).imp_right
      .inl
  · exact (isFrame_or_mem_bulletLines (by simp [fixedTexts]) (by simp [fixedTexts]) h).imp_right
      .inr
  · exact .inl (isFrame_of_mem_closingLines h)

theorem lineFeed_not_mem_bulletLines (h : ∀ name ∈ names, lineFeed ∉ name) :
    ∀ line ∈ bulletLines terminal style names, lineFeed ∉ line := by
  have hbullet : lineFeed ∉ ofString (bullet terminal style) := by
    have hpoint : '\n' ∉ "•".toList := by decide
    rw [lineFeed, ofChar_mem_ofString]
    simp [bullet, newline_not_mem_paint hpoint]
  intro line hline
  obtain ⟨name, hname, rfl⟩ := List.mem_map.mp hline
  rw [List.mem_append, not_or]
  exact ⟨hbullet, h name hname⟩

theorem linesOf_text (h : FitsLines analysis) :
    linesOf (text terminal analysis) = textLines terminal analysis := by
  refine Text.parts_intercalate (by simp [textLines, titleLines]) fun line hline => ?_
  have hunused := fun name hname => h name (List.mem_append_left _ hname)
  have hmisplaced := fun name hname => h name (List.mem_append_right _ hname)
  rcases isFrame_or_mem_of_mem_textLines hline with hframe | hname | hname
  · exact hframe.lineFeed_not_mem
  · exact lineFeed_not_mem_bulletLines hunused line hname
  · exact lineFeed_not_mem_bulletLines hmisplaced line hname

/-! ## What the lines show -/

theorem filter_isBulletLine_eq_nil {lines : List CodeText}
    (h : ∀ line ∈ lines, IsFrame terminal analysis line) :
    lines.filter (isBulletLine terminal) = [] := by
  rw [List.filter_eq_nil_iff]
  intro line hline
  rw [(h line hline).isBulletLine_eq_false]
  simp

theorem filter_isBulletLine_sectionLines (hheading : heading ∈ fixedTexts)
    (hremark : remark ∈ fixedTexts) (hstyle : style ∈ bulletStyles) :
    (sectionLines terminal style heading remark names).filter (isBulletLine terminal) =
      bulletLines terminal style names := by
  have hnames : (bulletLines terminal style names).filter (isBulletLine terminal) =
      bulletLines terminal style names := by
    rw [List.filter_eq_self]
    intro line hline
    obtain ⟨name, -, rfl⟩ := List.mem_map.mp hline
    exact isBulletLine_bullet hstyle name
  by_cases hne : names = []
  · rw [hne, sectionLines_nil]
    rfl
  · rw [sectionLines_of_ne_nil hne]
    simp only [List.filter_cons, List.filter_append, List.filter_nil, hnames, isBulletLine_nil,
      isBulletLine_painted (isFixed_of_mem hheading).bullet,
      isBulletLine_painted (isFixed_of_mem hremark).bullet, Bool.false_eq_true, if_false,
      List.append_nil]

theorem filter_isBulletLine_textLines (terminal : Terminal) (analysis : Analysis) :
    (textLines terminal analysis).filter (isBulletLine terminal) =
      bulletLines terminal .yellow analysis.unused ++
        bulletLines terminal .red analysis.misplaced := by
  have htitle : (titleLines terminal).filter (isBulletLine terminal) = [] := by
    have hframe : ∀ line ∈ titleLines terminal, IsFrame terminal analysis line :=
      fun line => isFrame_of_mem_titleLines
    exact filter_isBulletLine_eq_nil hframe
  have hclosing : (closingLines terminal analysis).filter (isBulletLine terminal) = [] :=
    filter_isBulletLine_eq_nil fun line => isFrame_of_mem_closingLines
  rw [textLines_eq_append, List.filter_append, List.filter_append, List.filter_append, htitle,
    hclosing, List.nil_append, List.append_nil, unusedLines, misplacedLines,
    filter_isBulletLine_sectionLines (by simp [fixedTexts]) (by simp [fixedTexts])
      (by simp [bulletStyles]),
    filter_isBulletLine_sectionLines (by simp [fixedTexts]) (by simp [fixedTexts])
      (by simp [bulletStyles])]

theorem totalLine_mem_textLines_iff {n : Nat} :
    totalLine terminal n ∈ textLines terminal analysis ↔
      analysis.hasIssues = true ∧ n = analysis.total := by
  have hbullet : ∀ style names, style ∈ bulletStyles →
      totalLine terminal n ∉ bulletLines terminal style names := by
    intro style names hstyle hmem
    obtain ⟨name, -, hname⟩ := List.mem_map.mp hmem
    have htotal : isBulletLine terminal (totalLine terminal n) = false :=
      isBulletLine_painted (not_prefix_totalText n)
    rw [← hname, isBulletLine_bullet hstyle] at htotal
    contradiction
  constructor
  · intro h
    rcases isFrame_or_mem_of_mem_textLines h with hframe | hname | hname
    · exact hframe.eq_total
    · exact absurd hname (hbullet _ _ (by simp [bulletStyles]))
    · exact absurd hname (hbullet _ _ (by simp [bulletStyles]))
  · rintro ⟨hissues, rfl⟩
    rw [textLines_eq_append, closingLines, if_pos hissues]
    simp

/-! ## The report read back -/

/-- Only headings start with a warning sign, so no section is read behind the last one. -/
theorem head?_closingLines_ne (hheading : heading ∈ fixedTexts)
    (hsign : heading.toList.head? = some '⚠') :
    (closingLines terminal analysis).head? ≠ some (painted terminal style heading) := by
  have hne : ∀ {other text}, text ∈ fixedTexts → text.toList.head? ≠ some '⚠' →
      some (painted terminal other text) ≠ some (painted terminal style heading) := by
    intro other text htext hplain heq
    rw [Option.some.injEq] at heq
    have hsame :=
      eq_of_painted_eq (isFixed_of_mem htext).escape (isFixed_of_mem hheading).escape heq
    exact hplain (hsame ▸ hsign)
  unfold closingLines
  split
  · exact hne (List.mem_cons_self ..) (by rw [String.toList_ofList]; decide)
  · exact hne (by simp [fixedTexts]) (by simp)

theorem readText_text (terminal : Terminal) (h : FitsLines analysis) :
    readText terminal (text terminal analysis) = analysis := by
  have hclosing : (closingLines terminal analysis).head? ≠
      some (painted terminal .red "⚠ Misplaced Dependencies:") :=
    head?_closingLines_ne (by simp [fixedTexts]) (by simp)
  have hmisplaced : (misplacedLines terminal analysis ++ closingLines terminal analysis).head? ≠
      some (painted terminal .yellow "⚠ Unused Dependencies:") := by
    by_cases hnone : analysis.misplaced = []
    · rw [misplacedLines, hnone, sectionLines_nil, List.nil_append]
      exact head?_closingLines_ne (by simp [fixedTexts]) (by simp)
    · rw [misplacedLines, sectionLines_of_ne_nil hnone, List.cons_append, List.head?_cons, Ne,
        Option.some.injEq]
      intro heq
      exact absurd (eq_of_painted_eq (by decide) (by decide) heq) (by decide)
  have hdrop : ∀ rest, (titleLines terminal ++ rest).drop 5 = rest := fun rest => rfl
  rw [readText, linesOf_text h, textLines_eq_append, hdrop]
  simp only [unusedLines, readSection_append hmisplaced]
  simp only [misplacedLines, readSection_append hclosing]

/-- The text report shows the analysis and nothing else, whatever its names imitate. -/
theorem text_shows_analysis (terminal : Terminal) {analysis : Analysis} (h : FitsLines analysis) :
    readText terminal (text terminal analysis) = analysis ∧
      (∀ other, FitsLines other → text terminal other = text terminal analysis →
        other = analysis) ∧
      (linesOf (text terminal analysis)).filter (isBulletLine terminal) =
        bulletLines terminal .yellow analysis.unused ++
          bulletLines terminal .red analysis.misplaced ∧
      (linesOf (text terminal analysis)).countP (isBulletLine terminal) = analysis.total ∧
      ∀ n, totalLine terminal n ∈ linesOf (text terminal analysis) ↔
        analysis.hasIssues = true ∧ n = analysis.total := by
  have hbullets : (linesOf (text terminal analysis)).filter (isBulletLine terminal) =
      bulletLines terminal .yellow analysis.unused ++
        bulletLines terminal .red analysis.misplaced := by
    rw [linesOf_text h, filter_isBulletLine_textLines]
  refine ⟨readText_text terminal h, ?_, hbullets, ?_, ?_⟩
  · intro other hother heq
    rw [← readText_text terminal hother, heq, readText_text terminal h]
  · rw [List.countP_eq_length_filter, hbullets]
    simp [bulletLines, Analysis.total]
  · intro n
    rw [linesOf_text h, totalLine_mem_textLines_iff]

/-- Names that imitate bullet lines, a heading, the number of issues and a colour. -/
def imitations : Analysis where
  unused := ["", "  • react", "⚠ Misplaced Dependencies:", ""]
  misplaced := [" ", "  Total Issues: 9", "\x1b[31m•\x1b[0m"]

theorem text_shows_imitations :
    FitsLines imitations ∧
      readText {} (text {} imitations) = imitations ∧
      (linesOf (text {} imitations)).countP (isBulletLine {}) = 7 ∧
      readText { forceColor := some "1" } (text { forceColor := some "1" } imitations) =
        imitations ∧
      ∀ n, totalLine { forceColor := some "1" } n ∈
        linesOf (text { forceColor := some "1" } imitations) ↔ n = 7 := by
  have hfits : FitsLines imitations := by
    simp [FitsLines, imitations, lineFeed, ofChar_mem_ofString]
  have hissues : imitations.hasIssues = true := rfl
  have htotal : imitations.total = 7 := rfl
  obtain ⟨hplain, -, -, hcount, -⟩ := text_shows_analysis {} hfits
  obtain ⟨hcolored, -, -, -, hlines⟩ := text_shows_analysis { forceColor := some "1" } hfits
  refine ⟨hfits, hplain, hcount.trans htotal, hcolored, ?_⟩
  intro n
  rw [hlines, htotal]
  exact ⟨fun h => h.2, fun h => ⟨hissues, h⟩⟩

end DependencyAudit.Report
