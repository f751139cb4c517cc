import DependencyAudit.Analysis
import DependencyAudit.Report.Terminal

/-!
# The text report

The report stands between rules: a title, then either one line of praise or up
to two sections of names, one bullet a line, and the number of issues.  A name is
printed as it is; only the bullet before it has a colour.
-/

namespace DependencyAudit.Report

open CodeText

/-- A line that is one painted text. -/
def painted (terminal : Terminal) (style : Style) (text : String) : CodeText :=
  ofString (terminal.paint style text)

/-- What stands before a name on its line. -/
def bullet (terminal : Terminal) (style : Style) : String :=
  "  " ++ terminal.paint style "•" ++ " "

/-- A heading, the remark below it, and the names; nothing when there are none. -/
def sectionLines (terminal : Terminal) (style : Style) (heading remark : String)
    (names : List CodeText) : List CodeText :=
  if names.isEmpty then []
  else
    [painted terminal style heading, painted terminal style remark, []] ++
      names.map (fun name => ofString (bullet terminal style) ++ name) ++ [[]]

def rule (terminal : Terminal) : CodeText :=
  painted terminal .cyan (String.ofList (List.replicate 60 '━'))

def titleLines (terminal : Terminal) : List CodeText :=
  [[], rule terminal, painted terminal .bold "  Dependency Analysis Report", rule terminal, []]

def praiseLines (terminal : Terminal) : List CodeText :=
  [painted terminal .green "✓ All dependencies are properly used and placed!", [],
    rule terminal, []]

def issueLines (terminal : Terminal) (analysis : Analysis) : List CodeText :=
  sectionLines terminal .yellow "⚠ Unused Dependencies:"
      "  (declared but not imported in source code)" analysis.unused ++
    sectionLines terminal .red "⚠ Misplaced Dependencies:"
      "  (in devDependencies but used in source code)" analysis.misplaced ++
    [rule terminal, painted terminal .bold ("  Total Issues: " ++ toString analysis.total),
      rule terminal, []]

def textLines (terminal : Terminal) (analysis : Analysis) : List CodeText :=
  titleLines terminal ++
    if analysis.hasIssues then issueLines terminal analysis else praiseLines terminal

def text (terminal : Terminal) (analysis : Analysis) : CodeText :=
  (ofString "\n").intercalate (textLines terminal analysis)

end DependencyAudit.Report
