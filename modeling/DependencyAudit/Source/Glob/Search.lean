import DependencyAudit.Source.Glob

/-!
# Searching for a glob pattern

The search reads a text from its end and keeps a row: one truth value for every
tail of the pattern, longest first, that says whether the tail matches at the
start of what was read.  So its work is the product of two lengths.  The main
statement is that the search finds a pattern exactly when some part of the text
matches it.
-/

namespace DependencyAudit.Source

/-- The row at the end of a text. -/
def Glob.rowAtEnd : Glob → List Bool
  | [] => [true]
  | atom :: glob =>
    let row := rowAtEnd glob
    (atom = .run && row.headD false) :: row

/-- The row of a text, given the row of the text without its first character. -/
def Glob.rowAt (c : Char) : Glob → List Bool → List Bool
  | [], _ => [true]
  | atom :: glob, before =>
    let row := rowAt c glob before.tail
    let found :=
      match atom with
      | .run => row.headD false || (c ≠ '\n' && before.headD false)
      | .any => c ≠ '\n' && before.tail.headD false
      | .literal expected => c = expected && before.tail.headD false
    found :: row

/-- The row of a text, and whether the pattern was found in it. -/
def Glob.scan (glob : Glob) : List Char → List Bool × Bool
  | [] =>
    let row := glob.rowAtEnd
    (row, row.headD false)
  | c :: rest =>
    let (before, found) := glob.scan rest
    let row := glob.rowAt c before
    (row, found || row.headD false)

def Glob.isIn (glob : Glob) (text : List Char) : Bool :=
  (glob.scan text).2

/-- A row that is right about a text. -/
inductive Glob.IsRow (text : List Char) : Glob → List Bool → Prop where
  | nil : IsRow text [] [true]
  | cons {atom : GlobAtom} {glob : Glob} {found : Bool} {row : List Bool} :
      (found = true ↔ Glob.MatchesStart (atom :: glob) text) → IsRow text glob row →
      IsRow text (atom :: glob) (found :: row)

theorem Glob.IsRow.headD_iff {text : List Char} {glob : Glob} {row : List Bool}
    (h : IsRow text glob row) : row.headD false = true ↔ glob.MatchesStart text := by
  cases h with
  | nil => simp [Glob.matchesStart_nil]
  | cons hfound _ => simpa using hfound

theorem Glob.isRow_rowAtEnd (glob : Glob) : IsRow [] glob glob.rowAtEnd := by
  induction glob with
  | nil => exact .nil
  | cons atom glob ih =>
      refine .cons ?_ ih
      by_cases hatom : atom = .run
      · subst hatom
        simp [-List.headD_eq_head?_getD, ih.headD_iff, Glob.matchesStart_run_nil]
      · simp [hatom, Glob.not_matchesStart_nil hatom]

theorem Glob.IsRow.rowAt {c : Char} {rest : List Char} {glob : Glob} {before : List Bool}
    (h : IsRow rest glob before) : IsRow (c :: rest) glob (glob.rowAt c before) := by
  induction h with
  | nil => exact .nil
  | @cons atom glob found row hfound hrow ih =>
      refine .cons ?_ ih
      cases atom with
      | run =>
          simp only [Bool.or_eq_true, Bool.and_eq_true, decide_eq_true_eq, List.headD_cons,
            List.tail_cons, Glob.matchesStart_run_cons, hfound, ih.headD_iff]
      | any =>
          simp [-List.headD_eq_head?_getD, Glob.matchesStart_any_cons, hrow.headD_iff]
      | literal d =>
          simp [-List.headD_eq_head?_getD, Glob.matchesStart_literal_cons, hrow.headD_iff]

theorem Glob.isRow_scan (glob : Glob) (text : List Char) :
    IsRow text glob (glob.scan text).1 := by
  induction text with
  | nil => exact Glob.isRow_rowAtEnd glob
  | cons c rest ih => exact ih.rowAt

/-- The search finds a pattern exactly when some part of the text matches it. -/
theorem Glob.isIn_iff {glob : Glob} {text : List Char} :
    glob.isIn text = true ↔ glob.FoundIn text := by
  induction text with
  | nil => simp only [Glob.isIn, Glob.scan, (Glob.isRow_rowAtEnd glob).headD_iff, Glob.foundIn_nil]
  | cons c rest ih =>
      have hrow := (Glob.isRow_scan glob (c :: rest)).headD_iff
      rw [Glob.foundIn_cons, ← ih, ← hrow]
      simp [Glob.isIn, Glob.scan]

end DependencyAudit.Source
