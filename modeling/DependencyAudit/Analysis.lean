import DependencyAudit.Manifest.Basic
import DependencyAudit.Source.Usage

/-!
# The analysis

A declared dependency that no source imports is unused.  A development
dependency that a source imports is misplaced.  Both lists are in ascending order
and name a package once.  Names to be ignored are taken out of both lists
afterwards.
-/

namespace DependencyAudit

structure Analysis where
  unused : List CodeText
  misplaced : List CodeText
  deriving DecidableEq, Repr

namespace Analysis

def unusedNames (declared used : List CodeText) : List CodeText :=
  Ascending.ofList (declared.filter fun name => !used.contains name)

/-- The development names that are in use. -/
def misplacedNames (development used : List CodeText) : List CodeText :=
  Ascending.ofList (development.filter fun name => used.contains name)

def ofManifest (manifest : Manifest) (used : List CodeText) (checkAll : Bool) : Analysis where
  unused := unusedNames (manifest.declared checkAll) used
  misplaced := misplacedNames (manifest.names .development) used

/-- The analysis of a manifest against the sources below a directory. -/
def ofSources (limits : Limits) (tree : Tree) (manifest : Manifest) (root : Path)
    (checkAll : Bool) (mode : Source.Mode) : Except Abort (Logged Analysis) :=
  match Source.usedPackages limits tree root mode with
  | .error abort => .error abort
  | .ok used =>
    .ok ⟨ofManifest manifest (used.value.map CodeText.ofString) checkAll, used.events⟩

def total (analysis : Analysis) : Nat :=
  analysis.unused.length + analysis.misplaced.length

def hasIssues (analysis : Analysis) : Bool :=
  !analysis.unused.isEmpty || !analysis.misplaced.isEmpty

/-- The analysis without some names; the others keep their order. -/
def ignoring (analysis : Analysis) (ignored : List CodeText) : Analysis :=
  if ignored.isEmpty then analysis
  else {
    unused := analysis.unused.filter fun name => !ignored.contains name
    misplaced := analysis.misplaced.filter fun name => !ignored.contains name }

theorem ignoring_eq (analysis : Analysis) (ignored : List CodeText) :
    analysis.ignoring ignored =
      ⟨analysis.unused.filter fun name => !ignored.contains name,
        analysis.misplaced.filter fun name => !ignored.contains name⟩ := by
  unfold ignoring
  split
  · next h =>
      have hkept : ∀ names : List CodeText,
          names.filter (fun name => !([] : List CodeText).contains name) = names :=
        fun names => List.filter_eq_self.mpr fun _ _ => rfl
      rw [List.isEmpty_iff.mp h, hkept, hkept]
  · rfl

theorem mem_unusedNames {name : CodeText} {declared used : List CodeText} :
    name ∈ unusedNames declared used ↔ name ∈ declared ∧ name ∉ used := by
  simp [unusedNames, Ascending.mem_ofList]

theorem mem_misplacedNames {name : CodeText} {development used : List CodeText} :
    name ∈ misplacedNames development used ↔ name ∈ development ∧ name ∈ used := by
  simp [misplacedNames, Ascending.mem_ofList]

theorem hasIssues_iff_total_pos (analysis : Analysis) :
    analysis.hasIssues = true ↔ 0 < analysis.total := by
  simp only [hasIssues, total, Bool.or_eq_true, Bool.not_eq_true',
    List.isEmpty_eq_false_iff, ← List.length_pos_iff]
  omega

end Analysis

end DependencyAudit
