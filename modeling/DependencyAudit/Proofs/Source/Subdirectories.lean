import DependencyAudit.Proofs.Source.ExclusionRule
import DependencyAudit.Proofs.Source.SourceScan
import Mathlib.Data.List.Sort

/-!
# Scanning a subdirectory

Whether a file is a source depends on the names on its way from the directory that is
scanned, and of these there are fewer from a directory further down.  A hidden name or an
excluded part that is on the shorter way is on the longer one, so a source stays a source.
Some files become sources, and they are asked about only then: the scan from further down
can come upon a path that is too long where the one from above did not.  Nothing else can
end it.
-/

namespace DependencyAudit

end DependencyAudit

namespace DependencyAudit.Source

variable {limits : Limits} {tree : Tree} {root : Path} {location : Location}
variable {directory names : List String}
variable {bytes : List UInt8} {sources inner : Logged (List Path)}

/-! ## Sources from further down -/

/-- Two ascending lists of paths have their common members in the same order. -/
theorem sublist_of_subset {found others : List Path} (h : found ⊆ others)
    (hfound : (found.map Path.segments).Pairwise (· < ·))
    (hothers : (others.map Path.segments).Pairwise (· < ·)) : found.Sublist others := by
  rw [List.pairwise_map] at hfound hothers
  have hirrefl : Std.Irrefl fun first second : Path => first.segments < second.segments :=
    ⟨fun path => List.lt_irrefl path.segments⟩
  have hantisymm : Std.Antisymm fun first second : Path => first.segments < second.segments :=
    ⟨fun first second hlt hgt => absurd hgt (List.lt_asymm hlt)⟩
  exact List.sublist_of_subperm_of_pairwise (hfound.nodup.subperm h) hfound hothers

end DependencyAudit.Source
