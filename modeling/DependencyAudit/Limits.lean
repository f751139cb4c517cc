/-!
# Limits of a run

The reader of JSON, the scan for sources and the removal of a directory go down
level by level and hold on to each level that they are in.  How many they can hold
depends on where they start, so it is a parameter; what lies deeper ends them.
-/

namespace DependencyAudit

/-- How deep a run can go: the most JSON containers that may be open at one time, the
most names from the root of a scan to a directory below it, and the most names from a
directory that is removed to an entry below it. -/
structure Limits where
  containers : Nat
  directories : Nat
  removals : Nat
  deriving DecidableEq, Repr

/-- The limits of a program that is started on its own. -/
def Limits.standard : Limits where
  containers := 991
  directories := 987
  removals := 994

end DependencyAudit
