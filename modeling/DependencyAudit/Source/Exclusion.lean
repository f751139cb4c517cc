import DependencyAudit.Source.Glob.Search

/-!
# Excluded files

Installed packages, build output and tests are not part of what a project
imports at run time.  They are told by patterns that are searched for anywhere in
the path below the scanned directory, so a directory whose name merely starts
with the word test is excluded as well.
-/

namespace DependencyAudit.Source

def exclusionPatterns : List String :=
  ["**/node_modules/**", "**/dist/**", "**/*.test.*", "**/*.spec.*", "**/test/**",
    "**/tests/**"]

def exclusions : List Glob :=
  exclusionPatterns.map Glob.ofText

/-- A relative path as the patterns see it: with one leading slash, and slashes
for backslashes. -/
def rooted (relative : List Char) : List Char :=
  '/' :: (relative.map fun c => if c = '\\' then '/' else c).dropWhile (· = '/')

/-- Whether the file at a path below the scanned directory is left out. -/
def isExcluded (relative : String) : Bool :=
  exclusions.any fun glob => glob.isIn (rooted relative.toList)

end DependencyAudit.Source
