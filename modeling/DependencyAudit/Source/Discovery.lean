import DependencyAudit.Abort
import DependencyAudit.Ascending
import DependencyAudit.Event
import DependencyAudit.Limits
import DependencyAudit.Source.Exclusion

/-!
# Finding source files

The sources below a directory are its files at any depth that have one of four
suffixes, have no hidden name on their path from there, and are not excluded.
They come in the order of their paths, whatever the order of the tree.

A scan opens every directory below the first, also the hidden and the excluded
ones, and asks of every entry that may be a source whether it is a file.  Then it goes
down from the directory.  So a path that is too long to be asked about ends it, and so
does a directory that lies too deep to go down from.
-/

namespace DependencyAudit.Source

def suffixes : List String := [".ts", ".tsx", ".js", ".jsx"]

def isHidden (name : String) : Bool :=
  name.toList.head? = some '.'

/-- Whether a file is a source, by the names on its path from the directory. -/
def isEligible (names : List String) : Bool :=
  suffixes.contains (Path.suffix (names.getLastD "")) && !names.any isHidden &&
    !isExcluded ("/".intercalate names)

def eligibleBelow (tree : Tree) (location : Location) : List (List String) :=
  Ascending.ofList (((tree.filesBelow location).map Prod.fst).filter isEligible)

/-- When a scan first asks about a node, if it does.  The times are ordered as
lists.  A directory is opened under its own names.  An entry that may be a source
is asked about under an extra empty name, which puts it after the opening of its
directory and before that of any directory in there. -/
def visit? (names : List String) (node : Node) : Option (List String) :=
  if isEligible names then some (names.dropLast ++ "" :: names.getLast?.toList)
  else if node = .directory then some names
  else none

/-- What stands behind the names of a directory when a scan goes down from it: after
all the questions about its entries, and before the opening of any directory in there. -/
def descentMark : String := "\x00"

/-- The visits of a scan, from the path of its first directory, to what is too
long to be asked about, in their order. -/
def overlongVisits (tree : Tree) (root : Path) (location : Location) :
    List (List String) :=
  Ascending.ofList (((tree.nodesBelow location).filter fun entry =>
    (root.join entry.1).isTooLong).filterMap fun entry => visit? entry.1 entry.2)

/-- The times at which a scan would go down too deep, in their order. -/
def deepDescents (limits : Limits) (tree : Tree) (location : Location) :
    List (List String) :=
  Ascending.ofList (((tree.nodesBelow location).filter fun entry =>
    entry.2 = .directory && limits.directories < entry.1.length).map fun entry =>
      entry.1 ++ [descentMark])

/-- The times at which a scan cannot go on; it ends at the first of them. -/
def stops (limits : Limits) (tree : Tree) (root : Path) (location : Location) :
    List (List String) :=
  Ascending.union (overlongVisits tree root location) (deepDescents limits tree location)

/-- Why a scan ends at one of its stops. -/
def abortAt (root : Path) (stop : List String) : Abort :=
  if stop.getLast? = some descentMark then .scanTooDeep
  else .inaccessible (root.join (stop.filter (· ≠ ""))) .nameTooLong

/-- The sources below the directory that a path names; none when it names no
directory. -/
def files (limits : Limits) (tree : Tree) (root : Path) :
    Except Abort (Logged (List Path)) :=
  match tree.directory? root with
  | .error error => .error (.inaccessible root error)
  | .ok none => .ok ⟨[], [.missingRoot root]⟩
  | .ok (some location) =>
    match stops limits tree root location with
    | [] => .ok ⟨(eligibleBelow tree location).map root.join, []⟩
    | first :: _ => .error (abortAt root first)

end DependencyAudit.Source
