import DependencyAudit.Run

/-!
# The program

The program takes a snapshot of the files that an audit may read: those along the
path of the manifest, those along the path of the scanned directory, and all that
lies below it.  The audit itself runs on the snapshot.
-/

namespace DependencyAudit.Program

/-- The text of a location as a path of the system. -/
def systemPath (location : Location) : String :=
  "/" ++ "/".intercalate location

/-- The tree with what the system has at a location, if that is a file or a
directory. -/
def loadNode (tree : Tree) (location : Location) : IO Tree := do
  let place := (← IO.currentDir) / systemPath location
  if ← place.isDir then
    return (tree.makeDirectory? [] location).getD tree
  else if ← place.pathExists then
    let bytes ← IO.FS.readBinFile place
    return (tree.write? location bytes.toList).getD tree
  else
    return tree

/-- The tree with what lies along a path from a location, and where the path
leads. -/
def loadAlong (tree : Tree) (location : Location) : List String → IO (Tree × Location)
  | [] => return (tree, location)
  | name :: rest => do
    if name = ".." then
      loadAlong tree location.dropLast rest
    else
      let here := location ++ [name]
      loadAlong (← loadNode tree here) here rest

/-- The tree with all that lies below a location. -/
partial def loadBelow (tree : Tree) (location : Location) : IO Tree := do
  let place := (← IO.currentDir) / systemPath location
  if ← place.isDir then
    let mut loaded := tree
    for entry in ← place.readDir do
      let here := location ++ [entry.fileName]
      loaded ← loadBelow (← loadNode loaded here) here
    return loaded
  else
    return tree

/-- The files that an audit with given options may read. -/
def snapshot (options : CommandLine.Options) : IO Tree := do
  let home := (Path.parse (← IO.currentDir).toString).segments
  let (tree, _) ← loadAlong Tree.empty [] home
  let tree := (tree.changeDirectory? home).getD tree
  let manifest := Path.parse options.manifest
  let (tree, _) ← loadAlong tree (tree.start manifest) manifest.segments
  let root := Path.parse options.root
  let (tree, location) ← loadAlong tree (tree.start root) root.segments
  loadBelow tree location

def currentTerminal : IO Terminal := do
  let connected ← (← IO.getStdout).isTty
  return {
    noColor := ← IO.getEnv "NO_COLOR"
    forceColor := ← IO.getEnv "FORCE_COLOR"
    kind := ← IO.getEnv "TERM"
    output := if connected then .terminal else .pipe }

end DependencyAudit.Program

open DependencyAudit in
def main (arguments : List String) : IO UInt32 := do
  let tree ←
    match (CommandLine.parse arguments).value with
    | .audit options => Program.snapshot options
    | _ => pure Tree.empty
  match Run.run .standard tree (← Program.currentTerminal) arguments with
  | .ok outcome =>
    IO.print outcome.stdout
    IO.eprint outcome.stderr
    return outcome.exitCode.toUInt32
  | .error abort =>
    IO.eprintln abort.message
    return 1
