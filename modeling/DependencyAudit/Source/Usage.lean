import DependencyAudit.Source.Discovery
import DependencyAudit.Source.PackageName
import DependencyAudit.Source.Pool
import DependencyAudit.Source.Specifier
import DependencyAudit.Text.Newline
import DependencyAudit.Text.Utf8

/-!
# Packages in use

The packages in use are those that provide a module some source file imports.
The files are read one after the other or by a pool of workers; the collection
is the same, because merging does not depend on order.  Source text is decoded
leniently: bytes that are no UTF-8 hide nothing around them.
-/

namespace DependencyAudit.Source

inductive Mode where
  | sequential
  | parallel (workers : Int)
  deriving DecidableEq, Repr

def specifiersOfBytes (bytes : List UInt8) : List String :=
  specifiers (String.ofList (Text.unifyNewlines (Utf8.decodeLenient bytes)))

/-- The specifiers in the file that a path names; none when it cannot be read. -/
def imports (tree : Tree) (file : Path) : Except Abort (Logged (List String)) :=
  match tree.read file with
  | .error .nullInPath => .error .nullInPath
  | .error (.denied error) => .ok ⟨[], [.unreadableSource file error]⟩
  | .ok bytes => .ok ⟨specifiersOfBytes bytes, []⟩

/-- The packages that the file a path names imports from. -/
def importedPackages (tree : Tree) (file : Path) :
    Except Abort (Logged (List String)) :=
  match imports tree file with
  | .error abort => .error abort
  | .ok found => .ok ⟨packageNames found.value, found.events⟩

/-- The packages that files import from, read one after the other. -/
def collect (tree : Tree) : List Path → Except Abort (Logged (List String))
  | [] => .ok ⟨[], []⟩
  | file :: rest =>
    match importedPackages tree file with
    | .error abort => .error abort
    | .ok first =>
      match collect tree rest with
      | .error abort => .error abort
      | .ok others =>
        .ok ⟨Ascending.union first.value others.value, first.events ++ others.events⟩

/-- What one worker finds in a file; a file that cannot be opened gives nothing. -/
def workerResult (tree : Tree) (file : Path) : Logged (List String) :=
  match importedPackages tree file with
  | .error _ => ⟨[], []⟩
  | .ok found => found

/-- The packages that files import from, read by a pool of workers. -/
def collectInParallel (tree : Tree) (workers : Nat) (files : List Path) :
    Logged (List String) :=
  let pool : Pool Path := { workers, waiting := files }
  ⟨(pool.drain fun file => (workerResult tree file).value).merged,
    files.flatMap fun file => (workerResult tree file).events⟩

/-- The packages that the sources below a directory import from, in ascending
order. -/
def usedPackages (limits : Limits) (tree : Tree) (root : Path) (mode : Mode) :
    Except Abort (Logged (List String)) :=
  match files limits tree root with
  | .error abort => .error abort
  | .ok sources =>
    let count := sources.value.length
    match mode with
    | .sequential =>
      match collect tree sources.value with
      | .error abort => .error abort
      | .ok used =>
        .ok ⟨used.value, sources.events ++ [.scanning count] ++ used.events ++
          [.found used.value.length]⟩
    | .parallel workers =>
      if workers < 1 then .error .noWorkers
      else
        let used := collectInParallel tree workers.toNat sources.value
        .ok ⟨used.value, sources.events ++ [.scanningInParallel count workers] ++
          used.events ++ [.found used.value.length]⟩

end DependencyAudit.Source
