import DependencyAudit.Files.Path
import DependencyAudit.Files.Tree
import DependencyAudit.Text.Quoted

/-!
# Opening files

A path is followed segment by segment.  Double dots lead to the parent, a name
to what stands there, and nothing leads through a file.  A name that is too long
is noticed when it is looked up, so a missing directory before it is reported
first; a path that is too long as a whole is not followed at all.  A path with a
null character names nothing and cannot even be opened.
-/

namespace DependencyAudit

/-- What the system reports about a path that cannot be used. -/
inductive OsError where
  | notFound
  | notDirectory
  | isDirectory
  | nameTooLong
  deriving DecidableEq, Repr

namespace OsError

def number : OsError → Nat
  | .notFound => 2
  | .notDirectory => 20
  | .isDirectory => 21
  | .nameTooLong => 36

def description : OsError → String
  | .notFound => "No such file or directory"
  | .notDirectory => "Not a directory"
  | .isDirectory => "Is a directory"
  | .nameTooLong => "File name too long"

def report (error : OsError) (shown : String) : String :=
  "[Errno " ++ toString error.number ++ "] " ++ error.description ++ ": " ++ shown

def message (error : OsError) (path : Path) : String :=
  error.report (Text.quoted path.text)

end OsError

inductive OpenFailure where
  | nullInPath
  | denied (error : OsError)
  deriving DecidableEq, Repr

namespace Tree

/-- Where segments lead from a location. -/
def walk (tree : Tree) (location : Location) : List String → Except OsError Location
  | [] => .ok location
  | segment :: rest =>
    match tree.node? location with
    | some .directory =>
      if segment = ".." then tree.walk location.dropLast rest
      else if maxNameBytes < segment.utf8ByteSize then .error .nameTooLong
      else
        match tree.node? (location ++ [segment]) with
        | none => .error .notFound
        | some _ => tree.walk (location ++ [segment]) rest
    | _ => .error .notDirectory

def start (tree : Tree) (path : Path) : Location :=
  if path.anchor = .workingDirectory then tree.workingDirectory else []

/-- Where a path leads. -/
def locate (tree : Tree) (path : Path) : Except OsError Location :=
  if path.isTooLong then .error .nameTooLong
  else tree.walk (tree.start path) path.segments

def read (tree : Tree) (path : Path) : Except OpenFailure (List UInt8) :=
  if path.hasNull then .error .nullInPath
  else
    match tree.locate path with
    | .error error => .error (.denied error)
    | .ok location =>
      match tree.node? location with
      | some (.file bytes) => .ok bytes
      | some .directory => .error (.denied .isDirectory)
      | none => .error (.denied .notFound)

/-- The location of the directory that a path names, if it names one.  Only
excess length, of a name or of the path, is an error. -/
def directory? (tree : Tree) (path : Path) : Except OsError (Option Location) :=
  if path.hasNull then .ok none
  else
    match tree.locate path with
    | .error .nameTooLong => .error .nameTooLong
    | .error _ => .ok none
    | .ok location =>
      if tree.node? location = some .directory then .ok (some location) else .ok none

end Tree

end DependencyAudit
