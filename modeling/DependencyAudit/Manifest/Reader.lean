import DependencyAudit.Event
import DependencyAudit.Json.Reader
import DependencyAudit.Limits
import DependencyAudit.Manifest.Basic
import DependencyAudit.Text.Newline
import DependencyAudit.Text.Utf8

/-!
# Reading a manifest

A manifest is a file of JSON text in strict UTF-8, with at most one byte order
mark before it.  A file that cannot be opened, decoded or parsed gives a read
error that names the cause; one that is beyond the limits of the reader aborts.
Any JSON value is accepted: a field that is missing or of the wrong kind is
absent, and of repeated fields the last counts.
-/

namespace DependencyAudit

namespace Manifest

inductive Cause where
  | denied (error : OsError)
  | undecodable (fault : Utf8.Fault)
  | malformed (error : Json.SyntaxError)
  deriving DecidableEq, Repr

structure ReadError where
  path : Path
  cause : Cause
  deriving DecidableEq, Repr

def ReadError.reason (error : ReadError) : String :=
  match error.cause with
  | .denied osError => osError.message error.path
  | .undecodable fault => fault.message
  | .malformed syntaxError => syntaxError.message

def ReadError.message (error : ReadError) : String :=
  "Failed to read package.json: " ++ error.reason

def jsonOfBytes (limits : Limits) (bytes : List UInt8) :
    Except Abort (Except Cause Json) :=
  match Utf8.decode (Utf8.dropByteOrderMark bytes) with
  | .error fault => .ok (.error (.undecodable fault))
  | .ok characters =>
    let text := Text.unifyNewlines characters
    match Json.parse limits.containers text with
    | .ok value => .ok (.ok value)
    | .error (.malformed problem position) =>
      .ok (.error (.malformed (Json.SyntaxError.locate text problem position)))
    | .error (.integerTooLong digits) => .error (.integerTooLong digits)
    | .error (.nestedTooDeep container) => .error (.nestedTooDeep container)

def stringField (members : List (CodeText × Json)) (name : CodeText) :
    Option CodeText :=
  (Json.lastMember? name members).bind Json.string?

def mappingField (members : List (CodeText × Json)) (cls : DependencyClass) :
    Option Mapping :=
  ((Json.lastMember? cls.field members).bind Json.members?).map Mapping.ofMembers

def ofMembers (members : List (CodeText × Json)) : Manifest where
  name := stringField members "name"
  version := stringField members "version"
  dependencies := mappingField members .production
  devDependencies := mappingField members .development
  peerDependencies := mappingField members .peer

/-- The manifest in a JSON value; one that is no object has no fields. -/
def ofJson (value : Json) : Manifest :=
  ofMembers (value.members?.getD [])

def read (limits : Limits) (tree : Tree) (path : Path) :
    Except Abort (Logged (Except ReadError Manifest)) :=
  match tree.read path with
  | .error .nullInPath => .error .nullInPath
  | .error (.denied error) => .ok ⟨.error ⟨path, .denied error⟩, []⟩
  | .ok bytes =>
    match jsonOfBytes limits bytes with
    | .error abort => .error abort
    | .ok (.error cause) => .ok ⟨.error ⟨path, cause⟩, []⟩
    | .ok (.ok value) =>
      let events := if value.members?.isSome then [] else [Event.notAnObject path]
      .ok ⟨.ok (ofJson value), events⟩

end Manifest

end DependencyAudit
