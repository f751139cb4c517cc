import DependencyAudit.Files.Access

/-!
# Events

The audit notes what it does as a list of events.  They change no result; the
verbose mode of the command line prints them.
-/

namespace DependencyAudit

inductive Event where
  | notAnObject (manifest : Path)
  | missingRoot (root : Path)
  | unreadableSource (file : Path) (error : OsError)
  | scanning (files : Nat)
  | scanningInParallel (files : Nat) (workers : Int)
  | found (packages : Nat)
  | ignoredTokens (tokens : List String)
  deriving DecidableEq, Repr

def Event.message : Event → String
  | .notAnObject manifest =>
    manifest.text ++ " does not contain a JSON object, treating every field as absent"
  | .missingRoot root =>
    "Source directory " ++ root.text ++ " does not exist, nothing to scan"
  | .unreadableSource file error =>
    "Failed to read " ++ file.text ++ ": " ++ error.message file
  | .scanning files => "Scanning " ++ toString files ++ " source files"
  | .scanningInParallel files workers =>
    "Scanning " ++ toString files ++ " source files with " ++ toString workers ++ " workers"
  | .found packages => "Found " ++ toString packages ++ " used packages"
  | .ignoredTokens tokens =>
    "Ignoring unrecognized arguments: " ++ Text.quotedList tokens

/-- A value and the events on the way to it. -/
structure Logged (α : Type) where
  value : α
  events : List Event := []
  deriving Repr

end DependencyAudit
