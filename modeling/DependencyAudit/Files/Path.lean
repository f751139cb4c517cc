import DependencyAudit.Text.Parts

/-!
# Paths

A path is an anchor and a list of segments.  Reading one drops empty segments
and single dots, so several spellings name the same path; double dots stay,
because what they mean depends on the files.  Exactly two leading slashes are an
anchor of their own.  Paths are compared segment by segment.
-/

namespace DependencyAudit

/-- Where the walk along a path begins. -/
inductive Anchor where
  | workingDirectory
  | root
  | doubleSlash
  deriving DecidableEq, Repr

structure Path where
  anchor : Anchor
  segments : List String
  deriving DecidableEq, Repr

namespace Path

open DependencyAudit.Text

def anchorOf (text : List Char) : Anchor :=
  match (text.takeWhile (· = '/')).length with
  | 0 => .workingDirectory
  | 2 => .doubleSlash
  | _ => .root

def isSegment (text : String) : Bool :=
  text ≠ "" && text ≠ "."

def parse (text : String) : Path :=
  ⟨anchorOf text.toList, (stringParts '/' text).filter isSegment⟩

def anchorText : Anchor → String
  | .workingDirectory => ""
  | .root => "/"
  | .doubleSlash => "//"

def text (path : Path) : String :=
  if path.anchor = .workingDirectory ∧ path.segments = [] then "."
  else anchorText path.anchor ++ "/".intercalate path.segments

/-- The path that goes on from a path along further segments. -/
def join (path : Path) (segments : List String) : Path :=
  ⟨path.anchor, path.segments ++ segments⟩

/-- Whether a segment holds the one character that no file name may hold besides
the slash. -/
def hasNull (path : Path) : Bool :=
  path.segments.any fun segment => segment.contains '\x00'

/-- The most bytes that the text of a path may have. -/
def maxBytes : Nat := 4095

def isTooLong (path : Path) : Bool :=
  maxBytes < path.text.utf8ByteSize

/-- The part of a name from its last dot on, unless that dot is its first or its
last character. -/
def suffixOf (name : List Char) : List Char :=
  let ending := name.reverse.takeWhile (· ≠ '.')
  match name.reverse.dropWhile (· ≠ '.') with
  | [] => []
  | _ :: stem => if stem = [] ∨ ending = [] then [] else '.' :: ending.reverse

def suffix (name : String) : String :=
  String.ofList (suffixOf name.toList)

end Path

end DependencyAudit
