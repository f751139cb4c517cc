/-!
# Colours on a terminal

Colour is a pair of escape sequences around a text.  Two environment variables
decide about it before anything else, the refusal before the demand; otherwise
the standard output has to be a terminal of a kind that is not known to lack
colours.  Standard error follows the same decision.
-/

namespace DependencyAudit

/-- What standard output is connected to. -/
inductive Stream where
  | pipe
  | terminal
  | bare
  deriving DecidableEq, Repr

/-- The environment variables about colour, and the standard output. -/
structure Terminal where
  noColor : Option String := none
  forceColor : Option String := none
  kind : Option String := none
  output : Stream := .pipe
  deriving DecidableEq, Repr

inductive Style where
  | red
  | yellow
  | green
  | cyan
  | bold
  deriving DecidableEq, Repr

def Style.code : Style → String
  | .red => "31"
  | .yellow => "33"
  | .green => "32"
  | .cyan => "36"
  | .bold => "1"

namespace Terminal

def isSet (setting : Option String) : Bool :=
  setting.getD "" ≠ ""

/-- Terminals that are known to lack colours. -/
def plainKinds : List String := ["dumb", "unknown"]

/-- A letter in lower case, the Kelvin sign included: no other character beyond
ASCII has a lower case among the letters of the plain kinds. -/
def lower (c : Char) : Char :=
  if c = '\u212A' then 'k' else c.toLower

def isPlain (terminal : Terminal) : Bool :=
  plainKinds.contains ((terminal.kind.getD "").map lower)

def supportsColor (terminal : Terminal) : Bool :=
  if isSet terminal.noColor then false
  else if isSet terminal.forceColor then true
  else terminal.output = .terminal && !terminal.isPlain

/-- A text between the sequence of a code and the sequence that resets it. -/
def colorize (terminal : Terminal) (text code : String) : String :=
  if terminal.supportsColor then "\x1b[" ++ code ++ "m" ++ text ++ "\x1b[0m" else text

def paint (terminal : Terminal) (style : Style) (text : String) : String :=
  terminal.colorize text style.code

end Terminal

end DependencyAudit
