import DependencyAudit.Text.CodeText

/-!
# JSON values

A value keeps an object's members in the order of its text, repeated names
included: which member of a name counts is the reader's business, not the
value's.  A whole number is kept as a number, one with a fraction or an exponent
as its text, because nothing here calculates with it.  Quoted texts are lists of code
points, as an escape may name one that is no character.
-/

namespace DependencyAudit

inductive Json where
  | null
  | bool (value : Bool)
  | integer (value : Int)
  | real (text : String)
  | string (value : CodeText)
  | array (items : List Json)
  | object (members : List (CodeText × Json))
  deriving Repr

namespace Json

inductive Container where
  | array
  | object
  deriving DecidableEq, Repr

def lastMember? (name : CodeText) (members : List (CodeText × Json)) : Option Json :=
  (members.findRev? fun member => member.1 = name).map Prod.snd

def string? : Json → Option CodeText
  | .string value => some value
  | _ => none

def members? : Json → Option (List (CodeText × Json))
  | .object members => some members
  | _ => none

end Json

end DependencyAudit
