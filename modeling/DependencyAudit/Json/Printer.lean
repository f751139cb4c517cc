import DependencyAudit.Json.Basic
import DependencyAudit.Text.Hexadecimal

/-!
# Printing JSON

A value is printed over several lines, each level indented by two blanks, and an
empty array or object on none.  A quoted text escapes the quote mark, the
backslash and the control characters; all else stands for itself, also what is no
character, so a printed value is a text of code points.
-/

namespace DependencyAudit.Json

open DependencyAudit.Text CodeText

def escapedChar (c : Char) : List Char :=
  if c = '"' then ['\\', '"']
  else if c = '\\' then ['\\', '\\']
  else if c = '\x08' then ['\\', 'b']
  else if c = '\x0c' then ['\\', 'f']
  else if c = '\n' then ['\\', 'n']
  else if c = '\r' then ['\\', 'r']
  else if c = '\t' then ['\\', 't']
  else if c.toNat < 0x20 then '\\' :: 'u' :: hexadecimal 4 c.toNat
  else [c]

def escaped (code : CodePoint) : CodeText :=
  if code.isCharacter then (escapedChar code.toChar).map CodePoint.ofChar else [code]

def quote (value : CodeText) : CodeText :=
  ofString "\"" ++ value.flatMap escaped ++ ofString "\""

/-- A new line, indented for a level. -/
def newline (level : Nat) : CodeText :=
  ofString "\n" ++ List.replicate (2 * level) (CodePoint.ofChar ' ')

mutual

/-- The text of a value whose first line stands at a level. -/
def renderAt (level : Nat) : Json → CodeText
  | .null => "null"
  | .bool true => "true"
  | .bool false => "false"
  | .integer value => toString value
  | .real text => text
  | .string value => quote value
  | .array [] => "[]"
  | .array (item :: items) =>
    ofString "[" ++ newline (level + 1) ++ renderAt (level + 1) item ++
      renderItems (level + 1) items ++ newline level ++ ofString "]"
  | .object [] => "\x7b\x7d"
  | .object ((name, value) :: members) =>
    ofString "\x7b" ++ newline (level + 1) ++ quote name ++ ofString ": " ++
      renderAt (level + 1) value ++ renderMembers (level + 1) members ++
      newline level ++ ofString "\x7d"

/-- The items after the first, each with the comma before it. -/
def renderItems (level : Nat) : List Json → CodeText
  | [] => []
  | item :: items =>
    ofString "," ++ newline level ++ renderAt level item ++ renderItems level items

def renderMembers (level : Nat) : List (CodeText × Json) → CodeText
  | [] => []
  | (name, value) :: members =>
    ofString "," ++ newline level ++ quote name ++ ofString ": " ++ renderAt level value ++
      renderMembers level members

end

def render (value : Json) : CodeText :=
  renderAt 0 value

end DependencyAudit.Json
