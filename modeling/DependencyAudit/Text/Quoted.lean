import DependencyAudit.Text.Hexadecimal
import DependencyAudit.Text.Printable

/-!
# Quoted texts in diagnostics

Paths and tokens appear in messages between quote marks: single ones, unless the
text has a single quote and no double one.  The backslash, the quote mark in use
and the characters that cannot be seen are written as escapes, so a quoted text
stays on one line.
-/

namespace DependencyAudit.Text

def quoteMark (text : List Char) : Char :=
  if '\'' ∈ text ∧ '"' ∉ text then '"' else '\''

def codeEscape (c : Char) : List Char :=
  let code := c.toNat
  if code < 0x100 then '\\' :: 'x' :: hexadecimal 2 code
  else if code < 0x10000 then '\\' :: 'u' :: hexadecimal 4 code
  else '\\' :: 'U' :: hexadecimal 8 code

def quotedChar (mark c : Char) : List Char :=
  if c = mark ∨ c = '\\' then ['\\', c]
  else if c = '\n' then ['\\', 'n']
  else if c = '\r' then ['\\', 'r']
  else if c = '\t' then ['\\', 't']
  else if isPrintable c then [c]
  else codeEscape c

/-- A text between quote marks, with escapes where it needs them. -/
def quoted (text : String) : String :=
  let mark := quoteMark text.toList
  String.ofList (mark :: text.toList.flatMap (quotedChar mark) ++ [mark])

/-- Quoted texts between brackets, separated by commas. -/
def quotedList (texts : List String) : String :=
  "[" ++ ", ".intercalate (texts.map quoted) ++ "]"

end DependencyAudit.Text
