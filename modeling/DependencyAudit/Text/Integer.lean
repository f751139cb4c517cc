import DependencyAudit.Text.Blank
import DependencyAudit.Text.DecimalDigit

/-!
# Whole numbers as a user writes them

A number on the command line may stand between blanks, carry one sign, group
its digits by single underscores, and use the decimal digits of any script.  The
four separator controls U+001C to U+001F are blanks elsewhere, but not here.  A
number of more than `maxDigits` digits is refused, leading zeros included.
-/

namespace DependencyAudit.Text

def maxDigits : Nat := 4300

def isNumberBlank (c : Char) : Bool :=
  isBlank c && !(0x1C ≤ c.toNat && c.toNat ≤ 0x1F)

/-- The digits of a number, which single underscores may keep apart. -/
def groupedDigits? : List Char → Option (List Nat)
  | [] => none
  | c :: rest =>
    match decimalDigit? c with
    | none => none
    | some digit =>
      match rest with
      | [] => some [digit]
      | next :: more =>
        if next = '_' then (groupedDigits? more).map (digit :: ·)
        else (groupedDigits? (next :: more)).map (digit :: ·)

/-- The number that decimal digits denote, most significant first. -/
def ofDigits (digits : List Nat) : Nat :=
  digits.foldl (fun total digit => 10 * total + digit) 0

def natural? (text : List Char) : Option Nat :=
  match groupedDigits? text with
  | none => none
  | some digits => if digits.length ≤ maxDigits then some (ofDigits digits) else none

/-- The whole number that a text denotes, if it denotes one. -/
def integer? (text : String) : Option Int :=
  match trimBy isNumberBlank text.toList with
  | [] => none
  | sign :: rest =>
    if sign = '-' then (natural? rest).map fun n => -(n : Int)
    else if sign = '+' then (natural? rest).map Int.ofNat
    else (natural? (sign :: rest)).map Int.ofNat

end DependencyAudit.Text
