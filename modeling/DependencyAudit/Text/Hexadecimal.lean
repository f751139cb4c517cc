/-!
# Hexadecimal digits

Escapes name a character by its code in base sixteen.  Writing uses lower-case
digits and a fixed width; reading takes both cases.
-/

namespace DependencyAudit.Text

/-- The lowest `width` digits of a number in base sixteen. -/
def hexadecimal : Nat → Nat → List Char
  | 0, _ => []
  | width + 1, n => hexadecimal width (n / 16) ++ [Nat.digitChar (n % 16)]

def hexDigit? (c : Char) : Option Nat :=
  if '0' ≤ c ∧ c ≤ '9' then some (c.toNat - '0'.toNat)
  else if 'a' ≤ c ∧ c ≤ 'f' then some (c.toNat - 'a'.toNat + 10)
  else if 'A' ≤ c ∧ c ≤ 'F' then some (c.toNat - 'A'.toNat + 10)
  else none

/-- The number that hexadecimal digits denote, most significant first. -/
def ofHexadecimal? (digits : List Char) : Option Nat :=
  digits.foldlM (fun total c => (hexDigit? c).map (16 * total + ·)) 0

theorem length_hexadecimal (width n : Nat) :
    (hexadecimal width n).length = width := by
  induction width generalizing n with
  | zero => rfl
  | succ width ih => simp [hexadecimal, ih]

end DependencyAudit.Text
