/-!
# Numbers with a fixed count of decimal places

Timings are binary floating-point numbers and are printed with two or four
places.  A finite number is exactly a mantissa times a power of two, so scaling
it by a power of ten and rounding the quotient of two natural numbers gives the
nearest decimal; a tie goes to the even neighbour.  The sign is kept even when
every digit printed is zero.
-/

namespace DependencyAudit.Decimal

/-- A floating-point number taken apart: a finite one is its mantissa times two
to its exponent. -/
inductive Binary where
  | finite (negative : Bool) (mantissa : Nat) (exponent : Int)
  | infinite (negative : Bool)
  | notANumber
  deriving DecidableEq, Repr

/-- The count of fractions that the bits of a floating-point number tell apart. -/
def fractionSize : Nat := 1 <<< 52

def Binary.ofFloat (x : Float) : Binary :=
  let bits := x.toBits.toNat
  let negative := bits >>> 63 = 1
  let exponent := (bits >>> 52) % 2048
  let fraction := bits % fractionSize
  if exponent = 2047 then
    if fraction = 0 then .infinite negative else .notANumber
  else if exponent = 0 then .finite negative fraction (-1074)
  else .finite negative (fraction + fractionSize) ((exponent : Int) - 1075)

/-- The whole number nearest to a quotient; a tie goes to the even one. -/
def roundQuotient (numerator denominator : Nat) : Nat :=
  let quotient := numerator / denominator
  let remainder := numerator % denominator
  if 2 * remainder < denominator then quotient
  else if denominator < 2 * remainder then quotient + 1
  else quotient + quotient % 2

/-- A mantissa times two to an exponent, in units of the last of `places`
decimal places. -/
def scaled (places mantissa : Nat) (exponent : Int) : Nat :=
  match exponent with
  | .ofNat e => (mantissa <<< e) * Nat.pow 10 places
  | .negSucc e => roundQuotient (mantissa * Nat.pow 10 places) (1 <<< (e + 1))

/-- The digits of a number with a point before the last `places` of them. -/
def pointed (places n : Nat) : List Char :=
  let digits := Nat.toDigits 10 n
  let padded := List.replicate (places + 1 - digits.length) '0' ++ digits
  let whole := padded.length - places
  padded.take whole ++ '.' :: padded.drop whole

def signText (negative : Bool) : String :=
  if negative then "-" else ""

def Binary.fixed (places : Nat) : Binary → String
  | .finite negative mantissa exponent =>
    signText negative ++ String.ofList (pointed places (scaled places mantissa exponent))
  | .infinite negative => signText negative ++ "inf"
  | .notANumber => "nan"

def fixed (places : Nat) (x : Float) : String :=
  (Binary.ofFloat x).fixed places

/-- The rounded quotient is within half a unit of the quotient. -/
theorem roundQuotient_near (numerator denominator : Nat) (h : 0 < denominator) :
    2 * numerator ≤ 2 * denominator * roundQuotient numerator denominator + denominator ∧
      2 * denominator * roundQuotient numerator denominator ≤
        2 * numerator + denominator := by
  have hdivision := Nat.div_add_mod numerator denominator
  have hremainder := Nat.mod_lt numerator h
  simp only [roundQuotient]
  generalize numerator / denominator = quotient at *
  generalize numerator % denominator = remainder at *
  subst hdivision
  have hassoc (n : Nat) : 2 * denominator * n = 2 * (denominator * n) :=
    Nat.mul_assoc ..
  split
  · rw [hassoc]
    omega
  · split
    · rw [hassoc, Nat.mul_add_one denominator]
      omega
    · rcases Nat.mod_two_eq_zero_or_one quotient with heven | hodd
      · rw [heven, Nat.add_zero, hassoc]
        omega
      · rw [hodd, hassoc, Nat.mul_add_one denominator]
        omega

theorem roundQuotient_tie_even {numerator denominator : Nat}
    (h : 2 * (numerator % denominator) = denominator) :
    roundQuotient numerator denominator % 2 = 0 := by
  simp only [roundQuotient, h]
  simp only [Nat.lt_irrefl, if_false]
  omega

end DependencyAudit.Decimal
