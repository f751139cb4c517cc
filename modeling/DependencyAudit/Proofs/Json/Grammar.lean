import DependencyAudit.Json.Token
import Mathlib.Algebra.Group.Nat.Defs

/-!
# The grammar of JSON texts

A relation between texts and the values they are written for, free of positions and
of any order in which a reader looks at them.  A value may be written in many ways:
with spacing between its tokens, and with raw characters, short escapes or codes in
its quoted texts.  Beyond the standard grammar there are three words for numbers that
are not finite.  An element is a value with spacing around it; a document is one
element.
-/

namespace DependencyAudit.Json

open DependencyAudit.Text

def IsSpacing (text : List Char) : Prop :=
  ∀ c ∈ text, c = ' ' ∨ c = '\t' ∨ c = '\n' ∨ c = '\r'

theorem isSpacing_nil : IsSpacing [] := by
  simp [IsSpacing]

/-! ## Quoted texts -/

/-- A text between quote marks, and the codes it spells. -/
inductive Spelled : List Char → List Nat → Prop
  | nil : Spelled [] []
  | raw {c rest codes} : c ≠ '"' → c ≠ '\\' → 0x20 ≤ c.toNat → Spelled rest codes →
      Spelled (c :: rest) (c.toNat :: codes)
  | escape {letter c rest codes} : shortEscape? letter = some c → Spelled rest codes →
      Spelled ('\\' :: letter :: rest) (c.toNat :: codes)
  | code {digits code rest codes} : digits.length = 4 → ofHexadecimal? digits = some code →
      Spelled rest codes → Spelled ('\\' :: 'u' :: digits ++ rest) (code :: codes)

/-- The text that codes stand for.  A high surrogate and the low one behind it are one
character.  Any other code is the code point of that number, also a surrogate without its
other half. -/
inductive StandFor : List Nat → CodeText → Prop
  | nil : StandFor [] []
  | point {code : CodePoint} {codes text} :
      (isHighSurrogate code → ∀ low ∈ codes.head?, ¬ isLowSurrogate low) →
      StandFor codes text → StandFor (code.val :: codes) (code :: text)
  | pair {high low codes text} : isHighSurrogate high → isLowSurrogate low →
      StandFor codes text →
      StandFor (high :: low :: codes)
        (CodePoint.ofChar (Char.ofNat (0x10000 + (high - 0xD800) * 0x400 + (low - 0xDC00))) ::
          text)

def Quotes (body : List Char) (value : CodeText) : Prop :=
  ∃ codes, Spelled body codes ∧ StandFor codes value

/-! ## Numbers -/

def IsDigits (text : List Char) : Prop :=
  text ≠ [] ∧ ∀ c ∈ text, c.isDigit

/-- The parts of a number: an optional minus, a whole part without leading zeros, an
optional fraction and an optional exponent. -/
structure Numeral.IsProper (numeral : Numeral) : Prop where
  sign : numeral.sign = [] ∨ numeral.sign = ['-']
  whole : numeral.whole = ['0'] ∨ IsDigits numeral.whole ∧ numeral.whole.head? ≠ some '0'
  fraction : numeral.fraction = [] ∨
    ∃ digits, IsDigits digits ∧ numeral.fraction = '.' :: digits
  exponent : numeral.exponent = [] ∨
    ∃ mark sign digits, (mark = 'e' ∨ mark = 'E') ∧ (sign = [] ∨ sign = ['+'] ∨ sign = ['-']) ∧
      IsDigits digits ∧ numeral.exponent = mark :: sign ++ digits

/-! ## Values -/

mutual

inductive Written : List Char → Json → Prop
  | word {spelling value} : (spelling, value) ∈ words → Written spelling value
  | number {numeral : Numeral} : numeral.IsProper → Written numeral.spelling numeral.value
  | string {body value} : Quotes body value → Written ('"' :: body ++ ['"']) (.string value)
  | emptyArray {inside} : IsSpacing inside → Written ('[' :: inside ++ [']']) (.array [])
  | array {inside items} : WrittenItems inside items →
      Written ('[' :: inside ++ [']']) (.array items)
  | emptyObject {inside} : IsSpacing inside →
      Written ('\x7b' :: inside ++ ['\x7d']) (.object [])
  | object {inside members} : WrittenMembers inside members →
      Written ('\x7b' :: inside ++ ['\x7d']) (.object members)

/-- A value with spacing around it. -/
inductive Element : List Char → Json → Prop
  | mk {before body after value} : IsSpacing before → Written body value → IsSpacing after →
      Element (before ++ body ++ after) value

inductive WrittenItems : List Char → List Json → Prop
  | last {text value} : Element text value → WrittenItems text [value]
  | more {text value rest values} : Element text value → WrittenItems rest values →
      WrittenItems (text ++ ',' :: rest) (value :: values)

inductive WrittenMembers : List Char → List (CodeText × Json) → Prop
  | last {before body after text name value} : IsSpacing before → Quotes body name →
      IsSpacing after → Element text value →
      WrittenMembers (before ++ '"' :: body ++ '"' :: after ++ ':' :: text) [(name, value)]
  | more {before body after text name value rest members} : IsSpacing before →
      Quotes body name → IsSpacing after → Element text value →
      WrittenMembers rest members →
      WrittenMembers (before ++ '"' :: body ++ '"' :: after ++ ':' :: text ++ ',' :: rest)
        ((name, value) :: members)

end

/-! ## Depth and size -/

mutual

/-- The number of containers around the innermost value, its own included. -/
def depth : Json → Nat
  | .array items => depthOfItems items + 1
  | .object members => depthOfMembers members + 1
  | _ => 0

def depthOfItems : List Json → Nat
  | [] => 0
  | item :: items => max (depth item) (depthOfItems items)

def depthOfMembers : List (CodeText × Json) → Nat
  | [] => 0
  | (_, value) :: members => max (depth value) (depthOfMembers members)

end

mutual

def integers : Json → List Int
  | .integer n => [n]
  | .array items => integersOfItems items
  | .object members => integersOfMembers members
  | _ => []

def integersOfItems : List Json → List Int
  | [] => []
  | item :: items => integers item ++ integersOfItems items

def integersOfMembers : List (CodeText × Json) → List Int
  | [] => []
  | (_, value) :: members => integers value ++ integersOfMembers members

end

/-- A value whose containers nest at most so many levels, and whose whole numbers have at
most so many digits. -/
structure IsWithin (levels digits : Nat) (value : Json) : Prop where
  depth_le : value.depth ≤ levels
  integers_lt : ∀ n ∈ value.integers, n.natAbs < 10 ^ digits

end DependencyAudit.Json
