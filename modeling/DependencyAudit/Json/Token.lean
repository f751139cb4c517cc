import DependencyAudit.Json.Basic
import DependencyAudit.Text.Hexadecimal
import DependencyAudit.Text.Integer

/-!
# Tokens of a JSON text

A JSON text is brackets, braces, commas, colons, quoted texts, numbers and a few
words, with white space between them.  The lexer gives every token the position
at which it starts and stops at the first place where no token can be read; the
way it stopped is kept, because what is wrong there depends on what was expected.
Positions count code points from the start of the text.
-/

namespace DependencyAudit.Json

open DependencyAudit.Text

inductive Token where
  | openArray
  | closeArray
  | openObject
  | closeObject
  | comma
  | colon
  | string (value : CodeText)
  | atom (value : Json)
  deriving Repr

/-- What can be wrong with a JSON text. -/
inductive Problem where
  | byteOrderMark
  | valueExpected
  | nameExpected
  | colonExpected
  | commaExpected
  | extraData
  | controlCharacter
  | unterminatedText
  | invalidEscape
  | invalidUnicodeEscape
  deriving DecidableEq, Repr

/-- Why there is no further token: the text is finished, no token starts here, a
quoted text is broken, or a whole number has too many digits. -/
inductive Ending where
  | finished
  | stray
  | brokenText (problem : Problem) (position : Nat)
  | oversized (digits : Nat)
  deriving DecidableEq, Repr

def isSpace (c : Char) : Bool :=
  c = ' ' || c = '\t' || c = '\n' || c = '\r'

/-! ## Quoted texts -/

def shortEscape? (c : Char) : Option Char :=
  if c = '"' ∨ c = '\\' ∨ c = '/' then some c
  else if c = 'b' then some '\x08'
  else if c = 'f' then some '\x0c'
  else if c = 'n' then some '\n'
  else if c = 'r' then some '\r'
  else if c = 't' then some '\t'
  else none

/-- The codes of a quoted text after its opening quote mark, and the position
after its closing one.  A character stands for its code point, an escape of four
digits for the code unit it names; at least one character follows its digits. -/
def readCodes (opening position : Nat) : List Char → Except Ending (List Nat × Nat)
  | [] => .error (.brokenText .unterminatedText opening)
  | c :: rest =>
    if c = '"' then .ok ([], position + 1)
    else if c = '\\' then
      match rest with
      | [] => .error (.brokenText .unterminatedText opening)
      | 'u' :: a :: b :: c :: d :: e :: more =>
        match ofHexadecimal? [a, b, c, d] with
        | none => .error (.brokenText .invalidUnicodeEscape (position + 1))
        | some code =>
          (readCodes opening (position + 6) (e :: more)).map fun (codes, final) =>
            (code :: codes, final)
      | escape :: more =>
        if escape = 'u' then
          .error (.brokenText .invalidUnicodeEscape (position + 1))
        else
          match shortEscape? escape with
          | none => .error (.brokenText .invalidEscape position)
          | some char =>
            (readCodes opening (position + 2) more).map fun (codes, final) =>
              (char.toNat :: codes, final)
    else if c.toNat < 0x20 then .error (.brokenText .controlCharacter position)
    else
      (readCodes opening (position + 1) rest).map fun (codes, final) =>
        (c.toNat :: codes, final)

def isHighSurrogate (code : Nat) : Bool :=
  0xD800 ≤ code && code < 0xDC00

def isLowSurrogate (code : Nat) : Bool :=
  0xDC00 ≤ code && code < 0xE000

def codePoint (code : Nat) : CodePoint :=
  Fin.ofNat 0x110000 code

/-- The text that codes stand for: a high surrogate and the low one after it are one
character, and any other code is the code point of that number. -/
def ofCodes : List Nat → CodeText
  | [] => []
  | [code] => [codePoint code]
  | high :: low :: rest =>
    if isHighSurrogate high && isLowSurrogate low then
      codePoint (0x10000 + (high - 0xD800) * 0x400 + (low - 0xDC00)) :: ofCodes rest
    else codePoint high :: ofCodes (low :: rest)

/-! ## Numbers and words -/

def leadingDigits (text : List Char) : List Char :=
  text.takeWhile Char.isDigit

/-- The digits before a fraction or an exponent: a zero, or digits that do not
start with one. -/
def wholePart : List Char → List Char
  | '0' :: _ => ['0']
  | text => leadingDigits text

def fractionPart : List Char → List Char
  | '.' :: rest =>
    match leadingDigits rest with
    | [] => []
    | digits => '.' :: digits
  | _ => []

def exponentPart : List Char → List Char
  | mark :: rest =>
    if mark = 'e' ∨ mark = 'E' then
      let sign := rest.take 1 |>.filter fun c => c = '+' || c = '-'
      match leadingDigits (rest.drop sign.length) with
      | [] => []
      | digits => mark :: sign ++ digits
    else []
  | [] => []

/-- The longest number at the start of a text: its sign, its whole part, and its
fraction and exponent. -/
structure Numeral where
  sign : List Char
  whole : List Char
  fraction : List Char
  exponent : List Char
  deriving DecidableEq, Repr

def Numeral.read (text : List Char) : Numeral :=
  let sign := text.take 1 |>.filter (· = '-')
  let unsigned := text.drop sign.length
  let whole := wholePart unsigned
  let fraction := fractionPart (unsigned.drop whole.length)
  let exponent := exponentPart ((unsigned.drop whole.length).drop fraction.length)
  { sign, whole, fraction, exponent }

def Numeral.spelling (numeral : Numeral) : List Char :=
  numeral.sign ++ numeral.whole ++ numeral.fraction ++ numeral.exponent

def Numeral.isWhole (numeral : Numeral) : Bool :=
  numeral.fraction.isEmpty && numeral.exponent.isEmpty

def digitValue (c : Char) : Nat :=
  c.toNat - '0'.toNat

def Numeral.value (numeral : Numeral) : Json :=
  if numeral.isWhole then
    let size := ofDigits (numeral.whole.map digitValue)
    .integer (if numeral.sign.isEmpty then size else -(size : Int))
  else .real (String.ofList numeral.spelling)

/-- The words that stand for values, the three that are no finite numbers
included. -/
def words : List (List Char × Json) :=
  [("null".toList, .null), ("true".toList, .bool true), ("false".toList, .bool false),
    ("NaN".toList, .real "NaN"), ("Infinity".toList, .real "Infinity"),
    ("-Infinity".toList, .real "-Infinity")]

/-- The word or number at the start of a text, and its length. -/
def readAtom (text : List Char) : Except Ending (Token × Nat) :=
  match words.find? fun word => word.1.isPrefixOf text with
  | some (spelling, value) => .ok (.atom value, spelling.length)
  | none =>
    let numeral := Numeral.read text
    if numeral.whole.isEmpty then .error .stray
    else if numeral.isWhole && maxDigits < numeral.whole.length then
      .error (.oversized numeral.whole.length)
    else .ok (.atom numeral.value, numeral.spelling.length)

/-! ## The lexer -/

def punctuation? (c : Char) : Option Token :=
  if c = '[' then some .openArray
  else if c = ']' then some .closeArray
  else if c = '\x7b' then some .openObject
  else if c = '\x7d' then some .closeObject
  else if c = ',' then some .comma
  else if c = ':' then some .colon
  else none

/-- The token that starts with a character, and its length. -/
def readToken (position : Nat) (c : Char) (rest : List Char) :
    Except Ending (Token × Nat) :=
  match punctuation? c with
  | some token => .ok (token, 1)
  | none =>
    if c = '"' then
      (readCodes position (position + 1) rest).map fun (codes, final) =>
        (.string (ofCodes codes), final - position)
    else readAtom (c :: rest)

/-- The tokens of a text with their positions, and how and where they end. -/
def lex (position : Nat) : List Char → List (Nat × Token) × (Nat × Ending)
  | [] => ([], (position, .finished))
  | c :: rest =>
    if isSpace c then lex (position + 1) rest
    else
      match readToken position c rest with
      | .error ending => ([], (position, ending))
      | .ok (token, length) =>
        let later := lex (position + length) (rest.drop (length - 1))
        ((position, token) :: later.1, later.2)
termination_by text => text.length
decreasing_by
  · simp
  · simp only [List.length_drop, List.length_cons]
    omega

end DependencyAudit.Json
