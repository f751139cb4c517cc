import DependencyAudit.Text.Hexadecimal

/-!
# UTF-8

Bytes are read one at a time.  Between characters the machine owes nothing;
inside one it knows how many continuation bytes are still owed and between which
bounds the next one must lie.  A byte outside the bounds ends the piece begun so
far as malformed and starts a new one.  So every file falls into pieces, each a
character or a malformed run of at most three bytes.  Strict reading stops at
the first malformed piece; lenient reading shows each one as U+FFFD.
-/

namespace DependencyAudit.Utf8

open DependencyAudit.Text

inductive Malformation where
  | startByte
  | continuationByte
  | endOfText
  deriving DecidableEq, Repr

/-- A character begun but not complete: the bytes read, their bits, the number
of bytes still owed, and the bounds of the next one. -/
structure Pending where
  bytes : List UInt8
  bits : Nat
  owed : Nat
  low : UInt8 := 0x80
  high : UInt8 := 0xBF
  deriving DecidableEq, Repr

inductive Piece where
  | scalar (c : Char)
  | malformed (reason : Malformation) (bytes : List UInt8)
  deriving DecidableEq, Repr

/-- What a byte means between characters. -/
def start (byte : UInt8) : List Piece × Option Pending :=
  let n := byte.toNat
  if n < 0x80 then ([.scalar (Char.ofNat n)], none)
  else if n < 0xC2 then ([.malformed .startByte [byte]], none)
  else if n < 0xE0 then ([], some ⟨[byte], n - 0xC0, 1, 0x80, 0xBF⟩)
  else if n < 0xF0 then
    ([], some ⟨[byte], n - 0xE0, 2, if n = 0xE0 then 0xA0 else 0x80,
      if n = 0xED then 0x9F else 0xBF⟩)
  else if n < 0xF5 then
    ([], some ⟨[byte], n - 0xF0, 3, if n = 0xF0 then 0x90 else 0x80,
      if n = 0xF4 then 0x8F else 0xBF⟩)
  else ([.malformed .startByte [byte]], none)

/-- The pieces that a byte completes, and what is pending after it. -/
def step : Option Pending → UInt8 → List Piece × Option Pending
  | none, byte => start byte
  | some pending, byte =>
    if pending.low ≤ byte ∧ byte ≤ pending.high then
      let bits := 64 * pending.bits + (byte.toNat - 0x80)
      if pending.owed ≤ 1 then ([.scalar (Char.ofNat bits)], none)
      else ([], some ⟨pending.bytes ++ [byte], bits, pending.owed - 1, 0x80, 0xBF⟩)
    else
      let (completed, next) := start byte
      (.malformed .continuationByte pending.bytes :: completed, next)

/-- The pieces of a byte sequence, read on from a pending character. -/
def pieces : Option Pending → List UInt8 → List Piece
  | none, [] => []
  | some pending, [] => [.malformed .endOfText pending.bytes]
  | state, byte :: rest => (step state byte).1 ++ pieces (step state byte).2 rest

def replacement : Char := '\uFFFD'

def Piece.shown : Piece → Char
  | .scalar c => c
  | .malformed _ _ => replacement

/-- Reading that shows each malformed piece as one replacement character. -/
def decodeLenient (bytes : List UInt8) : List Char :=
  (pieces none bytes).map Piece.shown

/-- The first malformed piece of a text: where it stands and what is wrong. -/
structure Fault where
  position : Nat
  bytes : List UInt8
  reason : Malformation
  deriving DecidableEq, Repr

def scalars (position : Nat) : List Piece → Except Fault (List Char)
  | [] => .ok []
  | .malformed reason bytes :: _ => .error ⟨position, bytes, reason⟩
  | .scalar c :: rest => (scalars (position + c.utf8Size) rest).map (c :: ·)

/-- Reading that refuses every malformed piece. -/
def decode (bytes : List UInt8) : Except Fault (List Char) :=
  scalars 0 (pieces none bytes)

def byteOrderMark : List UInt8 := [0xEF, 0xBB, 0xBF]

/-- A text without the byte order mark before it.  A text that stops within the
mark has nothing after it. -/
def dropByteOrderMark (bytes : List UInt8) : List UInt8 :=
  if bytes.isPrefixOf byteOrderMark then []
  else if byteOrderMark.isPrefixOf bytes then bytes.drop byteOrderMark.length
  else bytes

def Malformation.message : Malformation → String
  | .startByte => "invalid start byte"
  | .continuationByte => "invalid continuation byte"
  | .endOfText => "unexpected end of data"

def Fault.message (fault : Fault) : String :=
  let place :=
    match fault.bytes with
    | [byte] =>
      "byte 0x" ++ String.ofList (hexadecimal 2 byte.toNat) ++ " in position " ++
        toString fault.position
    | bytes =>
      "bytes in position " ++ toString fault.position ++ "-" ++
        toString (fault.position + bytes.length - 1)
  "'utf-8' codec can't decode " ++ place ++ ": " ++ fault.reason.message

theorem pieces_none_nil : pieces none [] = [] := rfl

theorem pieces_cons (state : Option Pending) (byte : UInt8) (rest : List UInt8) :
    pieces state (byte :: rest) =
      (step state byte).1 ++ pieces (step state byte).2 rest := by
  cases state <;> rfl

/-- The state after a byte sequence, and the pieces completed on the way. -/
def advance (state : Option Pending) (bytes : List UInt8) :
    List Piece × Option Pending :=
  match bytes with
  | [] => ([], state)
  | byte :: rest =>
    let (completed, next) := step state byte
    let (later, final) := advance next rest
    (completed ++ later, final)

theorem pieces_append (state : Option Pending) (left right : List UInt8) :
    pieces state (left ++ right) =
      (advance state left).1 ++ pieces (advance state left).2 right := by
  induction left generalizing state with
  | nil => simp [advance]
  | cons byte rest ih => simp [pieces_cons, advance, ih]

end DependencyAudit.Utf8
