import DependencyAudit.Text.Utf8
import Mathlib.Tactic.Ring

/-!
# Decoding and encoding UTF-8

The machine that reads bytes is compared with the encoding of characters.  A pending
character is described by the codes it may still become: it owes the continuation
bytes of such a code, and together with the bytes read so far they are the encoding
of that code.  Two statements follow.  The pieces of a byte sequence hold its bytes,
so nothing is lost or invented; and strict reading gives characters exactly when the
bytes are their encoding.
-/

namespace DependencyAudit.Utf8

def encode (characters : List Char) : List UInt8 :=
  characters.flatMap String.utf8EncodeChar

def continuation (code : Nat) : Nat → List UInt8
  | 0 => []
  | count + 1 => UInt8.ofNat (0x80 + code / 64 ^ count % 64) :: continuation code count

def Piece.bytes : Piece → List UInt8
  | .scalar c => String.utf8EncodeChar c
  | .malformed _ bytes => bytes

/-- The code continues a pending character: it starts with the bits read, and the
bits of its next byte lie within the bounds. -/
structure Pending.Allows (pending : Pending) (code : Nat) : Prop where
  bits : code / 64 ^ pending.owed = pending.bits
  low : pending.low.toNat ≤ 0x80 + code / 64 ^ (pending.owed - 1) % 64
  high : 0x80 + code / 64 ^ (pending.owed - 1) % 64 ≤ pending.high.toNat

/-- What the machine promises about a pending character. -/
structure Pending.IsValid (pending : Pending) : Prop where
  owed_pos : 0 < pending.owed
  low_ge : 0x80 ≤ pending.low.toNat
  high_le : pending.high.toNat ≤ 0xBF
  encodes : ∀ code, pending.Allows code →
    code.isValidChar ∧
      String.utf8EncodeChar (Char.ofNat code) =
        pending.bytes ++ continuation code pending.owed

theorem toNat_ofNat_of_isValidChar {code : Nat} (h : code.isValidChar) :
    (Char.ofNat code).val.toNat = code := by
  rw [Char.ofNat, dif_pos h]
  rfl

theorem utf8EncodeChar_ofNat {code : Nat} (h : code.isValidChar) :
    String.utf8EncodeChar (Char.ofNat code) =
      if code ≤ 0x7F then [UInt8.ofNat code]
      else if code ≤ 0x7FF then
        [UInt8.ofNat (code / 64 % 0x20 + 0xC0), UInt8.ofNat (code % 0x40 + 0x80)]
      else if code ≤ 0xFFFF then
        [UInt8.ofNat (code / 4096 % 0x10 + 0xE0), UInt8.ofNat (code / 64 % 0x40 + 0x80),
          UInt8.ofNat (code % 0x40 + 0x80)]
      else
        [UInt8.ofNat (code / 262144 % 0x08 + 0xF0), UInt8.ofNat (code / 4096 % 0x40 + 0x80),
          UInt8.ofNat (code / 64 % 0x40 + 0x80), UInt8.ofNat (code % 0x40 + 0x80)] := by
  unfold String.utf8EncodeChar
  rw [toNat_ofNat_of_isValidChar h]

/-! ## The first byte -/

theorem ofNat_add_eq {byte : UInt8} {bits base : Nat} (hbits : bits = byte.toNat - base)
    (hbase : base ≤ byte.toNat) : UInt8.ofNat (bits + base) = byte := by
  rw [hbits, Nat.sub_add_cancel hbase, UInt8.ofNat_toNat]

theorem isValid_two {byte : UInt8} (hlow : 0xC2 ≤ byte.toNat) (hhigh : byte.toNat < 0xE0) :
    Pending.IsValid ⟨[byte], byte.toNat - 0xC0, 1, 0x80, 0xBF⟩ := by
  refine ⟨Nat.one_pos, le_rfl, le_rfl, ?_⟩
  intro code hcode
  have hbits : code / 64 = byte.toNat - 0xC0 := by simpa using hcode.bits
  have hvalid : code.isValidChar := Or.inl (by omega)
  refine ⟨hvalid, ?_⟩
  rw [utf8EncodeChar_ofNat hvalid, if_neg (by omega), if_pos (by omega),
    Nat.mod_eq_of_lt (by omega), ofNat_add_eq hbits (by omega)]
  simp [continuation, Nat.add_comm]

theorem isValid_three {byte : UInt8} (hlow : 0xE0 ≤ byte.toNat) (hhigh : byte.toNat < 0xF0) :
    Pending.IsValid ⟨[byte], byte.toNat - 0xE0, 2, if byte.toNat = 0xE0 then 0xA0 else 0x80,
      if byte.toNat = 0xED then 0x9F else 0xBF⟩ := by
  refine ⟨Nat.two_pos, by simp only; split <;> decide, by simp only; split <;> decide, ?_⟩
  intro code hcode
  have hbits : code / 4096 = byte.toNat - 0xE0 := by simpa using hcode.bits
  -- The bounds of the second byte leave out short codes and the surrogates.
  have hshort : byte.toNat = 0xE0 → 0x800 ≤ code := by
    intro hbyte
    have hnext := hcode.low
    simp only [hbyte, if_true, UInt8.reduceToNat, Nat.reduceSub, pow_one] at hnext
    omega
  have hsurrogate : byte.toNat = 0xED → code < 0xD800 := by
    intro hbyte
    have hnext := hcode.high
    simp only [hbyte, if_true, UInt8.reduceToNat, Nat.reduceSub, pow_one] at hnext
    omega
  have hlong : 0x800 ≤ code := by omega
  have hvalid : code.isValidChar := by
    by_cases hbyte : byte.toNat ≤ 0xED
    · exact Or.inl (by omega)
    · exact Or.inr ⟨by omega, by omega⟩
  refine ⟨hvalid, ?_⟩
  rw [utf8EncodeChar_ofNat hvalid, if_neg (by omega), if_neg (by omega), if_pos (by omega),
    Nat.mod_eq_of_lt (a := code / 4096) (by omega), ofNat_add_eq hbits (by omega)]
  simp [continuation, Nat.add_comm]

theorem isValid_four {byte : UInt8} (hlow : 0xF0 ≤ byte.toNat) (hhigh : byte.toNat < 0xF5) :
    Pending.IsValid ⟨[byte], byte.toNat - 0xF0, 3, if byte.toNat = 0xF0 then 0x90 else 0x80,
      if byte.toNat = 0xF4 then 0x8F else 0xBF⟩ := by
  refine ⟨Nat.succ_pos 2, by simp only; split <;> decide, by simp only; split <;> decide, ?_⟩
  intro code hcode
  have hbits : code / 262144 = byte.toNat - 0xF0 := by simpa using hcode.bits
  -- The bounds of the second byte leave out short codes and those above the last plane.
  have hshort : byte.toNat = 0xF0 → 0x10000 ≤ code := by
    intro hbyte
    have hnext := hcode.low
    simp only [hbyte, if_true, UInt8.reduceToNat, Nat.reduceSub, Nat.reducePow] at hnext
    omega
  have hlast : byte.toNat = 0xF4 → code < 0x110000 := by
    intro hbyte
    have hnext := hcode.high
    simp only [hbyte, if_true, UInt8.reduceToNat, Nat.reduceSub, Nat.reducePow] at hnext
    omega
  have hlong : 0x10000 ≤ code := by omega
  have hvalid : code.isValidChar := Or.inr ⟨by omega, by omega⟩
  refine ⟨hvalid, ?_⟩
  rw [utf8EncodeChar_ofNat hvalid, if_neg (by omega), if_neg (by omega), if_neg (by omega),
    Nat.mod_eq_of_lt (a := code / 262144) (by omega), ofNat_add_eq hbits (by omega)]
  simp [continuation, Nat.add_comm]

theorem ascii_bytes {byte : UInt8} (h : byte.toNat < 0x80) :
    String.utf8EncodeChar (Char.ofNat byte.toNat) = [byte] := by
  have hvalid : byte.toNat.isValidChar := Or.inl (by omega)
  rw [utf8EncodeChar_ofNat hvalid, if_pos (by omega), UInt8.ofNat_toNat]

def heldBytes : Option Pending → List UInt8
  | none => []
  | some pending => pending.bytes

def IsValidState (state : Option Pending) : Prop :=
  ∀ pending, state = some pending → pending.IsValid

theorem isValidState_none : IsValidState none := by
  intro pending h
  contradiction

theorem Pending.IsValid.isValidState {pending : Pending} (h : pending.IsValid) :
    IsValidState (some pending) := by
  intro other hother
  rw [Option.some.injEq] at hother
  exact hother ▸ h

theorem start_spec (byte : UInt8) :
    (start byte).1.flatMap Piece.bytes ++ heldBytes (start byte).2 = [byte] ∧
      IsValidState (start byte).2 := by
  unfold start
  simp only
  split
  · next hascii =>
      exact ⟨by simp [Piece.bytes, heldBytes, ascii_bytes hascii], isValidState_none⟩
  split
  · exact ⟨rfl, isValidState_none⟩
  split
  · exact ⟨rfl, (isValid_two (by omega) (by omega)).isValidState⟩
  split
  · exact ⟨rfl, (isValid_three (by omega) (by omega)).isValidState⟩
  split
  · exact ⟨rfl, (isValid_four (by omega) (by omega)).isValidState⟩
  · exact ⟨rfl, isValidState_none⟩

/-! ## The bytes after the first -/

/-- A code that goes on with a byte within the bounds is allowed, and that byte is
the next one of its encoding. -/
theorem Pending.IsValid.allows {pending : Pending} {byte : UInt8} {code : Nat}
    (h : pending.IsValid) (hlow : pending.low ≤ byte) (hhigh : byte ≤ pending.high)
    (hcode : code / 64 ^ (pending.owed - 1) = 64 * pending.bits + (byte.toNat - 0x80)) :
    pending.Allows code ∧
      continuation code pending.owed = byte :: continuation code (pending.owed - 1) := by
  have hlow := UInt8.le_iff_toNat_le.mp hlow
  have hhigh := UInt8.le_iff_toNat_le.mp hhigh
  have hlowest := h.low_ge
  have hhighest := h.high_le
  obtain ⟨count, hcount⟩ := Nat.exists_eq_add_of_lt h.owed_pos
  rw [Nat.zero_add] at hcount
  rw [hcount, Nat.add_sub_cancel] at hcode
  have hlast : code / 64 ^ count % 64 = byte.toNat - 0x80 := by omega
  have hbyte : UInt8.ofNat (0x80 + (byte.toNat - 0x80)) = byte := by
    rw [Nat.add_sub_cancel' (by omega), UInt8.ofNat_toNat]
  refine ⟨⟨?_, ?_, ?_⟩, ?_⟩
  · rw [hcount, pow_succ, ← Nat.div_div_eq_div_mul, hcode]
    omega
  · rw [hcount, Nat.add_sub_cancel, hlast]
    omega
  · rw [hcount, Nat.add_sub_cancel, hlast]
    omega
  · rw [hcount, continuation, hlast, hbyte, Nat.add_sub_cancel]

theorem Pending.IsValid.next {pending : Pending} {byte : UInt8} (h : pending.IsValid)
    (hlow : pending.low ≤ byte) (hhigh : byte ≤ pending.high) (howed : 1 < pending.owed) :
    Pending.IsValid ⟨pending.bytes ++ [byte], 64 * pending.bits + (byte.toNat - 0x80),
      pending.owed - 1, 0x80, 0xBF⟩ := by
  refine ⟨Nat.sub_pos_of_lt howed, le_rfl, le_rfl, ?_⟩
  intro code hcode
  obtain ⟨hallowed, hcontinuation⟩ := h.allows hlow hhigh hcode.bits
  obtain ⟨hvalid, hencoding⟩ := h.encodes code hallowed
  refine ⟨hvalid, ?_⟩
  rw [hencoding, hcontinuation, List.append_assoc, List.singleton_append]

theorem Pending.IsValid.complete {pending : Pending} {byte : UInt8} (h : pending.IsValid)
    (hlow : pending.low ≤ byte) (hhigh : byte ≤ pending.high) (howed : pending.owed ≤ 1) :
    String.utf8EncodeChar (Char.ofNat (64 * pending.bits + (byte.toNat - 0x80))) =
      pending.bytes ++ [byte] := by
  have hone : pending.owed = 1 := Nat.le_antisymm howed h.owed_pos
  have hcode : (64 * pending.bits + (byte.toNat - 0x80)) / 64 ^ (pending.owed - 1) =
      64 * pending.bits + (byte.toNat - 0x80) := by simp [hone]
  obtain ⟨hallowed, hcontinuation⟩ := h.allows hlow hhigh hcode
  rw [(h.encodes _ hallowed).2, hcontinuation, hone]
  rfl

theorem step_spec {state : Option Pending} (h : IsValidState state) (byte : UInt8) :
    (step state byte).1.flatMap Piece.bytes ++ heldBytes (step state byte).2 =
        heldBytes state ++ [byte] ∧
      IsValidState (step state byte).2 := by
  obtain ⟨hbytes, hstart⟩ := start_spec byte
  cases state with
  | none => exact ⟨hbytes, hstart⟩
  | some pending =>
      have hpending := h pending rfl
      simp only [step]
      split
      · next hbounds =>
          split
          · next howed =>
              refine ⟨?_, isValidState_none⟩
              simp [Piece.bytes, heldBytes, hpending.complete hbounds.1 hbounds.2 howed]
          · next howed =>
              exact ⟨rfl, (hpending.next hbounds.1 hbounds.2 (by omega)).isValidState⟩
      · refine ⟨?_, hstart⟩
        rw [List.flatMap_cons, List.append_assoc, hbytes]
        rfl

/-! ## All bytes -/

/-- The pieces of a byte sequence hold its bytes. -/
theorem flatMap_bytes_pieces {state : Option Pending} (h : IsValidState state)
    (bytes : List UInt8) :
    (pieces state bytes).flatMap Piece.bytes = heldBytes state ++ bytes := by
  induction bytes generalizing state with
  | nil => cases state <;> simp [pieces, heldBytes, Piece.bytes]
  | cons byte rest ih =>
      obtain ⟨hbytes, hnext⟩ := step_spec h byte
      rw [pieces_cons, List.flatMap_append, ih hnext, ← List.append_assoc, hbytes,
        List.append_assoc, List.singleton_append]

theorem isValidState_advance {state : Option Pending} (h : IsValidState state)
    (bytes : List UInt8) : IsValidState (advance state bytes).2 := by
  induction bytes generalizing state with
  | nil => exact h
  | cons byte rest ih => exact ih (step_spec h byte).2

theorem bytes_of_pieces (bytes : List UInt8) :
    (pieces none bytes).flatMap Piece.bytes = bytes :=
  flatMap_bytes_pieces isValidState_none bytes

/-! ## Encoded characters are read back -/

theorem Pending.Allows.next_byte {pending : Pending} {code : Nat} (hvalid : pending.IsValid)
    (hcode : pending.Allows code) :
    ∃ byte, continuation code pending.owed = byte :: continuation code (pending.owed - 1) ∧
      pending.low ≤ byte ∧ byte ≤ pending.high ∧
      code / 64 ^ (pending.owed - 1) = 64 * pending.bits + (byte.toNat - 0x80) := by
  obtain ⟨count, hcount⟩ := Nat.exists_eq_add_of_lt hvalid.owed_pos
  rw [Nat.zero_add] at hcount
  have hbits := hcode.bits
  have hlow := hcode.low
  have hhigh := hcode.high
  rw [hcount, pow_succ, ← Nat.div_div_eq_div_mul] at hbits
  rw [hcount, Nat.add_sub_cancel] at hlow hhigh
  have hbyte : (UInt8.ofNat (0x80 + code / 64 ^ count % 64)).toNat =
      0x80 + code / 64 ^ count % 64 := by
    rw [UInt8.toNat_ofNat', Nat.mod_eq_of_lt (by omega)]
  refine ⟨UInt8.ofNat (0x80 + code / 64 ^ count % 64), ?_, ?_, ?_, ?_⟩
  · rw [hcount, continuation, Nat.add_sub_cancel]
  · rw [UInt8.le_iff_toNat_le, hbyte]
    exact hlow
  · rw [UInt8.le_iff_toNat_le, hbyte]
    exact hhigh
  · rw [hbyte, hcount, Nat.add_sub_cancel]
    omega

theorem pieces_continuation {pending : Pending} {code : Nat} (hvalid : pending.IsValid)
    (hcode : pending.Allows code) (rest : List UInt8) :
    pieces (some pending) (continuation code pending.owed ++ rest) =
      .scalar (Char.ofNat code) :: pieces none rest := by
  induction howed : pending.owed using Nat.strongRecOn generalizing pending with
  | ind owed ih =>
      obtain ⟨byte, hbyte, hlow, hhigh, hbits⟩ := hcode.next_byte hvalid
      rw [← howed, hbyte, List.cons_append, pieces_cons]
      simp only [step, hlow, hhigh, and_self, if_true]
      by_cases hlast : pending.owed ≤ 1
      · have hone : pending.owed = 1 := Nat.le_antisymm hlast hvalid.owed_pos
        rw [hone, Nat.sub_self, pow_zero, Nat.div_one] at hbits
        rw [if_pos hlast, hone, Nat.sub_self, continuation, ← hbits]
        rfl
      · rw [if_neg hlast]
        have hnext := hvalid.next hlow hhigh (by omega)
        have hallowed : Pending.Allows ⟨pending.bytes ++ [byte],
            64 * pending.bits + (byte.toNat - 0x80), pending.owed - 1, 0x80, 0xBF⟩ code := by
          refine ⟨hbits, ?_, ?_⟩
          · simp only [UInt8.reduceToNat]
            omega
          · simp only [UInt8.reduceToNat]
            omega
        exact ih (pending.owed - 1) (by omega) hnext hallowed rfl

theorem pieces_of_start {byte : UInt8} {pending : Pending} {code : Nat}
    (hstart : start byte = ([], some pending)) (hcode : pending.Allows code)
    (rest : List UInt8) :
    pieces none (String.utf8EncodeChar (Char.ofNat code) ++ rest) =
      .scalar (Char.ofNat code) :: pieces none rest := by
  obtain ⟨hbytes, hvalid⟩ := start_spec byte
  rw [hstart] at hbytes hvalid
  have hpending : pending.IsValid := hvalid pending rfl
  have hfirst : pending.bytes = [byte] := hbytes
  rw [(hpending.encodes code hcode).2, hfirst, List.append_assoc, List.singleton_append,
    pieces_cons]
  simp only [step, hstart, List.nil_append]
  exact pieces_continuation hpending hcode rest

theorem exists_byte {n : Nat} (h : n < 256) : ∃ byte : UInt8, byte.toNat = n :=
  ⟨UInt8.ofNat n, by rw [UInt8.toNat_ofNat', Nat.mod_eq_of_lt h]⟩

theorem exists_start {code : Nat} (hvalid : code.isValidChar) (hcode : 0x7F < code) :
    ∃ byte pending, start byte = ([], some pending) ∧ pending.Allows code := by
  by_cases htwo : code ≤ 0x7FF
  · obtain ⟨byte, hbyte⟩ := exists_byte (n := code / 64 + 0xC0) (by omega)
    refine ⟨byte, ⟨[byte], code / 64, 1, 0x80, 0xBF⟩, ?_, ?_, ?_, ?_⟩
    · unfold start
      simp only [hbyte]
      rw [if_neg (by omega), if_neg (by omega), if_pos (by omega), Nat.add_sub_cancel]
    · simp
    · simp
    · simp only [UInt8.reduceToNat]
      omega
  by_cases hthree : code ≤ 0xFFFF
  · obtain ⟨byte, hbyte⟩ := exists_byte (n := code / 4096 + 0xE0) (by omega)
    have hsurrogate : code < 0xD800 ∨ 0xE000 ≤ code := by
      cases hvalid with
      | inl h => exact Or.inl h
      | inr h => exact Or.inr h.1
    refine ⟨byte, ⟨[byte], code / 4096, 2,
      if code / 4096 + 0xE0 = 0xE0 then 0xA0 else 0x80,
      if code / 4096 + 0xE0 = 0xED then 0x9F else 0xBF⟩, ?_, ?_, ?_, ?_⟩
    · unfold start
      simp only [hbyte]
      rw [if_neg (by omega), if_neg (by omega), if_neg (by omega), if_pos (by omega),
        Nat.add_sub_cancel]
    · simp
    · simp only [Nat.reduceSub, pow_one]
      split <;> simp only [UInt8.reduceToNat] <;> omega
    · simp only [Nat.reduceSub, pow_one]
      split <;> simp only [UInt8.reduceToNat] <;> omega
  · have hlast : code < 0x110000 := by
      cases hvalid with
      | inl h => omega
      | inr h => exact h.2
    obtain ⟨byte, hbyte⟩ := exists_byte (n := code / 262144 + 0xF0) (by omega)
    refine ⟨byte, ⟨[byte], code / 262144, 3,
      if code / 262144 + 0xF0 = 0xF0 then 0x90 else 0x80,
      if code / 262144 + 0xF0 = 0xF4 then 0x8F else 0xBF⟩, ?_, ?_, ?_, ?_⟩
    · unfold start
      simp only [hbyte]
      rw [if_neg (by omega), if_neg (by omega), if_neg (by omega), if_neg (by omega),
        if_pos (by omega), Nat.add_sub_cancel]
    · simp
    · simp only [Nat.reduceSub, Nat.reducePow]
      split <;> simp only [UInt8.reduceToNat] <;> omega
    · simp only [Nat.reduceSub, Nat.reducePow]
      split <;> simp only [UInt8.reduceToNat] <;> omega

theorem pieces_utf8EncodeChar (c : Char) (rest : List UInt8) :
    pieces none (String.utf8EncodeChar c ++ rest) = .scalar c :: pieces none rest := by
  have hchar : Char.ofNat c.toNat = c := Char.ofNat_toNat c
  by_cases hascii : c.toNat < 0x80
  · obtain ⟨byte, hbyte⟩ := exists_byte (n := c.toNat) (by omega)
    have hencoding : String.utf8EncodeChar (Char.ofNat byte.toNat) = [byte] :=
      ascii_bytes (by omega)
    rw [hbyte, hchar] at hencoding
    rw [hencoding, List.singleton_append, pieces_cons]
    simp [step, start, hbyte, hascii]
  · have hvalid : c.toNat.isValidChar := c.valid
    obtain ⟨byte, pending, hstart, hcode⟩ := exists_start hvalid (by omega)
    have hpieces := pieces_of_start hstart hcode rest
    rwa [hchar] at hpieces

theorem pieces_encode_append (characters : List Char) (rest : List UInt8) :
    pieces none (encode characters ++ rest) =
      characters.map Piece.scalar ++ pieces none rest := by
  induction characters with
  | nil => rfl
  | cons c more ih =>
      rw [encode, List.flatMap_cons, List.append_assoc, pieces_utf8EncodeChar, List.map_cons,
        List.cons_append, ← ih]
      rfl

theorem pieces_encode (characters : List Char) :
    pieces none (encode characters) = characters.map Piece.scalar := by
  have happend := pieces_encode_append characters []
  rwa [List.append_nil, pieces_none_nil, List.append_nil] at happend

theorem map_shown_scalar (characters : List Char) :
    (characters.map Piece.scalar).map Piece.shown = characters := by
  rw [List.map_map]
  exact List.map_id characters

theorem decodeLenient_encode_append (characters : List Char) (rest : List UInt8) :
    decodeLenient (encode characters ++ rest) = characters ++ decodeLenient rest := by
  rw [decodeLenient, pieces_encode_append, List.map_append, map_shown_scalar, decodeLenient]

theorem scalars_eq_ok_iff (position : Nat) (parts : List Piece) (characters : List Char) :
    scalars position parts = .ok characters ↔ parts = characters.map Piece.scalar := by
  induction parts generalizing position characters with
  | nil => cases characters <;> simp [scalars]
  | cons part rest ih =>
      cases part with
      | malformed reason bytes => cases characters <;> simp [scalars]
      | scalar c =>
          cases characters with
          | nil =>
              simp only [scalars, List.map_nil, reduceCtorEq, iff_false]
              cases scalars (position + c.utf8Size) rest <;> simp [Except.map]
          | cons first others =>
              rw [List.map_cons, List.cons.injEq, Piece.scalar.injEq,
                ← ih (position + c.utf8Size) others, scalars]
              cases scalars (position + c.utf8Size) rest <;> simp [Except.map]

/-- Strict reading gives characters exactly when the bytes are their encoding. -/
theorem decode_eq_ok_iff (bytes : List UInt8) (characters : List Char) :
    decode bytes = .ok characters ↔ bytes = encode characters := by
  rw [decode, scalars_eq_ok_iff]
  constructor
  · intro h
    have hbytes := bytes_of_pieces bytes
    rw [h, List.flatMap_map] at hbytes
    exact hbytes.symm
  · intro h
    rw [h, pieces_encode]

theorem byteOrderMark_eq : byteOrderMark = encode ['\uFEFF'] := by
  decide

theorem encode_ne_nil {characters : List Char} (h : characters ≠ []) : encode characters ≠ [] := by
  intro heq
  have hpieces := pieces_encode characters
  rw [heq, pieces_none_nil, eq_comm, List.map_eq_nil_iff] at hpieces
  exact h hpieces

theorem length_le_length_encode (characters : List Char) :
    characters.length ≤ (encode characters).length := by
  induction characters with
  | nil => exact Nat.zero_le _
  | cons c rest ih =>
      have hpos : 0 < (String.utf8EncodeChar c).length := by
        rw [String.length_utf8EncodeChar]
        exact Char.utf8Size_pos c
      rw [encode, List.flatMap_cons, List.length_append, List.length_cons, ← encode]
      omega

/-- Bytes that agree with the byte order mark as far as they go start with its character. -/
theorem head?_of_byteOrderMark {characters : List Char} {left right : List UInt8}
    (h : encode characters ++ left = byteOrderMark ++ right) (hne : characters ≠ []) :
    characters.head? = some '\uFEFF' := by
  have hpieces := congrArg (pieces none) h
  rw [byteOrderMark_eq, pieces_encode_append, pieces_encode_append] at hpieces
  cases characters with
  | nil => contradiction
  | cons c rest =>
      simp only [List.map_cons, List.cons_append, List.cons.injEq, Piece.scalar.injEq] at hpieces
      rw [List.head?_cons, hpieces.1]

/-- A text that does not start with U+FEFF may have a byte order mark before it. -/
theorem decode_dropByteOrderMark_eq_ok_iff {bytes : List UInt8} {characters : List Char}
    (hne : characters ≠ []) (hmark : characters.head? ≠ some '\uFEFF') :
    decode (dropByteOrderMark bytes) = .ok characters ↔
      bytes = encode characters ∨ bytes = byteOrderMark ++ encode characters := by
  constructor
  · intro h
    rw [decode_eq_ok_iff, dropByteOrderMark] at h
    split at h
    · exact absurd h.symm (encode_ne_nil hne)
    split at h
    · next hprefix =>
        have hsplit := List.prefix_iff_eq_append.mp (List.isPrefixOf_iff_prefix.mp hprefix)
        rw [h] at hsplit
        exact Or.inr hsplit.symm
    · exact Or.inl h
  · intro h
    rw [decode_eq_ok_iff, dropByteOrderMark]
    cases h with
    | inl hplain =>
        have hshort : ¬ bytes.isPrefixOf byteOrderMark = true := by
          intro hprefix
          obtain ⟨later, hlater⟩ := List.isPrefixOf_iff_prefix.mp hprefix
          rw [hplain] at hlater
          exact hmark (head?_of_byteOrderMark (hlater.trans (List.append_nil _).symm) hne)
        have hlong : ¬ byteOrderMark.isPrefixOf bytes = true := by
          intro hprefix
          obtain ⟨later, hlater⟩ := List.isPrefixOf_iff_prefix.mp hprefix
          rw [hplain] at hlater
          exact hmark (head?_of_byteOrderMark ((List.append_nil _).trans hlater.symm) hne)
        rw [if_neg hshort, if_neg hlong, hplain]
    | inr hmarked =>
        have hshort : ¬ bytes.isPrefixOf byteOrderMark = true := by
          intro hprefix
          have hlength := (List.isPrefixOf_iff_prefix.mp hprefix).length_le
          have hpos := List.length_pos_iff.mpr (encode_ne_nil hne)
          rw [hmarked, List.length_append] at hlength
          omega
        have hlong : byteOrderMark.isPrefixOf bytes = true :=
          List.isPrefixOf_iff_prefix.mpr ⟨encode characters, hmarked.symm⟩
        rw [if_neg hshort, if_pos hlong, hmarked, List.drop_left]

end DependencyAudit.Utf8
