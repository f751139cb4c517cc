import DependencyAudit.Proofs.Text.Utf8Encoding

/-!
# Stray bytes in a text

The first byte of a character continues no other one.  So a character that stray bytes
begin but do not complete ends where the next one starts, and lenient reading shows the
text around stray bytes as if they stood alone.
-/

namespace DependencyAudit.Utf8

/-- The first byte of a character lies outside the range of the bytes after the first. -/
theorem exists_firstByte (c : Char) :
    ∃ byte rest, String.utf8EncodeChar c = byte :: rest ∧
      (byte.toNat < 0x80 ∨ 0xC0 ≤ byte.toNat) := by
  have hchar : Char.ofNat c.toNat = c := Char.ofNat_toNat c
  have hvalid : c.toNat.isValidChar := c.valid
  have hencoding := utf8EncodeChar_ofNat hvalid
  have hbyte : ∀ n < 256, (UInt8.ofNat n).toNat = n := fun n => UInt8.toNat_ofNat_of_lt'
  rw [hchar] at hencoding
  rw [hencoding]
  split_ifs with hone htwo hthree
  · exact ⟨_, _, rfl, Or.inl (by rw [hbyte _ (by omega)]; omega)⟩
  · exact ⟨_, _, rfl, Or.inr (by rw [hbyte _ (by omega)]; omega)⟩
  · exact ⟨_, _, rfl, Or.inr (by rw [hbyte _ (by omega)]; omega)⟩
  · exact ⟨_, _, rfl, Or.inr (by rw [hbyte _ (by omega)]; omega)⟩

/-- A pending character ends where another one starts. -/
theorem pieces_pending_encode {pending : Pending} (h : pending.IsValid) {characters : List Char}
    (hne : characters ≠ []) :
    pieces (some pending) (encode characters) =
      .malformed .continuationByte pending.bytes :: pieces none (encode characters) := by
  cases characters with
  | nil => contradiction
  | cons c more =>
      obtain ⟨byte, rest, hc, hbyte⟩ := exists_firstByte c
      have hbytes : encode (c :: more) = byte :: (rest ++ encode more) := by
        rw [encode, List.flatMap_cons, hc]
        rfl
      have houtside : ¬ (pending.low ≤ byte ∧ byte ≤ pending.high) := by
        intro hbounds
        have hlow := UInt8.le_iff_toNat_le.mp hbounds.1
        have hhigh := UInt8.le_iff_toNat_le.mp hbounds.2
        have hlowest := h.low_ge
        have hhighest := h.high_le
        omega
      rw [hbytes, pieces_cons, pieces_cons]
      simp only [step, if_neg houtside, List.cons_append]

/-- Characters behind other bytes are shown as they are, whatever those bytes begin. -/
theorem decodeLenient_append_encode (bytes : List UInt8) (characters : List Char) :
    decodeLenient (bytes ++ encode characters) = decodeLenient bytes ++ characters := by
  have halone := pieces_append none bytes []
  rw [List.append_nil] at halone
  rw [decodeLenient, decodeLenient, pieces_append, halone, List.map_append, List.map_append,
    List.append_assoc, List.append_cancel_left_eq]
  cases hstate : (advance none bytes).2 with
  | none => rw [pieces_encode, map_shown_scalar, pieces_none_nil, List.map_nil, List.nil_append]
  | some pending =>
      have hpending := isValidState_advance isValidState_none bytes pending hstate
      by_cases hne : characters = []
      · rw [hne]
        exact (List.append_nil _).symm
      · rw [pieces_pending_encode hpending hne, pieces_encode, List.map_cons, map_shown_scalar]
        rfl

theorem decodeLenient_between (left right : List Char) (stray : List UInt8) :
    decodeLenient (encode left ++ stray ++ encode right) =
      left ++ (decodeLenient stray ++ right) := by
  rw [decodeLenient_append_encode, decodeLenient_encode_append, List.append_assoc]

end DependencyAudit.Utf8
