import DependencyAudit.Proofs.Text.Utf8Encoding
import DependencyAudit.Text.Newline

/-!
# Line ends and byte order marks

A line end that stands where two texts meet is one line end before and after, so line
ends are unified piece by piece.

A text whose lines end in line feeds can be written with other line ends, and a byte
order mark can be put before it.  A line end is a byte or two that are no part of a
longer character, so exchanging it leaves all pieces around it alone, malformed ones
included.  When the text has no carriage return of its own, reading gives back the
characters it had, so nothing that is read from them can tell.
-/

namespace DependencyAudit.Text

/-! ## Texts in two parts -/

theorem unifyNewlines_cons {c : Char} {rest : List Char}
    (h : c = '\r' → rest.head? ≠ some '\n') :
    unifyNewlines (c :: rest) = (if c = '\r' then '\n' else c) :: unifyNewlines rest := by
  rw [unifyNewlines]
  intro more hc hmore
  exact h hc (by rw [hmore]; rfl)

theorem head?_append_ne {rest right : List Char} (h : ∀ more, rest ≠ '\n' :: more)
    (hright : rest = [] → right.head? ≠ some '\n') : (rest ++ right).head? ≠ some '\n' := by
  cases rest with
  | nil => exact hright rfl
  | cons d others =>
      rw [List.cons_append, List.head?_cons, Ne, Option.some.injEq]
      rintro rfl
      exact h others rfl

theorem unifyNewlines_append {left right : List Char} (h : right.head? ≠ some '\n') :
    unifyNewlines (left ++ right) = unifyNewlines left ++ unifyNewlines right := by
  fun_induction unifyNewlines left with
  | case1 => rfl
  | case2 rest ih => simpa [unifyNewlines] using ih
  | case3 c rest hnext ih =>
      have hlonger : c = '\r' → (rest ++ right).head? ≠ some '\n' := by
        intro hc
        exact head?_append_ne (fun more => hnext more hc) fun _ => h
      rw [List.cons_append, unifyNewlines_cons hlonger, ih, List.cons_append]

/-- A line end that the end of a text cuts in two is one line end before and after. -/
theorem unifyNewlines_prefix_append (left right : List Char) :
    unifyNewlines left <+: unifyNewlines (left ++ right) := by
  fun_induction unifyNewlines left with
  | case1 => exact List.nil_prefix
  | case2 rest ih => simpa [unifyNewlines] using ih
  | case3 c rest hnext ih =>
      by_cases hcut : c = '\r' ∧ rest = [] ∧ right.head? = some '\n'
      · obtain ⟨rfl, rfl, hright⟩ := hcut
        obtain ⟨more, rfl⟩ := List.head?_eq_some_iff.mp hright
        simp [unifyNewlines]
      · have hlonger : c = '\r' → (rest ++ right).head? ≠ some '\n' := by
          intro hc
          exact head?_append_ne (fun more => hnext more hc) fun hnil hright =>
            hcut ⟨hc, hnil, hright⟩
        rw [List.cons_append, unifyNewlines_cons hlonger, List.cons_prefix_cons]
        exact ⟨rfl, ih⟩

/-! ## Other line ends -/

/-- How the lines of a file may end. -/
inductive LineEnd where
  | lineFeed
  | carriageReturn
  | both
  deriving DecidableEq, Repr

def LineEnd.characters : LineEnd → List Char
  | .lineFeed => ['\n']
  | .carriageReturn => ['\r']
  | .both => ['\r', '\n']

def LineEnd.bytes : LineEnd → List UInt8
  | .lineFeed => [0x0A]
  | .carriageReturn => [0x0D]
  | .both => [0x0D, 0x0A]

variable {ending : LineEnd} {text : List Char}

/-- What stands for a character when the lines end in another way. -/
def LineEnd.spell (ending : LineEnd) (c : Char) : List Char :=
  if c = '\n' then ending.characters else [c]

theorem LineEnd.spell_of_ne {c : Char} (h : c ≠ '\n') : ending.spell c = [c] :=
  if_neg h

theorem LineEnd.spell_newline : ending.spell '\n' = ending.characters :=
  if_pos rfl

theorem not_mem_flatMap_carriageReturn (text : List Char) :
    '\n' ∉ text.flatMap LineEnd.carriageReturn.spell := by
  rw [List.mem_flatMap]
  rintro ⟨c, -, hmem⟩
  by_cases hc : c = '\n'
  · rw [hc, LineEnd.spell_newline] at hmem
    exact absurd hmem (by decide)
  · rw [LineEnd.spell_of_ne hc, List.mem_singleton] at hmem
    exact hc hmem.symm

/-- Reading a text with any line ends gives its characters back. -/
theorem unifyNewlines_flatMap_spell (h : '\r' ∉ text) :
    unifyNewlines (text.flatMap ending.spell) = text := by
  induction text with
  | nil => rfl
  | cons c rest ih =>
      rw [List.mem_cons, not_or] at h
      rw [List.flatMap_cons]
      by_cases hc : c = '\n'
      · rw [hc, LineEnd.spell_newline]
        cases ending with
        | lineFeed =>
            rw [LineEnd.characters, List.singleton_append,
              unifyNewlines_cons_of_ne (by decide), ih h.2]
        | carriageReturn =>
            have hhead : (rest.flatMap LineEnd.carriageReturn.spell).head? ≠ some '\n' :=
              fun hhead => not_mem_flatMap_carriageReturn rest (List.mem_of_head? hhead)
            rw [LineEnd.characters, List.singleton_append, unifyNewlines_cons fun _ => hhead,
              if_pos rfl, ih h.2]
        | both =>
            rw [LineEnd.characters, List.cons_append, List.singleton_append, unifyNewlines,
              ih h.2]
      · rw [LineEnd.spell_of_ne hc, List.singleton_append,
          unifyNewlines_cons_of_ne (Ne.symm h.1), ih h.2]

end DependencyAudit.Text

/-! ## Bytes -/

namespace DependencyAudit.Utf8

open DependencyAudit.Text

variable {ending : LineEnd} {state : Option Pending} {bytes : List UInt8}

/-- The bytes of a text with other line ends, and a byte order mark before it if asked for. -/
def respell (marked : Bool) (ending : LineEnd) (bytes : List UInt8) : List UInt8 :=
  (if marked then byteOrderMark else []) ++
    bytes.flatMap fun byte => if byte = 0x0A then ending.bytes else [byte]

def spellPiece (ending : LineEnd) : Piece → List Piece
  | .scalar c => (ending.spell c).map Piece.scalar
  | .malformed reason bytes => [.malformed reason bytes]

/-- What is left of a pending character when it is cut off. -/
def cutOff : Option Pending → List Piece
  | none => []
  | some pending => [.malformed .continuationByte pending.bytes]

theorem step_ascii (h : IsValidState state) {byte : UInt8} (hbyte : byte.toNat < 0x80) :
    step state byte = (cutOff state ++ [.scalar (Char.ofNat byte.toNat)], none) := by
  have hstart : start byte = ([.scalar (Char.ofNat byte.toNat)], none) := by
    simp only [start, if_pos hbyte]
  cases state with
  | none => exact hstart
  | some pending =>
      have hlow := (h pending rfl).low_ge
      have houtside : ¬ (pending.low ≤ byte ∧ byte ≤ pending.high) := by
        rintro ⟨hbound, -⟩
        rw [UInt8.le_iff_toNat_le] at hbound
        omega
      rw [step, if_neg houtside, hstart]
      rfl

/-- Only the byte of a line feed is read as one. -/
theorem newline_not_mem_step (h : IsValidState state) {byte : UInt8} (hbyte : byte ≠ 0x0A) :
    Piece.scalar '\n' ∉ (step state byte).1 := by
  have hstart : Piece.scalar '\n' ∉ (start byte).1 := by
    unfold start
    simp only
    split_ifs with hascii
    · rw [List.mem_singleton, Piece.scalar.injEq]
      intro heq
      have hcode := congrArg (fun c : Char => c.val.toNat) heq
      simp only [toNat_ofNat_of_isValidChar (Or.inl (by omega : byte.toNat < 0xD800))] at hcode
      exact hbyte (UInt8.toNat_inj.mp hcode.symm)
    all_goals simp
  cases state with
  | none => exact hstart
  | some pending =>
      simp only [step]
      split_ifs with hbounds howed
      · -- The bytes of a character that is complete end in the byte read last.
        rw [List.mem_singleton, Piece.scalar.injEq]
        intro heq
        have hencoding := (h pending rfl).complete hbounds.1 hbounds.2 howed
        rw [← heq] at hencoding
        have hlast := congrArg List.getLast? hencoding
        rw [List.getLast?_concat] at hlast
        exact hbyte (Option.some.inj hlast).symm
      · simp
      · simpa using hstart

theorem flatMap_spellPiece_of_not_mem {parts : List Piece} (h : Piece.scalar '\n' ∉ parts) :
    parts.flatMap (spellPiece ending) = parts := by
  induction parts with
  | nil => rfl
  | cons part rest ih =>
      rw [List.mem_cons, not_or] at h
      rw [List.flatMap_cons, ih h.2]
      cases part with
      | malformed reason bytes => rfl
      | scalar c =>
          have hc : c ≠ '\n' := by
            rintro rfl
            exact h.1 rfl
          rw [spellPiece, LineEnd.spell_of_ne hc]
          rfl

theorem spellPiece_cutOff : (cutOff state).flatMap (spellPiece ending) = cutOff state := by
  apply flatMap_spellPiece_of_not_mem
  cases state <;> simp [cutOff]

theorem pieces_lineEnd (h : IsValidState state) (rest : List UInt8) :
    pieces state (ending.bytes ++ rest) =
      cutOff state ++ ending.characters.map Piece.scalar ++ pieces none rest := by
  have hfeed : ∀ {state : Option Pending}, IsValidState state →
      step state 0x0A = (cutOff state ++ [.scalar '\n'], none) :=
    fun hstate => step_ascii hstate (by decide)
  have hreturn : step state 0x0D = (cutOff state ++ [.scalar '\r'], none) :=
    step_ascii h (by decide)
  cases ending with
  | lineFeed => simp [LineEnd.bytes, LineEnd.characters, pieces_cons, hfeed h]
  | carriageReturn => simp [LineEnd.bytes, LineEnd.characters, pieces_cons, hreturn]
  | both =>
      simp [LineEnd.bytes, LineEnd.characters, pieces_cons, hreturn, hfeed isValidState_none,
        cutOff]

/-- Other line ends change the pieces that are line feeds, and no others. -/
theorem pieces_flatMap_lineEnd (h : IsValidState state) (bytes : List UInt8) :
    pieces state (bytes.flatMap fun byte => if byte = 0x0A then ending.bytes else [byte]) =
      (pieces state bytes).flatMap (spellPiece ending) := by
  induction bytes generalizing state with
  | nil => cases state <;> simp [pieces, spellPiece]
  | cons byte rest ih =>
      obtain ⟨-, hnext⟩ := step_spec h byte
      rw [List.flatMap_cons, pieces_cons, List.flatMap_append]
      by_cases hbyte : byte = 0x0A
      · have hstep : step state 0x0A = (cutOff state ++ [.scalar '\n'], none) :=
          step_ascii h (by decide)
        rw [if_pos hbyte, hbyte, hstep, pieces_lineEnd h, ih isValidState_none,
          List.flatMap_append, spellPiece_cutOff, List.flatMap_singleton, spellPiece,
          LineEnd.spell_newline]
      · rw [if_neg hbyte, List.singleton_append, pieces_cons, ih hnext,
          flatMap_spellPiece_of_not_mem (newline_not_mem_step h hbyte)]

/-! ## What is read -/

theorem carriageReturn_not_mem_pieces (h : 0x0D ∉ bytes) :
    Piece.scalar '\r' ∉ pieces none bytes := by
  intro hmem
  have hbyte : (0x0D : UInt8) ∈ Piece.bytes (.scalar '\r') := by decide
  apply h
  rw [← bytes_of_pieces bytes]
  exact List.mem_flatMap.mpr ⟨_, hmem, hbyte⟩

theorem carriageReturn_not_mem_decodeLenient (h : 0x0D ∉ bytes) :
    '\r' ∉ decodeLenient bytes := by
  rw [decodeLenient, List.mem_map]
  rintro ⟨part, hpart, hshown⟩
  cases part with
  | scalar c =>
      rw [Piece.shown] at hshown
      exact carriageReturn_not_mem_pieces h (hshown ▸ hpart)
  | malformed reason bytes =>
      rw [Piece.shown] at hshown
      exact absurd hshown (by decide)

theorem map_shown_spellPiece (part : Piece) :
    (spellPiece ending part).map Piece.shown = ending.spell part.shown := by
  cases part with
  | scalar c =>
      rw [spellPiece, List.map_map]
      exact List.map_id _
  | malformed reason bytes =>
      have hne : replacement ≠ '\n' := by decide
      exact (LineEnd.spell_of_ne hne).symm

theorem decodeLenient_byteOrderMark_append (bytes : List UInt8) :
    decodeLenient (byteOrderMark ++ bytes) = '\uFEFF' :: decodeLenient bytes := by
  rw [byteOrderMark_eq, decodeLenient_encode_append, List.singleton_append]

/-- Lenient reading of a file with other line ends gives back the characters it had, after
the mark if there is one. -/
theorem unifyNewlines_decodeLenient_respell (h : 0x0D ∉ bytes) (marked : Bool) :
    unifyNewlines (decodeLenient (respell marked ending bytes)) =
      (if marked then ['\uFEFF'] else []) ++ unifyNewlines (decodeLenient bytes) := by
  have hplain := carriageReturn_not_mem_decodeLenient h
  have hlines : decodeLenient
      (bytes.flatMap fun byte => if byte = 0x0A then ending.bytes else [byte]) =
      (decodeLenient bytes).flatMap ending.spell := by
    rw [decodeLenient, pieces_flatMap_lineEnd isValidState_none, decodeLenient, List.map_flatMap,
      List.flatMap_map]
    simp only [map_shown_spellPiece]
  cases marked with
  | false =>
      rw [respell, if_neg Bool.false_ne_true, if_neg Bool.false_ne_true, List.nil_append,
        List.nil_append, hlines, unifyNewlines_flatMap_spell hplain,
        unifyNewlines_of_not_mem hplain]
  | true =>
      rw [respell, if_pos rfl, if_pos rfl, decodeLenient_byteOrderMark_append, hlines,
        unifyNewlines_cons_of_ne (by decide), unifyNewlines_flatMap_spell hplain,
        unifyNewlines_of_not_mem hplain, List.singleton_append]

theorem carriageReturn_not_mem_of_encode {characters : List Char}
    (h : 0x0D ∉ encode characters) : '\r' ∉ characters := by
  intro hmem
  have hbyte : (0x0D : UInt8) ∈ String.utf8EncodeChar '\r' := by decide
  exact h (List.mem_flatMap.mpr ⟨_, hmem, hbyte⟩)

theorem encode_flatMap_spell (characters : List Char) :
    ((encode characters).flatMap fun byte => if byte = 0x0A then ending.bytes else [byte]) =
      encode (characters.flatMap ending.spell) := by
  rw [← decode_eq_ok_iff, decode, scalars_eq_ok_iff, pieces_flatMap_lineEnd isValidState_none,
    pieces_encode, List.flatMap_map, List.map_flatMap]
  rfl

theorem head?_flatMap_spell {characters : List Char} (h : characters.head? ≠ some '\uFEFF') :
    (characters.flatMap ending.spell).head? ≠ some '\uFEFF' := by
  cases characters with
  | nil => simp
  | cons c rest =>
      rw [List.flatMap_cons]
      by_cases hc : c = '\n'
      · rw [hc, LineEnd.spell_newline]
        cases ending <;> simp [LineEnd.characters]
      · rw [LineEnd.spell_of_ne hc]
        exact h

theorem head?_of_not_byteOrderMark {characters : List Char}
    (h : ¬ byteOrderMark <+: encode characters) : characters.head? ≠ some '\uFEFF' := by
  intro hhead
  obtain ⟨rest, rfl⟩ := List.head?_eq_some_iff.mp hhead
  apply h
  rw [byteOrderMark_eq]
  exact ⟨encode rest, List.flatMap_append.symm⟩

/-- Strict reading takes a mark before the text away. -/
theorem decode_dropByteOrderMark_marked {characters : List Char}
    (h : characters.head? ≠ some '\uFEFF') (marked : Bool) :
    decode (dropByteOrderMark ((if marked then byteOrderMark else []) ++ encode characters)) =
      .ok characters := by
  by_cases hne : characters = []
  · subst hne
    cases marked <;> decide
  · rw [decode_dropByteOrderMark_eq_ok_iff hne h]
    cases marked with
    | false => exact Or.inl rfl
    | true => exact Or.inr rfl

/-- Strict reading of a text with other line ends gives back the characters it had, without
the mark if there is one. -/
theorem exists_decode_respell {characters : List Char} (hplain : 0x0D ∉ encode characters)
    (hmark : ¬ byteOrderMark <+: encode characters) (marked : Bool) (ending : LineEnd) :
    ∃ spelled, decode (dropByteOrderMark (respell marked ending (encode characters))) =
        .ok spelled ∧ unifyNewlines spelled = characters := by
  refine ⟨characters.flatMap ending.spell, ?_,
    unifyNewlines_flatMap_spell (carriageReturn_not_mem_of_encode hplain)⟩
  rw [respell, encode_flatMap_spell]
  exact decode_dropByteOrderMark_marked
    (head?_flatMap_spell (head?_of_not_byteOrderMark hmark)) marked

end DependencyAudit.Utf8
