import DependencyAudit.Proofs.Json.Grammar
import DependencyAudit.Proofs.Text.Utf8Encoding

/-!
# The lexemes of JSON texts

Each token that the lexer takes off a text is one way to write something of the
grammar, and everything of the grammar is taken off whole wherever it stands before a
space, a comma, or a closing bracket.  The parts come first: codes, the text they stand
for, and numbers.
-/

namespace DependencyAudit.Json

open DependencyAudit.Text

/-! ## The codes of a quoted text -/

theorem readCodes_raw {c : Char} (hquote : c ≠ '"') (hslash : c ≠ '\\')
    (hcontrol : 0x20 ≤ c.toNat) (opening position : Nat) (rest : List Char) :
    readCodes opening position (c :: rest) =
      (readCodes opening (position + 1) rest).map fun (codes, final) =>
        (c.toNat :: codes, final) := by
  rw [readCodes.eq_def]
  simp only [hquote, hslash, if_false, Nat.not_lt.mpr hcontrol]

theorem shortEscape?_u : shortEscape? 'u' = none := by
  decide

theorem readCodes_escape {letter c : Char} (h : shortEscape? letter = some c)
    (opening position : Nat) (rest : List Char) :
    readCodes opening position ('\\' :: letter :: rest) =
      (readCodes opening (position + 2) rest).map fun (codes, final) =>
        (c.toNat :: codes, final) := by
  have hletter : letter ≠ 'u' := by
    intro heq
    rw [heq, shortEscape?_u] at h
    contradiction
  rw [readCodes, if_neg (by decide), if_pos rfl]
  · simp [hletter, h]
  · simp [hletter]

theorem readCodes_code {a b c d : Char} {code : Nat} (h : ofHexadecimal? [a, b, c, d] = some code)
    (opening position : Nat) {rest : List Char} (hrest : rest ≠ []) :
    readCodes opening position ('\\' :: 'u' :: a :: b :: c :: d :: rest) =
      (readCodes opening (position + 6) rest).map fun (codes, final) =>
        (code :: codes, final) := by
  cases rest with
  | nil => contradiction
  | cons e more => rw [readCodes, if_neg (by decide), if_pos rfl, h]

theorem readCodes_of_spelled {body : List Char} {codes : List Nat} (h : Spelled body codes)
    (opening position : Nat) (rest : List Char) :
    readCodes opening position (body ++ '"' :: rest) =
      .ok (codes, position + body.length + 1) := by
  induction h generalizing position with
  | nil =>
      rw [List.nil_append, readCodes.eq_def]
      rfl
  | raw hquote hslash hcontrol _ ih =>
      rw [List.cons_append, readCodes_raw hquote hslash hcontrol, ih]
      simp only [Except.map, List.length_cons]
      congr 2
      omega
  | escape hletter _ ih =>
      rw [List.cons_append, List.cons_append, readCodes_escape hletter, ih]
      simp only [Except.map, List.length_cons]
      congr 2
      omega
  | @code digits code more codes hlength hcode _ ih =>
      obtain ⟨a, b, c, d, rfl⟩ : ∃ a b c d, digits = [a, b, c, d] := by
        match digits, hlength with
        | [a, b, c, d], _ => exact ⟨a, b, c, d, rfl⟩
      simp only [List.cons_append, List.nil_append]
      rw [readCodes_code hcode _ _ (by simp), ih]
      simp only [Except.map, List.length_cons]
      congr 2
      omega

theorem map_eq_ok {α β ε : Type} {f : α → β} {result : Except ε α} {b : β}
    (h : result.map f = .ok b) : ∃ a, result = .ok a ∧ f a = b := by
  cases result with
  | error e => contradiction
  | ok a => exact ⟨a, rfl, Except.ok.inj h⟩

theorem map_eq_error {α β ε : Type} {f : α → β} {result : Except ε α} {error : ε}
    (h : result.map f = .error error) : result = .error error := by
  cases result with
  | error other => exact congrArg Except.error (Except.error.inj h)
  | ok a => contradiction

theorem spelled_of_readCodes {opening position final : Nat} {text : List Char}
    {codes : List Nat} (h : readCodes opening position text = .ok (codes, final)) :
    ∃ body rest, text = body ++ '"' :: rest ∧ Spelled body codes ∧
      final = position + body.length + 1 := by
  fun_induction readCodes opening position text generalizing codes final with
  | case1 position => contradiction
  | case2 position rest =>
      simp only [Except.ok.injEq, Prod.mk.injEq] at h
      exact ⟨[], rest, rfl, h.1 ▸ Spelled.nil, h.2.symm⟩
  | case3 position => contradiction
  | case4 position _ a b c d e more hcode => contradiction
  | case5 position a b c d e more code hcode _ ih =>
      obtain ⟨⟨later, place⟩, hlater, heq⟩ := map_eq_ok h
      obtain ⟨body, rest, htext, hbody, hplace⟩ := ih hlater
      simp only [Prod.mk.injEq] at heq
      refine ⟨'\\' :: 'u' :: [a, b, c, d] ++ body, rest, ?_, ?_, ?_⟩
      · simp [htext]
      · rw [← heq.1]
        exact Spelled.code rfl hcode hbody
      · simp only [← heq.2, hplace, List.length_append, List.length_cons, List.length_nil]
        omega
  | case6 position _ more hshort => contradiction
  | case7 position _ escape more _ hshort hletter => contradiction
  | case8 position escape more _ hletter c hshort _ ih =>
      obtain ⟨⟨later, place⟩, hlater, heq⟩ := map_eq_ok h
      obtain ⟨body, rest, htext, hbody, hplace⟩ := ih hlater
      simp only [Prod.mk.injEq] at heq
      refine ⟨'\\' :: escape :: body, rest, ?_, ?_, ?_⟩
      · simp [htext]
      · rw [← heq.1]
        exact Spelled.escape hshort hbody
      · simp only [← heq.2, hplace, List.length_cons]
        omega
  | case9 position c rest _ _ hcontrol => contradiction
  | case10 position c rest hquote hslash hcontrol ih =>
      obtain ⟨⟨later, place⟩, hlater, heq⟩ := map_eq_ok h
      obtain ⟨body, rest, htext, hbody, hplace⟩ := ih hlater
      simp only [Prod.mk.injEq] at heq
      refine ⟨c :: body, rest, ?_, ?_, ?_⟩
      · simp [htext]
      · rw [← heq.1]
        exact Spelled.raw hquote hslash (Nat.le_of_not_lt hcontrol) hbody
      · simp only [← heq.2, hplace, List.length_cons]
        omega

/-! ## The text that codes stand for -/

theorem hexDigit?_lt {c : Char} {n : Nat} (h : hexDigit? c = some n) : n < 16 := by
  unfold hexDigit? at h
  split at h
  · next hc =>
      have hhigh : c.toNat ≤ '9'.toNat := hc.2
      simp only [Option.some.injEq, Char.reduceToNat] at h hhigh
      omega
  split at h
  · next hc =>
      have hhigh : c.toNat ≤ 'f'.toNat := hc.2
      simp only [Option.some.injEq, Char.reduceToNat] at h hhigh
      omega
  split at h
  · next hc =>
      have hhigh : c.toNat ≤ 'F'.toNat := hc.2
      simp only [Option.some.injEq, Char.reduceToNat] at h hhigh
      omega
  · contradiction

theorem foldlM_hexDigit?_lt {digits : List Char} {start n : Nat}
    (h : digits.foldlM (fun total c => (hexDigit? c).map (16 * total + ·)) start = some n) :
    n < (start + 1) * 16 ^ digits.length := by
  induction digits generalizing start with
  | nil =>
      simp only [List.foldlM_nil, Option.pure_def, Option.some.injEq] at h
      simp [h]
  | cons c rest ih =>
      rw [List.foldlM_cons] at h
      cases hdigit : hexDigit? c with
      | none => simp [hdigit] at h
      | some digit =>
          simp only [hdigit, Option.map_some, Option.bind_eq_bind, Option.bind_some] at h
          have hrest := ih h
          have hlt := hexDigit?_lt hdigit
          calc
            n < (16 * start + digit + 1) * 16 ^ rest.length := hrest
            _ ≤ (16 * (start + 1)) * 16 ^ rest.length :=
              Nat.mul_le_mul_right _ (by omega)
            _ = (start + 1) * 16 ^ (c :: rest).length := by
              rw [List.length_cons, Nat.pow_succ, Nat.mul_comm 16, Nat.mul_assoc,
                Nat.mul_comm 16]

theorem Spelled.code_lt {text : List Char} {codes : List Nat} (h : Spelled text codes) :
    ∀ code ∈ codes, code < 0x110000 := by
  induction h with
  | nil => simp
  | @raw c _ _ _ _ _ _ ih =>
      intro code hcode
      cases hcode with
      | head => exact (CodePoint.ofChar c).isLt
      | tail _ hcode => exact ih code hcode
  | @escape _ c _ _ _ _ ih =>
      intro code hcode
      cases hcode with
      | head => exact (CodePoint.ofChar c).isLt
      | tail _ hcode => exact ih code hcode
  | code hlength hdigits _ ih =>
      intro code hcode
      cases hcode with
      | head =>
          have hlt := foldlM_hexDigit?_lt hdigits
          rw [hlength] at hlt
          omega
      | tail _ hcode => exact ih code hcode

theorem isHighSurrogate_iff (code : Nat) :
    isHighSurrogate code = true ↔ 0xD800 ≤ code ∧ code < 0xDC00 := by
  simp [isHighSurrogate]

theorem isLowSurrogate_iff (code : Nat) :
    isLowSurrogate code = true ↔ 0xDC00 ≤ code ∧ code < 0xE000 := by
  simp [isLowSurrogate]

theorem ofCodes_cons {code : Nat} {codes : List Nat}
    (h : isHighSurrogate code = true → ∀ low ∈ codes.head?, ¬ isLowSurrogate low = true) :
    ofCodes (code :: codes) = codePoint code :: ofCodes codes := by
  cases codes with
  | nil => rfl
  | cons low rest =>
      have hpair : ¬ (isHighSurrogate code && isLowSurrogate low) = true := by
        rw [Bool.and_eq_true]
        intro hboth
        exact h hboth.1 low rfl hboth.2
      rw [ofCodes, if_neg hpair]

theorem codePoint_val (code : CodePoint) : codePoint code.val = code :=
  Fin.ext (Nat.mod_eq_of_lt code.isLt)

/-- The two halves of a pair make up the number of a character. -/
theorem codePoint_pair {high low : Nat} (hhigh : isHighSurrogate high = true)
    (hlow : isLowSurrogate low = true) :
    codePoint (0x10000 + (high - 0xD800) * 0x400 + (low - 0xDC00)) =
      CodePoint.ofChar (Char.ofNat (0x10000 + (high - 0xD800) * 0x400 + (low - 0xDC00))) := by
  rw [isHighSurrogate_iff] at hhigh
  rw [isLowSurrogate_iff] at hlow
  have hvalid : (0x10000 + (high - 0xD800) * 0x400 + (low - 0xDC00)).isValidChar :=
    Or.inr ⟨by omega, by omega⟩
  generalize 0x10000 + (high - 0xD800) * 0x400 + (low - 0xDC00) = number at hvalid ⊢
  have hnumber := congrArg codePoint (Utf8.toNat_ofNat_of_isValidChar hvalid)
  exact hnumber.symm.trans (codePoint_val (CodePoint.ofChar (Char.ofNat number)))

theorem StandFor.ofCodes_eq {codes : List Nat} {text : CodeText} (h : StandFor codes text) :
    ofCodes codes = text := by
  induction h with
  | nil => rfl
  | point hnext _ ih => rw [ofCodes_cons hnext, codePoint_val, ih]
  | pair hhigh hlow _ ih =>
      rw [ofCodes, if_pos (by rw [hhigh, hlow]; rfl), ih, codePoint_pair hhigh hlow]

theorem StandFor.cons {code : Nat} {codes : List Nat} {text : CodeText} (hcode : code < 0x110000)
    (hnext : isHighSurrogate code = true → ∀ low ∈ codes.head?, ¬ isLowSurrogate low = true)
    (h : StandFor codes text) : StandFor (code :: codes) (codePoint code :: text) := by
  have hpoint : codePoint code = ⟨code, hcode⟩ := codePoint_val ⟨code, hcode⟩
  rw [hpoint]
  exact @StandFor.point ⟨code, hcode⟩ codes text hnext h

theorem standFor_ofCodes {codes : List Nat} (h : ∀ code ∈ codes, code < 0x110000) :
    StandFor codes (ofCodes codes) := by
  fun_induction ofCodes codes with
  | case1 => exact StandFor.nil
  | case2 code => exact StandFor.cons (h code (by simp)) (by simp) StandFor.nil
  | case3 high low rest hpair ih =>
      rw [Bool.and_eq_true] at hpair
      have hrest := ih fun code hcode => h code (by simp [hcode])
      rw [codePoint_pair hpair.1 hpair.2]
      exact StandFor.pair hpair.1 hpair.2 hrest
  | case4 high low rest hpair ih =>
      rw [Bool.and_eq_true] at hpair
      have hrest := ih fun code hcode => h code (List.mem_cons_of_mem _ hcode)
      refine StandFor.cons (h high (by simp)) ?_ hrest
      intro hhigh next hnext hlow
      rw [List.head?_cons, Option.mem_some_iff] at hnext
      exact hpair ⟨hhigh, hnext ▸ hlow⟩

/-- A quoted text has the value that its codes stand for, and no other. -/
theorem quotes_iff {body : List Char} {value : CodeText} :
    Quotes body value ↔ ∃ codes, Spelled body codes ∧ value = ofCodes codes := by
  constructor
  · rintro ⟨codes, hcodes, hvalue⟩
    exact ⟨codes, hcodes, hvalue.ofCodes_eq.symm⟩
  · rintro ⟨codes, hcodes, rfl⟩
    exact ⟨codes, hcodes, standFor_ofCodes hcodes.code_lt⟩

/-! ## Numbers -/

/-- No longer number starts with the digits before such a text. -/
def EndsNumber (rest : List Char) : Prop :=
  ∀ c ∈ rest.head?, c.isDigit = false ∧ c ≠ '.' ∧ c ≠ 'e' ∧ c ≠ 'E'

theorem leadingDigits_append {digits rest : List Char} (h : ∀ c ∈ digits, c.isDigit = true)
    (hrest : ∀ c ∈ rest.head?, c.isDigit = false) :
    leadingDigits (digits ++ rest) = digits := by
  have hnone : rest.takeWhile Char.isDigit = [] := by
    cases rest with
    | nil => rfl
    | cons c more => simp [hrest c rfl]
  rw [leadingDigits, List.takeWhile_append_of_pos h, hnone, List.append_nil]

theorem isDigit_of_mem_leadingDigits {text : List Char} :
    ∀ c ∈ leadingDigits text, c.isDigit = true := by
  exact List.all_eq_true.mp List.all_takeWhile

theorem isDigits_leadingDigits {text : List Char} (h : leadingDigits text ≠ []) :
    IsDigits (leadingDigits text) :=
  ⟨h, isDigit_of_mem_leadingDigits⟩

theorem wholePart_of_head {text : List Char} (h : text.head? ≠ some '0') :
    wholePart text = leadingDigits text := by
  unfold wholePart
  split
  · next rest => exact absurd rfl h
  · rfl

theorem wholePart_append {whole rest : List Char}
    (h : whole = ['0'] ∨ IsDigits whole ∧ whole.head? ≠ some '0')
    (hrest : ∀ c ∈ rest.head?, c.isDigit = false) : wholePart (whole ++ rest) = whole := by
  cases h with
  | inl hzero => rw [hzero]; rfl
  | inr hdigits =>
      have hhead : (whole ++ rest).head? ≠ some '0' := by
        obtain ⟨⟨hne, -⟩, hzero⟩ := hdigits
        cases whole with
        | nil => contradiction
        | cons c more => exact hzero
      rw [wholePart_of_head hhead, leadingDigits_append hdigits.1.2 hrest]

theorem fractionPart_append {fraction rest : List Char}
    (h : fraction = [] ∨ ∃ digits, IsDigits digits ∧ fraction = '.' :: digits)
    (hrest : ∀ c ∈ rest.head?, c.isDigit = false ∧ c ≠ '.') :
    fractionPart (fraction ++ rest) = fraction := by
  cases h with
  | inl hnone =>
      rw [hnone, List.nil_append]
      unfold fractionPart
      split
      · exact absurd rfl (hrest '.' rfl).2
      · rfl
  | inr hsome =>
      obtain ⟨digits, hdigits, rfl⟩ := hsome
      have hread : leadingDigits (digits ++ rest) = digits :=
        leadingDigits_append hdigits.2 fun c hc => (hrest c hc).1
      rw [List.cons_append, fractionPart, hread]
      obtain ⟨hne, -⟩ := hdigits
      cases digits with
      | nil => contradiction
      | cons c more => rfl

theorem exponentPart_append {exponent rest : List Char}
    (h : exponent = [] ∨ ∃ mark sign digits, (mark = 'e' ∨ mark = 'E') ∧
      (sign = [] ∨ sign = ['+'] ∨ sign = ['-']) ∧ IsDigits digits ∧
      exponent = mark :: sign ++ digits)
    (hrest : ∀ c ∈ rest.head?, c.isDigit = false ∧ c ≠ 'e' ∧ c ≠ 'E') :
    exponentPart (exponent ++ rest) = exponent := by
  cases h with
  | inl hnone =>
      rw [hnone, List.nil_append]
      cases rest with
      | nil => rfl
      | cons c more =>
          obtain ⟨-, hlower, hupper⟩ := hrest c rfl
          simp [exponentPart, hlower, hupper]
  | inr hsome =>
      obtain ⟨mark, sign, digits, hmark, hsign, hdigits, rfl⟩ := hsome
      have hread : leadingDigits (digits ++ rest) = digits :=
        leadingDigits_append hdigits.2 fun c hc => (hrest c hc).1
      obtain ⟨hne, hall⟩ := hdigits
      cases digits with
      | nil => contradiction
      | cons c more =>
          have hdigit := hall c (by simp)
          have hplus : c ≠ '+' := by
            intro heq
            rw [heq] at hdigit
            contradiction
          have hminus : c ≠ '-' := by
            intro heq
            rw [heq] at hdigit
            contradiction
          have hsigned : ((sign ++ c :: more ++ rest).take 1 |>.filter fun c =>
              c = '+' || c = '-') = sign := by
            rcases hsign with rfl | rfl | rfl <;> simp [hplus, hminus]
          rw [List.cons_append, List.cons_append, exponentPart, if_pos hmark]
          simp only [hsigned]
          rw [List.append_assoc, List.drop_left, hread]
          rfl

/-- The number at the start of a text is read whole where no longer one starts. -/
theorem Numeral.read_append {numeral : Numeral} {rest : List Char} (h : numeral.IsProper)
    (hrest : EndsNumber rest) : Numeral.read (numeral.spelling ++ rest) = numeral := by
  obtain ⟨hsign, hwhole, hfraction, hexponent⟩ := h
  obtain ⟨sign, whole, fraction, exponent⟩ := numeral
  simp only at hsign hwhole hfraction hexponent
  have hfirst : ∀ c ∈ whole.head?, c ≠ '-' := by
    intro c hc heq
    rw [heq] at hc
    cases hwhole with
    | inl hzero => simp [hzero] at hc
    | inr hdigits =>
        have hminus := hdigits.1.2 '-' (List.mem_of_mem_head? hc)
        contradiction
  have hne : whole ≠ [] := by
    cases hwhole with
    | inl hzero => simp [hzero]
    | inr hdigits => exact hdigits.1.1
  -- Neither the exponent nor the fraction starts with a digit.
  have hafterFraction : ∀ c ∈ (exponent ++ rest).head?, c.isDigit = false ∧ c ≠ '.' := by
    intro c hc
    rcases hexponent with rfl | ⟨mark, esign, digits, hmark, -, -, rfl⟩
    · obtain ⟨hdigit, hpoint, -, -⟩ := hrest c hc
      exact ⟨hdigit, hpoint⟩
    · simp only [List.cons_append, List.head?_cons, Option.mem_some_iff] at hc
      rcases hmark with rfl | rfl <;> subst hc <;> decide
  have hafterWhole : ∀ c ∈ (fraction ++ (exponent ++ rest)).head?, c.isDigit = false := by
    intro c hc
    rcases hfraction with rfl | ⟨digits, -, rfl⟩
    · exact (hafterFraction c hc).1
    · simp only [List.cons_append, List.head?_cons, Option.mem_some_iff] at hc
      subst hc
      decide
  have hend : ∀ c ∈ rest.head?, c.isDigit = false ∧ c ≠ 'e' ∧ c ≠ 'E' := by
    intro c hc
    obtain ⟨hdigit, -, hlower, hupper⟩ := hrest c hc
    exact ⟨hdigit, hlower, hupper⟩
  have hsigned : ((sign ++ (whole ++ (fraction ++ (exponent ++ rest)))).take 1 |>.filter
      (· = '-')) = sign := by
    rcases hsign with rfl | rfl
    · cases whole with
      | nil => exact absurd rfl hne
      | cons c more => simp [hfirst c rfl]
    · simp
  unfold Numeral.read Numeral.spelling
  simp only [List.append_assoc, hsigned, List.drop_left, wholePart_append hwhole hafterWhole,
    fractionPart_append hfraction hafterFraction, exponentPart_append hexponent hend]

theorem wholePart_starts (text : List Char) : wholePart text <+: text := by
  unfold wholePart
  split
  · next rest => exact ⟨rest, rfl⟩
  · exact List.takeWhile_prefix _

theorem wholePart_isProper {text : List Char} (h : wholePart text ≠ []) :
    wholePart text = ['0'] ∨ IsDigits (wholePart text) ∧ (wholePart text).head? ≠ some '0' := by
  unfold wholePart at h ⊢
  split at h
  · exact Or.inl rfl
  · next hzero =>
      refine Or.inr ⟨isDigits_leadingDigits h, ?_⟩
      intro hhead
      rw [leadingDigits, List.head?_takeWhile, Option.filter_eq_some_iff] at hhead
      obtain ⟨rest, htext⟩ := List.head?_eq_some_iff.mp hhead.1
      exact hzero rest htext

theorem fractionPart_spec (text : List Char) :
    fractionPart text <+: text ∧
      (fractionPart text = [] ∨
        ∃ digits, IsDigits digits ∧ fractionPart text = '.' :: digits) := by
  unfold fractionPart
  split
  · next rest =>
      split
      · exact ⟨List.nil_prefix, Or.inl rfl⟩
      · next hdigits =>
          refine ⟨?_, Or.inr ⟨_, isDigits_leadingDigits hdigits, rfl⟩⟩
          rw [List.prefix_cons_inj]
          exact List.takeWhile_prefix _
  · exact ⟨List.nil_prefix, Or.inl rfl⟩

theorem exponentSign_spec (rest : List Char) :
    ∃ sign, (rest.take 1 |>.filter fun c => c = '+' || c = '-') = sign ∧ sign <+: rest ∧
      (sign = [] ∨ sign = ['+'] ∨ sign = ['-']) := by
  cases rest with
  | nil => exact ⟨[], rfl, List.nil_prefix, Or.inl rfl⟩
  | cons c more =>
      by_cases hplus : c = '+'
      · exact ⟨['+'], by simp [hplus], ⟨more, by simp [hplus]⟩, Or.inr (Or.inl rfl)⟩
      by_cases hminus : c = '-'
      · exact ⟨['-'], by simp [hminus], ⟨more, by simp [hminus]⟩, Or.inr (Or.inr rfl)⟩
      · exact ⟨[], by simp [hplus, hminus], List.nil_prefix, Or.inl rfl⟩

theorem exponentPart_spec (text : List Char) :
    exponentPart text <+: text ∧
      (exponentPart text = [] ∨ ∃ mark sign digits, (mark = 'e' ∨ mark = 'E') ∧
        (sign = [] ∨ sign = ['+'] ∨ sign = ['-']) ∧ IsDigits digits ∧
        exponentPart text = mark :: sign ++ digits) := by
  cases text with
  | nil => exact ⟨List.nil_prefix, Or.inl rfl⟩
  | cons mark rest =>
      by_cases hmark : mark = 'e' ∨ mark = 'E'
      · obtain ⟨sign, heq, hprefix, hsign⟩ := exponentSign_spec rest
        simp only [exponentPart, if_pos hmark, heq]
        split
        · exact ⟨List.nil_prefix, Or.inl rfl⟩
        · next hdigits =>
            refine ⟨?_, Or.inr ⟨mark, sign, _, hmark, hsign, isDigits_leadingDigits hdigits, rfl⟩⟩
            obtain ⟨later, rfl⟩ := hprefix
            rw [List.cons_append, List.prefix_cons_inj, List.prefix_append_right_inj,
              List.drop_left]
            exact List.takeWhile_prefix _
      · simp only [exponentPart, if_neg hmark]
        exact ⟨List.nil_prefix, Or.inl trivial⟩

theorem Numeral.read_spec {text : List Char} (h : (Numeral.read text).whole ≠ []) :
    (Numeral.read text).IsProper ∧ (Numeral.read text).spelling <+: text := by
  have hsign : ∃ sign, (text.take 1 |>.filter (· = '-')) = sign ∧ sign <+: text ∧
      (sign = [] ∨ sign = ['-']) := by
    cases text with
    | nil => exact ⟨[], rfl, List.nil_prefix, Or.inl rfl⟩
    | cons c more =>
        by_cases hminus : c = '-'
        · exact ⟨['-'], by simp [hminus], ⟨more, by simp [hminus]⟩, Or.inr rfl⟩
        · exact ⟨[], by simp [hminus], List.nil_prefix, Or.inl rfl⟩
  obtain ⟨sign, heq, ⟨unsigned, rfl⟩, hminus⟩ := hsign
  unfold Numeral.read at h ⊢
  simp only [heq, List.drop_left] at h ⊢
  obtain ⟨hfraction, hfractionProper⟩ :=
    fractionPart_spec (unsigned.drop (wholePart unsigned).length)
  obtain ⟨⟨later, hexponent⟩, hexponentProper⟩ := exponentPart_spec
    ((unsigned.drop (wholePart unsigned).length).drop
      (fractionPart (unsigned.drop (wholePart unsigned).length)).length)
  refine ⟨⟨hminus, wholePart_isProper h, hfractionProper, hexponentProper⟩, later, ?_⟩
  have hwhole := List.prefix_iff_eq_append.mp (wholePart_starts unsigned)
  rw [List.prefix_iff_eq_append] at hfraction
  simp only [Numeral.spelling, List.append_assoc]
  rw [hexponent, hfraction, hwhole]

/-! ## Words and numbers -/

theorem find?_word {spelling : List Char} {value : Json} (h : (spelling, value) ∈ words)
    (rest : List Char) :
    (words.find? fun word => word.1.isPrefixOf (spelling ++ rest)) = some (spelling, value) := by
  simp only [words, List.mem_cons, List.not_mem_nil, or_false, Prod.mk.injEq] at h
  rcases h with ⟨rfl, rfl⟩ | ⟨rfl, rfl⟩ | ⟨rfl, rfl⟩ | ⟨rfl, rfl⟩ | ⟨rfl, rfl⟩ | ⟨rfl, rfl⟩ <;>
    rfl

theorem find?_word_of_digit {c : Char} (h : c.isDigit = true) (rest : List Char) :
    (words.find? fun word => word.1.isPrefixOf (c :: rest)) = none ∧
      (words.find? fun word => word.1.isPrefixOf ('-' :: c :: rest)) = none := by
  have hne : ∀ letter : Char, letter.isDigit = false → letter ≠ c := by
    intro letter hletter heq
    rw [heq, h] at hletter
    contradiction
  constructor
  · simp [words, List.isPrefixOf, hne 'n', hne 't', hne 'f', hne 'N', hne 'I', hne '-']
  · simp [words, List.isPrefixOf, hne 'I']

theorem readAtom_word {spelling : List Char} {value : Json} (h : (spelling, value) ∈ words)
    (rest : List Char) :
    readAtom (spelling ++ rest) = .ok (.atom value, spelling.length) := by
  rw [readAtom, find?_word h]

theorem Numeral.IsProper.spelling_eq {numeral : Numeral} (h : numeral.IsProper) :
    ∃ c rest, c.isDigit = true ∧
      (numeral.spelling = c :: rest ∨ numeral.spelling = '-' :: c :: rest) := by
  have hwhole : ∃ c rest, c.isDigit = true ∧ numeral.whole = c :: rest := by
    cases h.whole with
    | inl hzero => exact ⟨'0', [], by decide, hzero⟩
    | inr hdigits =>
        obtain ⟨c, rest, heq⟩ := List.exists_cons_of_ne_nil hdigits.1.1
        exact ⟨c, rest, hdigits.1.2 c (by simp [heq]), heq⟩
  obtain ⟨c, rest, hc, heq⟩ := hwhole
  refine ⟨c, rest ++ numeral.fraction ++ numeral.exponent, hc, ?_⟩
  cases h.sign with
  | inl hnone => exact Or.inl (by simp [Numeral.spelling, hnone, heq])
  | inr hminus => exact Or.inr (by simp [Numeral.spelling, hminus, heq])

theorem readAtom_numeral {numeral : Numeral} (h : numeral.IsProper) {rest : List Char}
    (hrest : EndsNumber rest) :
    readAtom (numeral.spelling ++ rest) =
      if numeral.isWhole && maxDigits < numeral.whole.length then
        .error (.oversized numeral.whole.length)
      else .ok (.atom numeral.value, numeral.spelling.length) := by
  have hword : (words.find? fun word => word.1.isPrefixOf (numeral.spelling ++ rest)) = none := by
    obtain ⟨c, more, hc, heq | heq⟩ := h.spelling_eq
    · rw [heq, List.cons_append]
      exact (find?_word_of_digit hc _).1
    · rw [heq, List.cons_append, List.cons_append]
      exact (find?_word_of_digit hc _).2
  have hwhole : numeral.whole.isEmpty = false := by
    cases h.whole with
    | inl hzero => simp [hzero]
    | inr hdigits => simp [hdigits.1.1]
  rw [readAtom, hword]
  simp [Numeral.read_append h hrest, hwhole]

theorem readAtom_number {numeral : Numeral} (h : numeral.IsProper) {rest : List Char}
    (hrest : EndsNumber rest)
    (hsize : numeral.isWhole = true → numeral.whole.length ≤ maxDigits) :
    readAtom (numeral.spelling ++ rest) = .ok (.atom numeral.value, numeral.spelling.length) := by
  rw [readAtom_numeral h hrest, if_neg]
  rw [Bool.and_eq_true, decide_eq_true_eq]
  rintro ⟨hwhole, hlong⟩
  exact absurd (hsize hwhole) (by omega)

theorem written_of_readAtom {text : List Char} {token : Token} {length : Nat}
    (h : readAtom text = .ok (token, length)) :
    ∃ spelling value, token = .atom value ∧ length = spelling.length ∧ spelling <+: text ∧
      Written spelling value := by
  unfold readAtom at h
  split at h
  · next spelling value hfind =>
      simp only [Except.ok.injEq, Prod.mk.injEq] at h
      have hprefix := List.find?_some hfind
      refine ⟨spelling, value, h.1.symm, h.2.symm, List.isPrefixOf_iff_prefix.mp hprefix, ?_⟩
      exact Written.word (List.mem_of_find?_eq_some hfind)
  · simp only at h
    split at h
    · contradiction
    · next hwhole =>
        split at h
        · contradiction
        · simp only [Except.ok.injEq, Prod.mk.injEq] at h
          have hne : (Numeral.read text).whole ≠ [] := by simpa using hwhole
          obtain ⟨hproper, hprefix⟩ := Numeral.read_spec hne
          exact ⟨_, _, h.1.symm, h.2.symm, hprefix, Written.number hproper⟩

theorem Written.exists_head {body : List Char} {value : Json} (h : Written body value) :
    ∃ c rest, body = c :: rest ∧
      (c.isDigit = true ∨ c ∈ ['n', 't', 'f', 'N', 'I', '-', '"', '[', '\x7b']) := by
  cases h with
  | word hword =>
      simp only [words, List.mem_cons, List.not_mem_nil, or_false, Prod.mk.injEq] at hword
      rcases hword with ⟨rfl, rfl⟩ | ⟨rfl, rfl⟩ | ⟨rfl, rfl⟩ | ⟨rfl, rfl⟩ | ⟨rfl, rfl⟩ | ⟨rfl, rfl⟩
      all_goals exact ⟨_, _, rfl, Or.inr (by decide)⟩
  | number hproper =>
      obtain ⟨c, rest, hc, heq | heq⟩ := hproper.spelling_eq
      · exact ⟨c, rest, heq, Or.inl hc⟩
      · exact ⟨'-', c :: rest, heq, Or.inr (by decide)⟩
  | string _ => exact ⟨'"', _, rfl, Or.inr (by decide)⟩
  | emptyArray _ => exact ⟨'[', _, rfl, Or.inr (by decide)⟩
  | array _ => exact ⟨'[', _, rfl, Or.inr (by decide)⟩
  | emptyObject _ => exact ⟨'\x7b', _, rfl, Or.inr (by decide)⟩
  | object _ => exact ⟨'\x7b', _, rfl, Or.inr (by decide)⟩

/-! ## Tokens -/

/-- What is written for a token. -/
inductive Lexeme : List Char → Token → Prop
  | openArray : Lexeme ['['] .openArray
  | closeArray : Lexeme [']'] .closeArray
  | openObject : Lexeme ['\x7b'] .openObject
  | closeObject : Lexeme ['\x7d'] .closeObject
  | comma : Lexeme [','] .comma
  | colon : Lexeme [':'] .colon
  | string {body value} : Quotes body value → Lexeme ('"' :: body ++ ['"']) (.string value)
  | atom {spelling value} : Written spelling value → Lexeme spelling (.atom value)

theorem Lexeme.of_punctuation {c : Char} {token : Token} (h : punctuation? c = some token) :
    Lexeme [c] token := by
  unfold punctuation? at h
  split at h
  · next hc => cases h; rw [hc]; exact Lexeme.openArray
  split at h
  · next hc => cases h; rw [hc]; exact Lexeme.closeArray
  split at h
  · next hc => cases h; rw [hc]; exact Lexeme.openObject
  split at h
  · next hc => cases h; rw [hc]; exact Lexeme.closeObject
  split at h
  · next hc => cases h; rw [hc]; exact Lexeme.comma
  split at h
  · next hc => cases h; rw [hc]; exact Lexeme.colon
  · contradiction

/-- The lexer takes a token's spelling off the text. -/
theorem lexeme_of_readToken {position length : Nat} {c : Char} {rest : List Char}
    {token : Token} (h : readToken position c rest = .ok (token, length)) :
    ∃ spelling, Lexeme spelling token ∧ spelling ≠ [] ∧
      c :: rest = spelling ++ rest.drop (length - 1) := by
  unfold readToken at h
  cases hmark : punctuation? c with
  | some mark =>
      simp only [hmark, Except.ok.injEq, Prod.mk.injEq] at h
      obtain ⟨rfl, rfl⟩ := h
      exact ⟨[c], Lexeme.of_punctuation hmark, by simp, rfl⟩
  | none =>
      simp only [hmark] at h
      split at h
      · next hquote =>
          obtain ⟨⟨codes, final⟩, hcodes, heq⟩ := map_eq_ok h
          obtain ⟨body, later, hrest, hbody, hfinal⟩ := spelled_of_readCodes hcodes
          simp only [Prod.mk.injEq] at heq
          obtain ⟨rfl, rfl⟩ := heq
          refine ⟨'"' :: body ++ ['"'], Lexeme.string (quotes_iff.mpr ⟨codes, hbody, rfl⟩),
            by simp, ?_⟩
          have hlength : final - position - 1 = (body ++ ['"']).length := by
            rw [List.length_append, List.length_singleton]
            omega
          have hsplit : rest = (body ++ ['"']) ++ later := by simp [hrest]
          rw [hlength, hsplit, List.drop_left, hquote]
          rfl
      · obtain ⟨spelling, value, rfl, rfl, ⟨later, hlater⟩, hwritten⟩ := written_of_readAtom h
        obtain ⟨first, more, rfl, -⟩ := hwritten.exists_head
        refine ⟨first :: more, Lexeme.atom hwritten, by simp, ?_⟩
        rw [List.cons_append, List.cons.injEq] at hlater
        rw [← hlater.2, List.length_cons, Nat.add_sub_cancel, List.drop_left, ← hlater.1]
        rfl

end DependencyAudit.Json
