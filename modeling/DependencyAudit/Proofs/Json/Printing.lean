import DependencyAudit.Json.Printer
import DependencyAudit.Proofs.Json.Soundness
import DependencyAudit.Proofs.Text.WholeNumbers
import Mathlib.Data.List.Basic

/-!
# What is printed is written

The printer gives every value one of the texts that are written for it.  Quoted texts
spell their characters, escapes included; whole numbers have no leading zeros; and the
lines and blanks between the items of an array or the members of an object are
spacing.  A number with a fraction or an exponent is kept as its text, so it is
printed well when that text is one.  All this is about characters: a text is printed
when each code point of the value is one.
-/

namespace DependencyAudit.Json

open DependencyAudit.Text CodeText

/-! ## Quoted texts -/

theorem ofHexadecimal?_control :
    ∀ n < 0x20, ofHexadecimal? (hexadecimal 4 n) = some n := by
  decide

theorem Spelled.escapedChar_append {rest : List Char} {codes : List Nat}
    (h : Spelled rest codes) (c : Char) :
    Spelled (escapedChar c ++ rest) (c.toNat :: codes) := by
  unfold escapedChar
  split
  · next hc => subst hc; exact Spelled.escape (by decide) h
  split
  · next hc => subst hc; exact Spelled.escape (by decide) h
  split
  · next hc => subst hc; exact Spelled.escape (by decide) h
  split
  · next hc => subst hc; exact Spelled.escape (by decide) h
  split
  · next hc => subst hc; exact Spelled.escape (by decide) h
  split
  · next hc => subst hc; exact Spelled.escape (by decide) h
  split
  · next hc => subst hc; exact Spelled.escape (by decide) h
  split
  · next hcontrol =>
      exact Spelled.code (length_hexadecimal 4 c.toNat)
        (ofHexadecimal?_control c.toNat hcontrol) h
  · next hquote hslash _ _ _ _ _ hcontrol =>
      exact Spelled.raw hquote hslash (Nat.le_of_not_lt hcontrol) h

theorem spelled_flatMap_escapedChar (characters : List Char) :
    Spelled (characters.flatMap escapedChar) (characters.map Char.toNat) := by
  induction characters with
  | nil => exact Spelled.nil
  | cons c rest ih =>
      rw [List.flatMap_cons, List.map_cons]
      exact ih.escapedChar_append c

theorem not_isHighSurrogate_ofChar (c : Char) :
    ¬ isHighSurrogate (CodePoint.ofChar c).val = true := by
  rw [isHighSurrogate_iff]
  have hvalid : c.toNat.isValidChar := c.valid
  simp only [Nat.isValidChar] at hvalid
  simp only [CodePoint.ofChar]
  omega

theorem standFor_toNat (characters : List Char) :
    StandFor (characters.map Char.toNat) (characters.map CodePoint.ofChar) := by
  induction characters with
  | nil => exact StandFor.nil
  | cons c rest ih =>
      exact StandFor.point (fun hhigh => absurd hhigh (not_isHighSurrogate_ofChar c)) ih

theorem quotes_escapedChar {value : CodeText} (h : IsPlain value) :
    Quotes ((chars value).flatMap escapedChar) value := by
  have hvalue := standFor_toNat (chars value)
  rw [map_ofChar_chars h] at hvalue
  exact ⟨_, spelled_flatMap_escapedChar (chars value), hvalue⟩

theorem chars_escaped {code : CodePoint} (h : code.isCharacter = true) :
    chars (escaped code) = escapedChar code.toChar := by
  simp [escaped, h, chars, Function.comp_def]

theorem chars_quote {value : CodeText} (h : IsPlain value) :
    chars (quote value) = '"' :: (chars value).flatMap escapedChar ++ ['"'] := by
  have hbody : chars (value.flatMap escaped) = (chars value).flatMap escapedChar := by
    rw [chars, chars, List.map_flatMap, List.flatMap_map]
    exact List.flatMap_congr fun code hcode => chars_escaped (h code hcode)
  rw [quote, chars_append, chars_append, hbody, chars_ofString]
  rfl

theorem isPlain_escaped (code : CodePoint) :
    IsPlain (escaped code) ↔ code.isCharacter = true := by
  unfold escaped
  split
  · next hcode => simp [IsPlain, hcode]
  · simp [IsPlain]

theorem isPlain_quote {value : CodeText} : IsPlain (quote value) ↔ IsPlain value := by
  have hbody : IsPlain (value.flatMap escaped) ↔ IsPlain value :=
    List.forall_mem_flatMap.trans
      (forall_congr' fun code => imp_congr_right fun _ => isPlain_escaped code)
  simp [quote, hbody]

/-! ## Whole numbers -/

theorem digitChar_ne_zero : ∀ n < 10, 0 < n → n.digitChar ≠ '0' := by
  decide

theorem head?_toDigits {n : Nat} (h : 0 < n) : (Nat.toDigits 10 n).head? ≠ some '0' := by
  induction n using Nat.strongRecOn with
  | ind n ih =>
      rw [Nat.toDigits_eq_if (by decide)]
      split
      · next hsmall =>
          rw [List.head?_cons, Ne, Option.some.injEq]
          exact digitChar_ne_zero n hsmall h
      · next hlarge =>
          have hrest := ih (n / 10) (by omega) (by omega)
          cases hdigits : Nat.toDigits 10 (n / 10) with
          | nil => exact absurd hdigits Nat.toDigits_ne_nil
          | cons c more =>
              rw [hdigits] at hrest
              exact hrest

theorem ofDigits_toDigits (n : Nat) : ofDigits ((Nat.toDigits 10 n).map digitValue) = n :=
  Text.ofDigits_toDigits n

theorem whole_toDigits (n : Nat) :
    Nat.toDigits 10 n = ['0'] ∨
      IsDigits (Nat.toDigits 10 n) ∧ (Nat.toDigits 10 n).head? ≠ some '0' := by
  cases n with
  | zero => exact Or.inl (Nat.toDigits_zero 10)
  | succ n =>
      refine Or.inr ⟨⟨Nat.toDigits_ne_nil, ?_⟩, head?_toDigits (Nat.succ_pos n)⟩
      intro c hc
      exact Text.isDigit_of_mem_toDigits hc

theorem written_signed {sign : List Char} (hsign : sign = [] ∨ sign = ['-']) (n : Nat) :
    Written (sign ++ Nat.toDigits 10 n) (.integer (if sign.isEmpty then n else -(n : Int))) := by
  have hproper : Numeral.IsProper ⟨sign, Nat.toDigits 10 n, [], []⟩ :=
    ⟨hsign, whole_toDigits n, Or.inl rfl, Or.inl rfl⟩
  have hwritten := Written.number hproper
  simpa [Numeral.spelling, Numeral.value, Numeral.isWhole, ofDigits_toDigits] using hwritten

theorem written_integer (n : Int) : Written (toString n).toList (.integer n) := by
  cases n with
  | ofNat n =>
      rw [Text.toList_toString_ofNat]
      exact written_signed (Or.inl rfl) n
  | negSucc n =>
      rw [Text.toList_toString_negSucc]
      exact written_signed (Or.inr rfl) (n + 1)

/-! ## Values -/

mutual

/-- The numbers with a fraction or an exponent in a value, as they are kept. -/
def reals : Json → List String
  | .real text => [text]
  | .array items => realsOfItems items
  | .object members => realsOfMembers members
  | _ => []

def realsOfItems : List Json → List String
  | [] => []
  | item :: items => reals item ++ realsOfItems items

def realsOfMembers : List (CodeText × Json) → List String
  | [] => []
  | (_, value) :: members => reals value ++ realsOfMembers members

end

mutual

/-- The quoted texts of a value, the names of members included. -/
def texts : Json → List CodeText
  | .string value => [value]
  | .array items => textsOfItems items
  | .object members => textsOfMembers members
  | _ => []

def textsOfItems : List Json → List CodeText
  | [] => []
  | item :: items => texts item ++ textsOfItems items

def textsOfMembers : List (CodeText × Json) → List CodeText
  | [] => []
  | (name, value) :: members => name :: (texts value ++ textsOfMembers members)

end

theorem chars_newline (level : Nat) :
    chars (newline level) = '\n' :: List.replicate (2 * level) ' ' := by
  simp [newline, chars, ofString]

theorem isSpacing_newline (level : Nat) : IsSpacing (chars (newline level)) := by
  intro c hc
  simp only [chars_newline, List.mem_cons, List.mem_replicate] at hc
  rcases hc with rfl | ⟨-, rfl⟩
  · exact Or.inr (Or.inr (Or.inl rfl))
  · exact Or.inl rfl

theorem isPlain_newline (level : Nat) : IsPlain (newline level) := by
  intro code hcode
  simp only [newline, ofString, List.mem_append, List.mem_map, List.mem_replicate] at hcode
  rcases hcode with ⟨c, -, rfl⟩ | ⟨-, rfl⟩ <;> exact CodePoint.isCharacter_ofChar _

mutual

theorem written_renderAt : ∀ (value : Json) (level : Nat),
    (∀ text ∈ reals value, Written text.toList (.real text)) →
    (∀ text ∈ texts value, IsPlain text) →
    Written (chars (renderAt level value)) value
  | .null, _, _, _ => Written.word (by simp [words, renderAt])
  | .bool true, _, _, _ => Written.word (by simp [words, renderAt])
  | .bool false, _, _, _ => Written.word (by simp [words, renderAt])
  | .integer n, _, _, _ => by
      rw [renderAt, chars_ofString]
      exact written_integer n
  | .real text, _, h, _ => by
      rw [renderAt, chars_ofString]
      exact h text (by simp [reals])
  | .string value, _, _, hplain => by
      have hvalue := hplain value (by simp [texts])
      rw [renderAt, chars_quote hvalue]
      exact Written.string (quotes_escapedChar hvalue)
  | .array [], _, _, _ => by
      rw [renderAt, chars_ofString]
      exact Written.emptyArray isSpacing_nil
  | .array (item :: items), level, h, hplain => by
      rw [reals, realsOfItems, List.forall_mem_append] at h
      rw [texts, textsOfItems, List.forall_mem_append] at hplain
      have hitem := written_renderAt item (level + 1) h.1 hplain.1
      have hitems := written_renderItems items (level + 1) h.2 hplain.2
        (isSpacing_newline (level + 1)) hitem (isSpacing_newline level)
      simpa [renderAt] using Written.array hitems
  | .object [], _, _, _ => by
      rw [renderAt, chars_ofString]
      exact Written.emptyObject isSpacing_nil
  | .object ((name, value) :: members), level, h, hplain => by
      rw [reals, realsOfMembers, List.forall_mem_append] at h
      rw [texts, textsOfMembers, List.forall_mem_cons, List.forall_mem_append] at hplain
      have hvalue := written_renderAt value (level + 1) h.1 hplain.2.1
      have hmembers := written_renderMembers members (level + 1) h.2 hplain.2.2
        (isSpacing_newline (level + 1)) hplain.1 hvalue (isSpacing_newline level)
      simpa [renderAt] using Written.object hmembers

theorem written_renderItems : ∀ (items : List Json) (level : Nat),
    (∀ text ∈ realsOfItems items, Written text.toList (.real text)) →
    (∀ text ∈ textsOfItems items, IsPlain text) →
    ∀ {before body after : List Char} {value : Json}, IsSpacing before → Written body value →
      IsSpacing after →
      WrittenItems (before ++ body ++ chars (renderItems level items) ++ after)
        (value :: items)
  | [], level, _, _, before, body, after, value, hbefore, hbody, hafter => by
      have hlast := WrittenItems.last (Element.mk hbefore hbody hafter)
      simpa [renderItems] using hlast
  | item :: items, level, h, hplain, before, body, after, value, hbefore, hbody, hafter => by
      rw [realsOfItems, List.forall_mem_append] at h
      rw [textsOfItems, List.forall_mem_append] at hplain
      have hitem := written_renderAt item level h.1 hplain.1
      have hitems := written_renderItems items level h.2 hplain.2
        (isSpacing_newline level) hitem hafter
      have hmore := WrittenItems.more (Element.mk hbefore hbody isSpacing_nil) hitems
      simpa [renderItems] using hmore

theorem written_renderMembers : ∀ (members : List (CodeText × Json)) (level : Nat),
    (∀ text ∈ realsOfMembers members, Written text.toList (.real text)) →
    (∀ text ∈ textsOfMembers members, IsPlain text) →
    ∀ {before body after : List Char} {name : CodeText} {value : Json}, IsSpacing before →
      IsPlain name → Written body value → IsSpacing after →
      WrittenMembers
        (before ++ chars (quote name) ++ ": ".toList ++ body ++
          chars (renderMembers level members) ++ after)
        ((name, value) :: members)
  | [], level, _, _, before, body, after, name, value, hbefore, hname, hbody, hafter => by
      have hblank : IsSpacing [' '] := by simp [IsSpacing]
      have hlast := WrittenMembers.last hbefore (quotes_escapedChar hname) isSpacing_nil
        (Element.mk hblank hbody hafter)
      simpa [renderMembers, chars_quote hname] using hlast
  | (key, item) :: members, level, h, hplain, before, body, after, name, value, hbefore, hname,
      hbody, hafter => by
      rw [realsOfMembers, List.forall_mem_append] at h
      rw [textsOfMembers, List.forall_mem_cons, List.forall_mem_append] at hplain
      have hitem := written_renderAt item level h.1 hplain.2.1
      have hmembers := written_renderMembers members level h.2 hplain.2.2
        (isSpacing_newline level) hplain.1 hitem hafter
      have hblank : IsSpacing [' '] := by simp [IsSpacing]
      have hmore := WrittenMembers.more hbefore (quotes_escapedChar hname) isSpacing_nil
        (Element.mk hblank hbody isSpacing_nil) hmembers
      simpa [renderMembers, chars_quote hname] using hmore

end

mutual

theorem isPlain_renderAt_iff : ∀ (value : Json) (level : Nat),
    IsPlain (renderAt level value) ↔ ∀ text ∈ texts value, IsPlain text
  | .null, _ => by simp [renderAt, texts]
  | .bool true, _ => by simp [renderAt, texts]
  | .bool false, _ => by simp [renderAt, texts]
  | .integer _, _ => by simp [renderAt, texts]
  | .real _, _ => by simp [renderAt, texts]
  | .string _, _ => by simp [renderAt, texts, isPlain_quote]
  | .array [], _ => by simp [renderAt, texts, textsOfItems]
  | .array (item :: items), level => by
      rw [texts, textsOfItems, List.forall_mem_append, ← isPlain_renderAt_iff item (level + 1),
        ← isPlain_renderItems_iff items (level + 1)]
      simp [renderAt, isPlain_newline]
  | .object [], _ => by simp [renderAt, texts, textsOfMembers]
  | .object ((name, value) :: members), level => by
      rw [texts, textsOfMembers, List.forall_mem_cons, List.forall_mem_append,
        ← isPlain_renderAt_iff value (level + 1), ← isPlain_renderMembers_iff members (level + 1)]
      simp [renderAt, isPlain_newline, isPlain_quote]

theorem isPlain_renderItems_iff : ∀ (items : List Json) (level : Nat),
    IsPlain (renderItems level items) ↔ ∀ text ∈ textsOfItems items, IsPlain text
  | [], _ => by simp [renderItems, textsOfItems]
  | item :: items, level => by
      rw [textsOfItems, List.forall_mem_append, ← isPlain_renderAt_iff item level,
        ← isPlain_renderItems_iff items level]
      simp [renderItems, isPlain_newline]

theorem isPlain_renderMembers_iff : ∀ (members : List (CodeText × Json)) (level : Nat),
    IsPlain (renderMembers level members) ↔ ∀ text ∈ textsOfMembers members, IsPlain text
  | [], _ => by simp [renderMembers, textsOfMembers]
  | (name, value) :: members, level => by
      rw [textsOfMembers, List.forall_mem_cons, List.forall_mem_append,
        ← isPlain_renderAt_iff value level, ← isPlain_renderMembers_iff members level]
      simp [renderMembers, isPlain_newline, isPlain_quote]

end

/-- A value is printed unless one of its texts has a code point that is no character. -/
theorem string?_render_eq_none_iff (value : Json) :
    CodeText.string? value.render = none ↔ ¬ ∀ text ∈ texts value, IsPlain text := by
  rw [string?_eq_none_iff, render, isPlain_renderAt_iff]

/-- A value that is printed is an element of its text. -/
theorem element_render {value : Json} {printed : String}
    (h : ∀ text ∈ reals value, Written text.toList (.real text))
    (hprinted : CodeText.string? value.render = some printed) :
    Element printed.toList value := by
  have hplain : ∀ text ∈ texts value, IsPlain text := by
    by_contra hmark
    rw [(string?_render_eq_none_iff value).mpr hmark] at hprinted
    contradiction
  have hwritten := written_renderAt value 0 h hplain
  have helement := Element.mk isSpacing_nil hwritten isSpacing_nil
  rw [List.nil_append, List.append_nil] at helement
  have htext : renderAt 0 value = ofString printed := string?_eq_some_iff.mp hprinted
  rwa [htext, chars_ofString] at helement

end DependencyAudit.Json
