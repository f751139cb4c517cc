/-!
# Texts of code points

A JSON text may name any code point by its number, also half of a surrogate pair,
which is no character.  So what is read from there is a list of code points.  It is
compared code point by code point, and it can be printed when all of them are
characters.
-/

namespace DependencyAudit

abbrev CodePoint := Fin 0x110000

instance : LawfulBEq CodePoint := instLawfulBEq

namespace CodePoint

def ofChar (c : Char) : CodePoint :=
  ⟨c.toNat, by
    rcases c.valid with h | h
    · exact Nat.lt_trans h (by decide)
    · exact h.2⟩

def isCharacter (code : CodePoint) : Bool :=
  code.val.isValidChar

/-- The character at a code point; the null character where there is none. -/
def toChar (code : CodePoint) : Char :=
  Char.ofNat code.val

@[simp] theorem toChar_ofChar (c : Char) : (ofChar c).toChar = c :=
  Char.ofNat_toNat c

@[simp] theorem isCharacter_ofChar (c : Char) : (ofChar c).isCharacter = true :=
  decide_eq_true c.valid

theorem ofChar_toChar {code : CodePoint} (h : code.isCharacter = true) :
    ofChar code.toChar = code := by
  have hvalid : code.val.isValidChar := of_decide_eq_true h
  have hcode : (Char.ofNat code.val).toNat = code.val := by
    rw [Char.ofNat, dif_pos hvalid]
    rfl
  exact Fin.ext hcode

theorem ofChar_inj {c d : Char} : ofChar c = ofChar d ↔ c = d := by
  constructor
  · intro h
    simpa using congrArg toChar h
  · rintro rfl
    rfl

end CodePoint

/-- A text whose code points need not all be characters. -/
abbrev CodeText := List CodePoint

namespace CodeText

open CodePoint

def ofString (text : String) : CodeText :=
  text.toList.map ofChar

instance : Coe String CodeText := ⟨ofString⟩

/-- Every code point of the text is a character. -/
def IsPlain (text : CodeText) : Prop :=
  ∀ code ∈ text, code.isCharacter = true

instance (text : CodeText) : Decidable (IsPlain text) :=
  decidable_of_iff (text.all isCharacter = true) List.all_eq_true

/-- The characters of a plain text. -/
def chars (text : CodeText) : List Char :=
  text.map toChar

/-- The text as it is printed, if it is plain. -/
def string? (text : CodeText) : Option String :=
  if IsPlain text then some (String.ofList (chars text)) else none

@[simp] theorem isPlain_append {left right : CodeText} :
    IsPlain (left ++ right) ↔ IsPlain left ∧ IsPlain right := by
  simp [IsPlain, or_imp, forall_and]

@[simp] theorem isPlain_ofString (text : String) : IsPlain (ofString text) := by
  intro code hcode
  obtain ⟨c, -, rfl⟩ := List.mem_map.mp hcode
  exact isCharacter_ofChar c

@[simp] theorem chars_nil : chars [] = [] := rfl

@[simp] theorem isPlain_nil : IsPlain [] := by
  simp [IsPlain]

@[simp] theorem chars_append (left right : CodeText) :
    chars (left ++ right) = chars left ++ chars right :=
  List.map_append

@[simp] theorem chars_ofString (text : String) : chars (ofString text) = text.toList := by
  simp [chars, ofString, Function.comp_def]

theorem map_ofChar_chars {text : CodeText} (h : IsPlain text) :
    (chars text).map ofChar = text := by
  rw [chars, List.map_map]
  conv => rhs; rw [← List.map_id text]
  exact List.map_congr_left fun code hcode => ofChar_toChar (h code hcode)

/-- The texts that can be printed are those that a string spells. -/
theorem string?_eq_some_iff {text : CodeText} {shown : String} :
    string? text = some shown ↔ text = ofString shown := by
  unfold string?
  constructor
  · intro h
    split at h
    · next hplain =>
        rw [Option.some.injEq] at h
        rw [← h, ofString, String.toList_ofList, map_ofChar_chars hplain]
    · contradiction
  · rintro rfl
    rw [if_pos (isPlain_ofString shown), chars_ofString, String.ofList_toList]

theorem string?_eq_none_iff {text : CodeText} : string? text = none ↔ ¬ IsPlain text := by
  simp [string?]

theorem ofString_inj {left right : String} : ofString left = ofString right ↔ left = right := by
  constructor
  · intro h
    have htext := congrArg chars h
    rwa [chars_ofString, chars_ofString, String.toList_inj] at htext
  · rintro rfl
    rfl

end CodeText

end DependencyAudit
