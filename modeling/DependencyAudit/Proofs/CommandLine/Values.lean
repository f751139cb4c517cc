import DependencyAudit.CommandLine.Reader
import DependencyAudit.Text.Span
import Mathlib.Data.List.Basic
import Mathlib.Data.List.TakeWhile

/-!
# Values on the command line

A setting takes the token after it only if that can be a value.  Most tokens can; one
that starts with a dash must look like a negative number or hold a space, and no option
may be readable from it: not the token itself, not what stands before an equals sign in
it, and not its first two characters.  The marking of words decides the same question.
-/

namespace DependencyAudit.CommandLine

/-! ## Negative numbers -/

/-- A dash and digits, or a dash and digits after a point; a line feed may follow. -/
inductive NegativeNumber : List Char → Prop where
  | whole (digits tail : List Char) (hsome : digits ≠ [])
      (hdigits : ∀ c ∈ digits, Text.isDecimalDigit c = true)
      (htail : tail = [] ∨ tail = ['\n']) :
      NegativeNumber ('-' :: digits ++ tail)
  | fraction (whole digits tail : List Char)
      (hwhole : ∀ c ∈ whole, Text.isDecimalDigit c = true) (hsome : digits ≠ [])
      (hdigits : ∀ c ∈ digits, Text.isDecimalDigit c = true)
      (htail : tail = [] ∨ tail = ['\n']) :
      NegativeNumber ('-' :: whole ++ '.' :: digits ++ tail)

theorem withoutFinalNewline_append {text tail : List Char} (hlast : text.getLast? ≠ some '\n')
    (htail : tail = [] ∨ tail = ['\n']) : withoutFinalNewline (text ++ tail) = text := by
  rcases htail with rfl | rfl
  · rw [List.append_nil, withoutFinalNewline, if_neg hlast]
  · simp [withoutFinalNewline]

theorem exists_tail_withoutFinalNewline (text : List Char) :
    ∃ tail, (tail = [] ∨ tail = ['\n']) ∧ text = withoutFinalNewline text ++ tail := by
  unfold withoutFinalNewline
  split
  · next hlast =>
      refine ⟨['\n'], Or.inr rfl, ?_⟩
      exact (List.dropLast_append_getLast? _ hlast).symm
  · exact ⟨[], Or.inl rfl, (List.append_nil _).symm⟩

theorem getLast?_append_digits (front : List Char) {digits : List Char} (hsome : digits ≠ [])
    (hdigits : ∀ c ∈ digits, Text.isDecimalDigit c = true) :
    (front ++ digits).getLast? ≠ some '\n' := by
  intro hlast
  rw [List.getLast?_append_of_ne_nil _ hsome] at hlast
  have hnewline := hdigits _ (List.mem_of_getLast? hlast)
  have hother : Text.isDecimalDigit '\n' = false := by decide
  rw [hother] at hnewline
  contradiction

theorem isDecimalDigit_point : Text.isDecimalDigit '.' = false := by decide

theorem isNegativeNumber_iff (token : String) :
    isNegativeNumber token = true ↔ NegativeNumber token.toList := by
  constructor
  · intro h
    obtain ⟨tail, htail, htext⟩ := exists_tail_withoutFinalNewline token.toList
    unfold isNegativeNumber at h
    split at h
    · next rest hrest =>
        rw [htext, hrest]
        simp only [Text.drop_length_takeWhile] at h
        split at h
        · next hnone =>
            have hall := List.dropWhile_eq_nil_iff.mp hnone
            rw [List.takeWhile_eq_self_iff.mpr hall] at h
            exact .whole rest tail (by simpa using h) hall htail
        · next fraction hpoint =>
            rw [Bool.and_eq_true, Bool.not_eq_true', List.isEmpty_eq_false_iff,
              List.all_eq_true] at h
            obtain ⟨hsplit, -⟩ := Text.eq_of_dropWhile_eq_cons hpoint
            rw [hsplit]
            exact .fraction _ fraction tail (fun c hc => Text.of_mem_takeWhile hc) h.1 h.2 htail
        · contradiction
    · contradiction
  · intro h
    generalize htext : token.toList = text at h
    cases h with
    | whole digits tail hsome hdigits htail =>
        have hbody : withoutFinalNewline token.toList = '-' :: digits := by
          rw [htext]
          exact withoutFinalNewline_append (getLast?_append_digits ['-'] hsome hdigits)
            htail
        simp only [isNegativeNumber, hbody, List.takeWhile_eq_self_iff.mpr hdigits]
        simpa using hsome
    | fraction whole digits tail hwhole hsome hdigits htail =>
        have hbody : withoutFinalNewline token.toList = '-' :: (whole ++ '.' :: digits) := by
          have hlast := getLast?_append_digits ('-' :: whole ++ ['.']) hsome hdigits
          rw [htext]
          simpa using withoutFinalNewline_append hlast htail
        simp only [isNegativeNumber, hbody, Text.drop_length_takeWhile,
          Text.dropWhile_append_cons hwhole isDecimalDigit_point]
        rw [Bool.and_eq_true, Bool.not_eq_true', List.isEmpty_eq_false_iff, List.all_eq_true]
        exact ⟨hsome, hdigits⟩

/-! ## Values -/

def IsKnown (token : String) : Prop := token ∈ flagOptions ∨ token ∈ settingOptions

/-- A token that starts with a dash, but is taken for a value. -/
structure IsDashedValue (token : String) : Prop where
  dashed : token.toList.head? = some '-'
  not_separator : token ≠ "--"
  not_option : ¬ IsKnown token
  not_assignment : ∀ name value, token = name ++ "=" ++ value → '=' ∉ name.toList →
    ¬ IsKnown name
  not_glued : ∀ c rest, token.toList = '-' :: c :: rest → c ≠ '-' →
    ¬ IsKnown (String.ofList ['-', c])
  shape : NegativeNumber token.toList ∨ ' ' ∈ token.toList

/-- A token that a setting before it takes as its value. -/
def IsValueLike (token : String) : Prop :=
  token = "" ∨ token.toList.head? ≠ some '-' ∨ token = "-" ∨ IsDashedValue token

/-! ## The marks of values -/

theorem not_startsWith_dash_iff (token : String) :
    (!startsWith token "-") = true ↔ token.toList.head? ≠ some '-' := by
  have hdash : "-".toList = ['-'] := rfl
  rw [Bool.not_eq_true', Bool.eq_false_iff, Ne, not_iff_not, startsWith, hdash,
    List.isPrefixOf_iff_prefix]
  cases token.toList with
  | nil => simp
  | cons c rest => simp [List.cons_prefix_cons, eq_comm (a := c)]

theorem assignment?_eq_some_iff {token name value : String} :
    assignment? token = some (name, value) ↔
      token = name ++ "=" ++ value ∧ '=' ∉ name.toList := by
  unfold assignment?
  simp only [Text.drop_length_takeWhile]
  constructor
  · intro h
    split at h
    · contradiction
    · next c rest hrest =>
        obtain ⟨hsplit, hc⟩ := Text.eq_of_dropWhile_eq_cons hrest
        rw [Option.some.injEq, Prod.mk.injEq] at h
        obtain ⟨rfl, rfl⟩ := h
        refine ⟨?_, ?_⟩
        · rw [decide_eq_false_iff_not, not_not] at hc
          rw [hc] at hsplit
          rw [← String.toList_inj]
          simpa using hsplit
        · intro hmem
          rw [String.toList_ofList] at hmem
          simpa using Text.of_mem_takeWhile hmem
  · rintro ⟨rfl, hname⟩
    have hfront : ∀ c ∈ name.toList, decide (c ≠ '=') = true := by
      intro c hc
      rw [decide_eq_true_eq]
      rintro rfl
      exact hname hc
    have htext : (name ++ "=" ++ value).toList = name.toList ++ '=' :: value.toList := by
      simp
    rw [htext, Text.takeWhile_append_cons hfront (by simp),
      Text.dropWhile_append_cons hfront (by simp)]
    simp

theorem contains_options_iff (token : String) :
    vocabulary.options.contains token = true ↔ IsKnown token := by
  rw [List.contains_iff_mem]
  exact List.mem_append

/-- Every known spelling is a dash and one character, or starts with two dashes. -/
theorem spelling_shape : ∀ name ∈ vocabulary.options,
    name.toList.length = 2 ∨ ['-', '-'] <+: name.toList := by
  decide

theorem eq_of_startsWith_spelling {name token : String} {c : Char} {rest : List Char}
    (hname : IsKnown name) (htoken : token.toList = '-' :: c :: rest) (hc : c ≠ '-')
    (h : startsWith name token = true) : name = token := by
  rw [startsWith, List.isPrefixOf_iff_prefix] at h
  rcases spelling_shape name (List.mem_append.mpr hname) with hlength | hdashes
  · have hle : name.toList.length ≤ token.toList.length := by
      rw [hlength, htoken]
      simp
    exact (String.toList_inj.mp (h.eq_of_length_le hle)).symm
  · -- Two beginnings of one text agree, so the second character would be a dash.
    rw [htoken] at h
    obtain ⟨left, hleft⟩ := h
    obtain ⟨right, hright⟩ := hdashes
    rw [← hright] at hleft
    simp only [List.cons_append, List.cons.injEq, true_and] at hleft
    exact absurd hleft.1 hc

theorem glued_eq_nil_iff {token : String} {c : Char} {rest : List Char}
    (htoken : token.toList = '-' :: c :: rest) (hc : c ≠ '-') (hunknown : ¬ IsKnown token) :
    glued vocabulary token = [] ↔ ¬ IsKnown (String.ofList ['-', c]) := by
  have hshort : token.toList.take 2 = ['-', c] := by simp [htoken]
  rw [glued, List.filterMap_eq_nil_iff, hshort]
  constructor
  · intro h hknown
    have hnone := h _ (List.mem_append.mpr hknown)
    rw [if_pos rfl] at hnone
    contradiction
  · intro h name hname
    have hother : name ≠ String.ofList ['-', c] := by
      rintro rfl
      exact h (List.mem_append.mp hname)
    have hstart : ¬ startsWith name token = true := by
      intro hstart
      have heq := eq_of_startsWith_spelling (List.mem_append.mp hname) htoken hc hstart
      exact hunknown (heq ▸ List.mem_append.mp hname)
    rw [if_neg hother, if_neg hstart]

/-- What can be read from a token that spells out no option. -/
theorem candidates_eq_nil_iff {token : String} (hdash : token.toList.head? = some '-')
    (hunknown : ¬ IsKnown token) (hsome : token ≠ "-") :
    candidates vocabulary token = [] ↔
      ∀ c rest, token.toList = '-' :: c :: rest → c ≠ '-' → ¬ IsKnown (String.ofList ['-', c]) := by
  have hlong : "--".toList = ['-', '-'] := rfl
  obtain ⟨others, hothers⟩ := List.head?_eq_some_iff.mp hdash
  cases others with
  | nil =>
      exact absurd (String.toList_inj.mp hothers) hsome
  | cons c rest =>
      rw [candidates, startsWith, hlong, hothers]
      by_cases hc : c = '-'
      · subst hc
        simp [abbreviated, vocabulary]
      · have hshort : ¬ ['-', '-'].isPrefixOf ('-' :: c :: rest) = true := by
          simp [Ne.symm hc]
        rw [if_neg hshort, glued_eq_nil_iff hothers hc hunknown]
        constructor
        · intro h d more heq _
          rw [List.cons.injEq, List.cons.injEq] at heq
          rw [← heq.2.1]
          exact h
        · intro h
          exact h c rest rfl hc

theorem isDashOperand_iff (token : String) :
    isDashOperand token = true ↔ NegativeNumber token.toList ∨ ' ' ∈ token.toList := by
  rw [isDashOperand, Bool.or_eq_true, isNegativeNumber_iff]
  simp

theorem known_assignment_eq_none_iff (token : String) :
    ((assignment? token).filter fun (name, _) => vocabulary.options.contains name) = none ↔
      ∀ name value, token = name ++ "=" ++ value → '=' ∉ name.toList → ¬ IsKnown name := by
  rw [Option.filter_eq_none_iff]
  constructor
  · intro h name value heq hname hknown
    refine h (name, value) (assignment?_eq_some_iff.mpr ⟨heq, hname⟩) ?_
    exact (contains_options_iff name).mpr hknown
  · rintro h ⟨name, value⟩ hsome hknown
    obtain ⟨heq, hname⟩ := assignment?_eq_some_iff.mp hsome
    exact h name value heq hname ((contains_options_iff name).mp hknown)

theorem classify_of_plain {token : String} (h : token.toList.head? ≠ some '-') :
    classify vocabulary token = .operand := by
  rw [classify, if_pos ((not_startsWith_dash_iff token).mpr h)]

theorem classify_of_known {token : String} (hdash : token.toList.head? = some '-')
    (h : IsKnown token) : classify vocabulary token = .option token none := by
  rw [classify, if_neg (fun hplain => (not_startsWith_dash_iff token).mp hplain hdash),
    if_pos ((contains_options_iff token).mpr h)]

/-- A token that starts with a dash and is no option is an operand for its shape alone,
unless an option can be read from it. -/
theorem classify_eq_operand_of_unknown {token : String} (hdash : token.toList.head? = some '-')
    (hunknown : ¬ IsKnown token) (hlonger : token ≠ "-") :
    classify vocabulary token = .operand ↔ IsDashedValue token := by
  rw [classify, if_neg (fun hplain => (not_startsWith_dash_iff token).mp hplain hdash),
    if_neg (fun hmem => hunknown ((contains_options_iff token).mp hmem)), if_neg hlonger]
  constructor
  · intro h
    split at h
    · contradiction
    · next hassignment =>
        split at h
        · contradiction
        · next hnone =>
            split at h
            · next hshape =>
                refine ⟨hdash, ?_, hunknown, (known_assignment_eq_none_iff token).mp hassignment,
                  (candidates_eq_nil_iff hdash hunknown hlonger).mp hnone,
                  (isDashOperand_iff token).mp hshape⟩
                rintro rfl
                have hseparator : isDashOperand "--" = false := by cbv
                rw [hseparator] at hshape
                contradiction
            · contradiction
        · contradiction
  · intro hvalue
    rw [(known_assignment_eq_none_iff token).mpr hvalue.not_assignment]
    simp only [(candidates_eq_nil_iff hdash hunknown hlonger).mpr hvalue.not_glued,
      (isDashOperand_iff token).mpr hvalue.shape, if_true]

/-- A token is marked as an operand exactly when it can be a value. -/
theorem classify_eq_operand_iff (token : String) :
    classify vocabulary token = .operand ↔ IsValueLike token := by
  by_cases hdash : token.toList.head? = some '-'
  · have hsome : token ≠ "" := by
      rintro rfl
      simp at hdash
    by_cases hsingle : token = "-"
    · have hoperand : classify vocabulary "-" = .operand := by decide
      simp [hsingle, hoperand, IsValueLike]
    · by_cases hknown : IsKnown token
      · rw [classify_of_known hdash hknown]
        simp only [reduceCtorEq, IsValueLike, hsome, hdash, hsingle, ne_eq, not_true_eq_false,
          false_or, false_iff]
        exact fun hvalue => hvalue.not_option hknown
      · rw [classify_eq_operand_of_unknown hdash hknown hsingle]
        simp [IsValueLike, hsome, hdash, hsingle]
  · rw [classify_of_plain hdash]
    simp [IsValueLike, hdash]

theorem not_isValueLike_separator : ¬ IsValueLike "--" := by
  have hstranger : classify vocabulary "--" = .stranger := by cbv
  rw [← classify_eq_operand_iff, hstranger]
  decide

instance (token : String) : Decidable (IsValueLike token) :=
  decidable_of_iff _ (classify_eq_operand_iff token)

end DependencyAudit.CommandLine
