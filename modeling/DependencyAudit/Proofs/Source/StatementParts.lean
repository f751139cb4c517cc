import DependencyAudit.Proofs.Source.Occurrences
import Mathlib.Tactic.Common

/-!
# The parts of a statement

A statement has two quote marks.  What leads to the first one is a word, blanks and
perhaps a parenthesis; between the two stands the body, for which any other body may be
put; behind the second there is nothing or a parenthesis.  So a text without quote marks
holds no statement, and two marks side by side end none that begins before them.
-/

namespace DependencyAudit.Source

open DependencyAudit.Text

/-- The parts of a statement around its quote marks.  What stands before the first one
tells whether a parenthesis stands after the second. -/
structure Statement.Parts (spelling body : List Char) where
  front : List Char
  before : Char
  opening : Char
  closing : Char
  last : List Char
  spelling_eq : spelling = front ++ before :: (opening :: (body ++ closing :: last))
  lead_known : ∀ c ∈ front ++ [before], isBlank c = true ∨ c ∈ "importfromrequire(".toList
  opening_quote : isQuote opening = true
  isBody : IsBody body
  closing_quote : isQuote closing = true
  last_eq : last = [] ∧ isBlank before = true ∨ last = [')'] ∧ before = '('
  exchange : ∀ other, IsBody other →
    Statement (front ++ before :: (opening :: (other ++ closing :: last))) other

theorem isQuote_of_isBlank {c : Char} (h : isBlank c = true) : isQuote c = false := by
  cases hc : isQuote c with
  | false => rfl
  | true =>
      rw [isBlank_of_isQuote hc] at h
      contradiction

theorem Statement.exists_parts {spelling body : List Char} (h : Statement spelling body) :
    Nonempty (Statement.Parts spelling body) := by
  cases h with
  | named word blanks body opening closing hword hsome hblanks hopening hbody hclosing =>
      have hlast : blanks = blanks.dropLast ++ [blanks.getLast hsome] :=
        (List.dropLast_concat_getLast hsome).symm
      have hspelling : ∀ other : List Char, word ++ blanks ++ opening :: other ++ [closing] =
          (word ++ blanks.dropLast) ++
            blanks.getLast hsome :: (opening :: (other ++ closing :: [])) := by
        intro other
        conv_lhs => rw [hlast]
        simp
      refine ⟨⟨word ++ blanks.dropLast, blanks.getLast hsome, opening, closing, [],
        hspelling body, ?_, hopening, hbody, hclosing,
        Or.inl ⟨rfl, hblanks _ (List.getLast_mem hsome)⟩, ?_⟩⟩
      · intro c hc
        rw [List.append_assoc, ← hlast, List.mem_append] at hc
        rcases hc with hc | hc
        · refine Or.inr ?_
          rcases hword with rfl | rfl <;> revert c <;> simp
        · exact Or.inl (hblanks c hc)
      · intro other hother
        rw [← hspelling]
        exact .named word blanks other opening closing hword hsome hblanks hopening hother hclosing
  | required blanks body opening closing hblanks hopening hbody hclosing =>
      have hspelling : ∀ other : List Char,
          "require".toList ++ blanks ++ '(' :: opening :: other ++ [closing, ')'] =
            ("require".toList ++ blanks) ++ '(' :: (opening :: (other ++ closing :: [')'])) := by
        intro other
        simp
      refine ⟨⟨"require".toList ++ blanks, '(', opening, closing, [')'], hspelling body, ?_,
        hopening, hbody, hclosing, Or.inr ⟨rfl, rfl⟩, ?_⟩⟩
      · intro c hc
        rw [List.mem_append, List.mem_append, List.mem_singleton] at hc
        rcases hc with (hc | hc) | rfl
        · refine Or.inr ?_
          revert c
          simp
        · exact Or.inl (hblanks c hc)
        · exact Or.inr (by decide)
      · intro other hother
        rw [← hspelling]
        exact .required blanks other opening closing hblanks hopening hother hclosing

namespace Statement.Parts

variable {spelling body : List Char} (parts : Statement.Parts spelling body)

theorem lead_unquoted : ∀ c ∈ parts.front ++ [parts.before], isQuote c = false := by
  intro c hc
  have hwords : ∀ letter ∈ "importfromrequire(".toList, isQuote letter = false := by
    simp [isQuote]
  rcases parts.lead_known c hc with hblank | hletter
  · exact isQuote_of_isBlank hblank
  · exact hwords c hletter

theorem last_subset : ∀ c ∈ parts.last, c = ')' := by
  rcases parts.last_eq with ⟨hlast, -⟩ | ⟨hlast, -⟩ <;> simp [hlast]

/-- The statement cut at its first quote mark. -/
theorem spelling_eq_lead :
    spelling = (parts.front ++ [parts.before]) ++
      parts.opening :: (body ++ parts.closing :: parts.last) := by
  rw [List.append_assoc, List.singleton_append]
  exact parts.spelling_eq

theorem append_eq_lead (after : List Char) :
    spelling ++ after = (parts.front ++ [parts.before]) ++
      parts.opening :: (body ++ parts.closing :: (parts.last ++ after)) := by
  conv_lhs => rw [parts.spelling_eq_lead]
  simp

end Statement.Parts

/-! ## Quote marks -/

theorem countP_isQuote_of_unquoted {text : List Char} (h : ∀ c ∈ text, isQuote c = false) :
    text.countP isQuote = 0 := by
  rw [List.countP_eq_zero]
  intro c hc
  simp [h c hc]

theorem unquoted_of_countP_isQuote {text : List Char} (h : text.countP isQuote = 0) :
    ∀ c ∈ text, isQuote c = false := by
  intro c hc
  simpa using List.countP_eq_zero.mp h c hc

theorem Statement.countP_isQuote {spelling body : List Char} (h : Statement spelling body) :
    spelling.countP isQuote = 2 := by
  obtain ⟨parts⟩ := h.exists_parts
  have hlast : parts.last.countP isQuote = 0 := by
    rcases parts.last_eq with ⟨hlast, -⟩ | ⟨hlast, -⟩ <;> rw [hlast] <;> decide
  rw [parts.spelling_eq_lead, List.countP_append, countP_isQuote_of_unquoted parts.lead_unquoted,
    List.countP_cons_of_pos parts.opening_quote, List.countP_append,
    countP_isQuote_of_unquoted parts.isBody.unquoted,
    List.countP_cons_of_pos parts.closing_quote, hlast]

/-- The last character of a statement is a quote mark or a parenthesis. -/
theorem Statement.getLast?_eq {spelling body : List Char} (h : Statement spelling body) :
    ∃ c, spelling.getLast? = some c ∧ (isQuote c = true ∨ c = ')') := by
  obtain ⟨parts⟩ := h.exists_parts
  rw [parts.spelling_eq]
  rcases parts.last_eq with ⟨hlast, -⟩ | ⟨hlast, -⟩
  · exact ⟨parts.closing, by simp [hlast, List.getLast?_cons, List.getLast?_append],
      Or.inl parts.closing_quote⟩
  · exact ⟨')', by simp [hlast, List.getLast?_cons, List.getLast?_append], Or.inr rfl⟩

/-- A text cut at a character that is not in its front goes on behind that front. -/
theorem exists_of_append_eq_append_cons {α : Type} {left right front back : List α} {c : α}
    (h : left ++ right = front ++ c :: back) (hc : c ∉ left) :
    ∃ gap, front = left ++ gap ∧ right = gap ++ c :: back := by
  rcases List.append_eq_append_iff.mp h with hgap | ⟨gap, hleft, hback⟩
  · exact hgap
  · cases gap with
    | nil => exact ⟨[], by simpa using hleft.symm, hback.symm⟩
    | cons d gap =>
        obtain rfl := (List.cons.inj hback).1
        exact absurd (by simp [hleft]) hc

theorem ne_of_isQuote {mark c : Char} (hmark : isQuote mark = true) (hc : isQuote c = false) :
    mark ≠ c := by
  rintro rfl
  rw [hmark] at hc
  contradiction

/-- Texts cut at their first quote mark have the same parts. -/
theorem split_at_quote {left right left' right' : List Char} {c d : Char}
    (h : left ++ c :: right = left' ++ d :: right') (hleft : ∀ x ∈ left, isQuote x = false)
    (hleft' : ∀ x ∈ left', isQuote x = false) (hc : isQuote c = true) (hd : isQuote d = true) :
    left = left' ∧ right = right' := by
  have hplain : ∀ x ∈ left, (!isQuote x) = true := by
    intro x hx
    simp [hleft x hx]
  have hplain' : ∀ x ∈ left', (!isQuote x) = true := by
    intro x hx
    simp [hleft' x hx]
  have htake := congrArg (List.takeWhile fun x => !isQuote x) h
  have hdrop := congrArg (List.dropWhile fun x => !isQuote x) h
  rw [takeWhile_append_cons hplain (by simp [hc]), takeWhile_append_cons hplain' (by simp [hd])]
    at htake
  rw [dropWhile_append_cons hplain (by simp [hc]), dropWhile_append_cons hplain' (by simp [hd])]
    at hdrop
  exact ⟨htake, (List.cons.inj hdrop).2⟩

/-! ## Texts without statements -/

/-- Every statement starts with one of three letters. -/
theorem statement?_eq_none {c : Char} (h : c ∉ ['i', 'f', 'r']) (rest : List Char) :
    statement? (c :: rest) = none := by
  simp only [List.mem_cons, List.not_mem_nil, or_false, not_or] at h
  simp [statement?, namedStatement?, requiredStatement?, afterWord?, List.isPrefixOf,
    Ne.symm h.1, Ne.symm h.2.1, Ne.symm h.2.2]

theorem occurrences_append_of_plain {front : List Char}
    (h : 'i' ∉ front ∧ 'f' ∉ front ∧ 'r' ∉ front) (position : Nat) (rest : List Char) :
    occurrences position (front ++ rest) = occurrences (position + front.length) rest := by
  induction front generalizing position with
  | nil => rfl
  | cons c front ih =>
      simp only [List.mem_cons, not_or] at h
      obtain ⟨hi, hf, hr⟩ := h
      have hc : c ∉ ['i', 'f', 'r'] := by
        simp [Ne.symm hi.1, Ne.symm hf.1, Ne.symm hr.1]
      rw [List.cons_append, occurrences_cons_of_none (statement?_eq_none hc _),
        ih ⟨hi.2, hf.2, hr.2⟩, List.length_cons, Nat.add_comm front.length, ← Nat.add_assoc]

theorem bodies_append_of_plain {front : List Char}
    (h : 'i' ∉ front ∧ 'f' ∉ front ∧ 'r' ∉ front) (rest : List Char) :
    bodies (front ++ rest) = bodies rest := by
  rw [← map_body_occurrences 0, occurrences_append_of_plain h, map_body_occurrences]

theorem bodies_of_unquoted {text : List Char} (h : ∀ c ∈ text, isQuote c = false) :
    bodies text = [] := by
  induction text using scan_induction with
  | nil => exact bodies_nil
  | none c rest hnone ih =>
      rw [bodies_cons_of_none hnone, ih fun d hd => h d (List.mem_cons_of_mem c hd)]
  | found spelling body after hspelling hstatement ih =>
      have hplain := countP_isQuote_of_unquoted h
      rw [List.countP_append, hspelling.countP_isQuote] at hplain
      omega

/-- Two quote marks side by side have no body between them. -/
theorem statement?_emptyQuotation {front : List Char} {opening closing : Char}
    (hfront : ∀ c ∈ front, isQuote c = false) (hopening : isQuote opening = true)
    (hclosing : isQuote closing = true) (rest : List Char) :
    statement? (front ++ opening :: closing :: rest) = none := by
  rw [Option.eq_none_iff_forall_ne_some]
  intro found hfound
  obtain ⟨spelling, hstatement, htext⟩ := statement?_eq_some_iff.mp hfound
  obtain ⟨parts⟩ := hstatement.exists_parts
  obtain ⟨-, hbehind⟩ := split_at_quote (htext.trans (parts.append_eq_lead found.2)) hfront
    parts.lead_unquoted hopening parts.opening_quote
  have hmarks : [] ++ closing :: rest = found.1 ++ parts.closing :: (parts.last ++ found.2) :=
    hbehind
  obtain ⟨hempty, -⟩ :=
    split_at_quote hmarks (by simp) parts.isBody.unquoted hclosing parts.closing_quote
  exact parts.isBody.ne_nil hempty.symm

theorem occurrences_emptyQuotation {front : List Char} {opening closing : Char}
    (hfront : ∀ c ∈ front, isQuote c = false) (hopening : isQuote opening = true)
    (hclosing : isQuote closing = true) (position : Nat) (rest : List Char) :
    occurrences position (front ++ opening :: closing :: rest) =
      occurrences (position + front.length + 2) rest := by
  have hnone := statement?_emptyQuotation hfront hopening hclosing rest
  induction front generalizing position with
  | nil =>
      have hstart : closing ∉ ['i', 'f', 'r'] := by
        intro hmem
        have hplain : ∀ c ∈ ['i', 'f', 'r'], isQuote c = false := by simp [isQuote]
        rw [hplain closing hmem] at hclosing
        contradiction
      rw [List.nil_append] at hnone ⊢
      rw [occurrences_cons_of_none hnone, occurrences_cons_of_none (statement?_eq_none hstart rest)]
      rfl
  | cons c front ih =>
      have hrest : ∀ d ∈ front, isQuote d = false :=
        fun d hd => hfront d (List.mem_cons_of_mem c hd)
      rw [List.cons_append] at hnone ⊢
      rw [occurrences_cons_of_none hnone,
        ih hrest (position + 1) (statement?_emptyQuotation hrest hopening hclosing rest),
        List.length_cons]
      congr 1
      omega

theorem bodies_emptyQuotation {front : List Char} {opening closing : Char}
    (hfront : ∀ c ∈ front, isQuote c = false) (hopening : isQuote opening = true)
    (hclosing : isQuote closing = true) (rest : List Char) :
    bodies (front ++ opening :: closing :: rest) = bodies rest := by
  rw [← map_body_occurrences 0, occurrences_emptyQuotation hfront hopening hclosing,
    map_body_occurrences]

end DependencyAudit.Source
