import DependencyAudit.Proofs.Source.LongerTexts

/-!
# Scanning one text after another

A scan that has come to the end of a text goes on in the next one as if it began there,
unless a statement is open at the seam.  Behind the last statement that is reported, only a
quote mark can keep one open across a separator: the words and blanks that lead to a quote
mark have no separator among them.  So what stands before a statement matters to it only by
an open quotation.
-/

namespace DependencyAudit.Source

open DependencyAudit.Text

/-- Where the last statement that a scan reports stops, when the text starts at a position;
that position when none is reported. -/
def lastStop (position : Nat) (text : List Char) : Nat :=
  ((occurrences position text).getLast?.map Occurrence.stop).getD position

/-- The text behind the last statement that a scan reports. -/
def remainder (position : Nat) (text : List Char) : List Char :=
  text.drop (lastStop position text - position)

/-! ## The remainder along a scan -/

theorem position_le_lastStop (position : Nat) (text : List Char) :
    position ≤ lastStop position text := by
  cases hlast : (occurrences position text).getLast? with
  | none => simp [lastStop, hlast]
  | some last =>
      have hstands := standsIn_of_mem_occurrences (List.mem_of_getLast? hlast)
      have hstart := hstands.position_le
      obtain ⟨before, spelling, after, htext, hbefore, hstop, hstatement⟩ := hstands
      simp only [lastStop, hlast, Option.map_some, Option.getD_some]
      omega

theorem remainder_of_none_reported {position : Nat} {text : List Char}
    (h : occurrences position text = []) : remainder position text = text := by
  simp [remainder, lastStop, h]

theorem remainder_of_statement? {position : Nat} {spelling body after : List Char}
    (h : statement? (spelling ++ after) = some (body, after)) :
    remainder position (spelling ++ after) = remainder (position + spelling.length) after := by
  have hstop : lastStop position (spelling ++ after) =
      lastStop (position + spelling.length) after := by
    rw [lastStop, lastStop, occurrences_append_of_statement? h, List.getLast?_cons]
    cases (occurrences (position + spelling.length) after).getLast? <;> rfl
  have hle := position_le_lastStop (position + spelling.length) after
  have hdrop : lastStop (position + spelling.length) after - position =
      spelling.length + (lastStop (position + spelling.length) after -
        (position + spelling.length)) := by
    omega
  rw [remainder, remainder, hstop, hdrop, List.drop_length_add_append]

theorem remainder_suffix_of_none {position : Nat} {c : Char} {rest : List Char}
    (h : statement? (c :: rest) = none) :
    remainder (position + 1) rest <:+ remainder position (c :: rest) := by
  by_cases hnone : occurrences (position + 1) rest = []
  · rw [remainder_of_none_reported hnone,
      remainder_of_none_reported ((occurrences_cons_of_none h).trans hnone)]
    exact List.suffix_cons c rest
  · have hstop : lastStop position (c :: rest) = lastStop (position + 1) rest := by
      rw [lastStop, lastStop, occurrences_cons_of_none h]
      obtain ⟨first, others, hreported⟩ := List.exists_cons_of_ne_nil hnone
      simp [hreported, List.getLast?_cons]
    have hle := position_le_lastStop (position + 1) rest
    have hdrop : lastStop (position + 1) rest - position =
        lastStop (position + 1) rest - (position + 1) + 1 := by
      omega
    have hsame : remainder position (c :: rest) = remainder (position + 1) rest := by
      rw [remainder, remainder, hstop, hdrop, List.drop_succ_cons]
    exact hsame ▸ List.suffix_rfl

/-! ## The seam -/

/-- A character that can stand neither in a word of a statement nor in its blanks. -/
structure IsSeparator (c : Char) : Prop where
  unquoted : isQuote c = false
  not_blank : isBlank c = false
  not_word : c ∉ "importfromrequire(".toList

/-- A statement has its first quote mark before any separator. -/
theorem Statement.not_append_separator {spelling body front more : List Char} {separator : Char}
    (h : Statement spelling body) (hseparator : IsSeparator separator)
    (hfront : ∀ c ∈ front, isQuote c = false) : spelling ≠ front ++ separator :: more := by
  intro hspelling
  obtain ⟨parts⟩ := h.exists_parts
  have hplain : ∀ c ∈ front ++ [separator], isQuote c = false := by
    rw [List.forall_mem_append, List.forall_mem_singleton]
    exact ⟨hfront, hseparator.unquoted⟩
  have hopening : parts.opening ∉ front ++ [separator] := fun hmem =>
    ne_of_isQuote parts.opening_quote (hplain _ hmem) rfl
  have hlead : (front ++ [separator]) ++ more = (parts.front ++ [parts.before]) ++
      parts.opening :: (body ++ parts.closing :: parts.last) := by
    rw [← parts.spelling_eq_lead, hspelling, List.append_assoc, List.singleton_append]
  obtain ⟨gap, hgap, -⟩ := exists_of_append_eq_append_cons hlead hopening
  rcases parts.lead_known separator (by simp [hgap]) with hblank | hword
  · rw [hseparator.not_blank] at hblank
    contradiction
  · exact hseparator.not_word hword

/-- No statement that a scan meets after the last one it reports goes on behind a separator. -/
theorem statement?_append_separator {position : Nat} {text : List Char} {separator : Char}
    (hseparator : IsSeparator separator) (hnone : statement? text = none)
    (h : ∀ c ∈ remainder position text, isQuote c = false) (more : List Char) :
    statement? (text ++ separator :: more) = none := by
  rw [Option.eq_none_iff_forall_ne_some]
  rintro ⟨body, after⟩ hfound
  obtain ⟨spelling, hstatement, htext⟩ := statement?_eq_some_iff.mp hfound
  obtain ⟨cut, rfl, hcut⟩ := exists_rest_of_statement?_append hnone hstatement htext
  -- The statement holds no other one, so nothing of the text is reported.
  rw [remainder_of_none_reported (occurrences_eq_nil_of_append hstatement rfl hcut position)] at h
  obtain ⟨c, cut, rfl⟩ := List.exists_cons_of_ne_nil hcut
  rw [List.append_assoc, List.append_cancel_left_eq, List.cons_append, List.cons.injEq] at htext
  exact hstatement.not_append_separator hseparator h (by rw [← htext.1])

/-- A scan of two texts with a separator between them finds what the scans of both find, when
no quote mark stands behind the last statement of the first. -/
theorem bodies_append_separator {position : Nat} {text : List Char} {separator : Char}
    (hseparator : IsSeparator separator)
    (h : ∀ c ∈ remainder position text, isQuote c = false) (more : List Char) :
    bodies (text ++ separator :: more) = bodies text ++ bodies more := by
  induction text using scan_induction generalizing position with
  | nil =>
      have hstart : separator ∉ ['i', 'f', 'r'] := by
        intro hmem
        apply hseparator.not_word
        revert hmem
        simp only [List.mem_cons, List.not_mem_nil, or_false]
        rintro (rfl | rfl | rfl) <;> decide
      rw [List.nil_append, bodies_cons_of_none (statement?_eq_none hstart more), bodies_nil,
        List.nil_append]
  | none c rest hnone ih =>
      have hlonger := statement?_append_separator hseparator hnone h more
      have hrest : ∀ d ∈ remainder (position + 1) rest, isQuote d = false :=
        fun d hd => h d ((remainder_suffix_of_none hnone).subset hd)
      rw [List.cons_append] at hlonger ⊢
      rw [bodies_cons_of_none hlonger, bodies_cons_of_none hnone, ih hrest]
  | found spelling body after hspelling hstatement ih =>
      rw [remainder_of_statement? hstatement] at h
      have hlonger := statement?_append hstatement (separator :: more)
      rw [List.append_assoc] at hlonger ⊢
      rw [bodies_of_statement? hlonger, bodies_of_statement? hstatement, ih h, List.cons_append]

theorem isSeparator_semicolon : IsSeparator ';' := by
  refine ⟨?_, ?_, ?_⟩ <;> decide

/-- What two texts import with a semicolon between them is what the first and then the second
imports, when the first leaves no quotation open: no quote mark stands behind its last
reported statement, or in all of it when it has none. -/
theorem specifiers_append_semicolon {first second : String}
    (h : ∀ c ∈ remainder 0 first.toList, isQuote c = false) :
    specifiers (first ++ ";" ++ second) = specifiers first ++ specifiers second := by
  have hsemicolon : ";".toList = [';'] := rfl
  rw [specifiers, specifiers, specifiers, String.toList_append, String.toList_append, hsemicolon,
    List.append_assoc, List.singleton_append, bodies_append_separator isSeparator_semicolon h,
    List.map_append]

/-- The first text ends within a statement that has no quote mark yet. -/
theorem specifiers_of_unfinished :
    (∀ c ∈ remainder 0 "import 'a' from".toList, isQuote c = false) ∧
      specifiers ("import 'a' from" ++ ";" ++ " 'b' require('c')") =
        specifiers "import 'a' from" ++ specifiers " 'b' require('c')" := by
  have hnone : (remainder 0 "import 'a' from".toList).any isQuote = false := by
    decide +kernel
  have hremainder : ∀ c ∈ remainder 0 "import 'a' from".toList, isQuote c = false := by
    simpa using hnone
  exact ⟨hremainder, specifiers_append_semicolon hremainder⟩

end DependencyAudit.Source
