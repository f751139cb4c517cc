import DependencyAudit.Proofs.Files.Walk
import DependencyAudit.Proofs.Source.LongerTexts
import DependencyAudit.Proofs.Text.StrayBytes

/-!
# Stray bytes in a source

Bytes that are no UTF-8 show as replacement marks.  Such marks belong to no word and to no
blanks, so within a statement they can only stand in its body.  A statement that marks
complete therefore has a body of marks alone: without them its quote marks stand side by
side, and behind these the scan goes on in the same way.  Hence marks that stand in no
statement of a text take nothing from what it imports, and add at most one body.
-/

namespace DependencyAudit.Source

open DependencyAudit.Text

/-- The new list is the old one with at most one more element, which is of a given kind. -/
def AddsAtMostOne {α : Type} (isExtra : α → Prop) (old new : List α) : Prop :=
  new = old ∨ ∃ before extra after,
    old = before ++ after ∧ new = before ++ extra :: after ∧ isExtra extra

theorem AddsAtMostOne.cons {α : Type} {isExtra : α → Prop} {old new : List α}
    (h : AddsAtMostOne isExtra old new) (first : α) :
    AddsAtMostOne isExtra (first :: old) (first :: new) := by
  rcases h with rfl | ⟨before, extra, after, rfl, rfl, hextra⟩
  · exact Or.inl rfl
  · exact Or.inr ⟨first :: before, extra, after, rfl, rfl, hextra⟩

theorem AddsAtMostOne.map {α β : Type} {isExtra : α → Prop} {isOther : β → Prop} {old new : List α}
    (h : AddsAtMostOne isExtra old new) (f : α → β) (hf : ∀ a, isExtra a → isOther (f a)) :
    AddsAtMostOne isOther (old.map f) (new.map f) := by
  rcases h with rfl | ⟨before, extra, after, rfl, rfl, hextra⟩
  · exact Or.inl rfl
  · exact Or.inr ⟨before.map f, f extra, after.map f, List.map_append, by simp, hf extra hextra⟩

/-! ## Marks within a statement -/

section

variable {marks : List Char} (hmarks : ∀ c ∈ marks, c = Utf8.replacement)
include hmarks

theorem not_mem_marks {c : Char} (hc : c ≠ Utf8.replacement) : c ∉ marks :=
  fun hmem => hc (hmarks c hmem)

theorem bodies_marks_append (rest : List Char) : bodies (marks ++ rest) = bodies rest := by
  have hletters : 'i' ∉ marks ∧ 'f' ∉ marks ∧ 'r' ∉ marks :=
    ⟨not_mem_marks hmarks (by decide), not_mem_marks hmarks (by decide),
      not_mem_marks hmarks (by decide)⟩
  exact bodies_append_of_plain hletters rest

/-- Marks end no statement. -/
theorem statement?_append_marks {text : List Char} (h : statement? text = none) :
    statement? (text ++ marks) = none := by
  induction marks generalizing text with
  | nil => rwa [List.append_nil]
  | cons mark marks ih =>
      obtain rfl : mark = Utf8.replacement := hmarks mark (List.mem_cons_self ..)
      have hone : statement? (text ++ [Utf8.replacement]) = none :=
        statement?_concat_eq_none (by decide) (by decide) h
      rw [List.append_cons]
      exact ih (fun c hc => hmarks c (List.mem_cons_of_mem _ hc)) hone

end

namespace Statement.Parts

variable {spelling body : List Char} (parts : Statement.Parts spelling body)

theorem replacement_not_mem_lead :
    Utf8.replacement ∉ parts.front ++ [parts.before, parts.opening] := by
  have hlead : ∀ c ∈ parts.front ++ [parts.before], c ≠ Utf8.replacement := by
    rintro c hc rfl
    rcases parts.lead_known _ hc with hblank | hletter
    · have hnone : isBlank Utf8.replacement = false := by decide
      rw [hnone] at hblank
      contradiction
    · exact absurd hletter (by decide)
  intro hmem
  rw [List.append_cons, List.mem_append, List.mem_singleton] at hmem
  rcases hmem with hmem | hopening
  · exact hlead _ hmem rfl
  · exact ne_of_isQuote parts.opening_quote (by decide) hopening.symm

theorem replacement_not_mem_end : Utf8.replacement ∉ parts.closing :: parts.last := by
  intro hmem
  rcases List.mem_cons.mp hmem with hclosing | hlast
  · exact ne_of_isQuote parts.closing_quote (by decide) hclosing.symm
  · exact absurd (parts.last_subset _ hlast) (by decide)

/-- Marks within a statement stand in its body. -/
theorem exists_of_marks {marks left right : List Char}
    (hmarks : ∀ c ∈ marks, c = Utf8.replacement) (hne : marks ≠ [])
    (hspelling : spelling = left ++ (marks ++ right)) :
    ∃ front back, left = parts.front ++ parts.before :: parts.opening :: front ∧
      body = front ++ (marks ++ back) ∧ right = back ++ parts.closing :: parts.last := by
  obtain ⟨mark, more, rfl⟩ := List.exists_cons_of_ne_nil hne
  have hmark : mark = Utf8.replacement := hmarks mark (List.mem_cons_self ..)
  have hlead : (parts.front ++ [parts.before, parts.opening]) ++
      (body ++ parts.closing :: parts.last) = left ++ mark :: (more ++ right) := by
    calc
      _ = parts.front ++ parts.before :: (parts.opening :: (body ++ parts.closing :: parts.last)) :=
        by simp
      _ = left ++ mark :: (more ++ right) := parts.spelling_eq.symm.trans hspelling
  obtain ⟨front, hleft, hbody⟩ :=
    exists_of_append_eq_append_cons hlead (hmark ▸ parts.replacement_not_mem_lead)
  have hclosing : parts.closing ∉ mark :: more := by
    intro hmem
    exact ne_of_isQuote parts.closing_quote (by decide) (hmarks _ hmem)
  rcases List.append_eq_append_iff.mp hbody with ⟨gap, -, hend⟩ | ⟨gap, hgap, hend⟩
  · -- The marks are not behind the body.
    refine absurd ?_ parts.replacement_not_mem_end
    simp [hend, hmark]
  · obtain ⟨back, hback, hright⟩ := exists_of_append_eq_append_cons hend hclosing
    exact ⟨front, back, by simpa using hleft, by rw [hgap, hback], hright⟩

end Statement.Parts

/-- A statement that marks complete quotes the marks alone, and without them the scan finds
what it finds behind that statement. -/
theorem bodies_of_completed {marks left right body after : List Char}
    (hmarks : ∀ c ∈ marks, c = Utf8.replacement) (hne : marks ≠ [])
    (hnone : statement? (left ++ right) = none)
    (hfound : statement? (left ++ (marks ++ right)) = some (body, after)) :
    body = marks ∧ bodies (left ++ right) = bodies after := by
  obtain ⟨spelling, hstatement, htext⟩ := statement?_eq_some_iff.mp hfound
  have hleft : statement? left = none := by
    rw [Option.eq_none_iff_forall_ne_some]
    intro found hfound
    rw [statement?_append hfound right] at hnone
    contradiction
  have hcut := statement?_append_marks hmarks hleft
  rw [← List.append_assoc] at htext
  obtain ⟨tail, hspelling, -⟩ := exists_rest_of_statement?_append hcut hstatement htext
  rw [hspelling, List.append_assoc _ tail, List.append_cancel_left_eq] at htext
  rw [List.append_assoc] at hspelling
  obtain ⟨parts⟩ := hstatement.exists_parts
  obtain ⟨front, back, rfl, hbody, rfl⟩ := parts.exists_of_marks hmarks hne hspelling
  by_cases hempty : front ++ back = []
  · obtain ⟨rfl, rfl⟩ := List.append_eq_nil_iff.mp hempty
    refine ⟨by simpa using hbody, ?_⟩
    have hlast : 'i' ∉ parts.last ∧ 'f' ∉ parts.last ∧ 'r' ∉ parts.last := by
      refine ⟨?_, ?_, ?_⟩ <;> exact fun hmem => absurd (parts.last_subset _ hmem) (by decide)
    calc
      bodies (parts.front ++ parts.before :: [parts.opening] ++ right) =
          bodies ((parts.front ++ [parts.before]) ++
            parts.opening :: parts.closing :: (parts.last ++ after)) := by
        rw [htext]
        simp
      _ = bodies (parts.last ++ after) :=
        bodies_emptyQuotation parts.lead_unquoted parts.opening_quote parts.closing_quote _
      _ = bodies after := bodies_append_of_plain hlast after
  · -- What is left of the body is a body, so the statement stands there without marks too.
    have hrest : IsBody (front ++ back) := by
      refine ⟨hempty, ?_⟩
      intro c hc
      apply parts.isBody.unquoted
      rw [hbody]
      rcases List.mem_append.mp hc with hc | hc <;> simp [hc]
    have hshorter := parts.exchange _ hrest
    have hread : statement? (parts.front ++ parts.before :: parts.opening :: front ++ right) =
        some (front ++ back, after) := by
      refine statement?_eq_some_iff.mpr ⟨_, hshorter, ?_⟩
      rw [htext]
      simp
    rw [hread] at hnone
    contradiction

/-! ## Marks in a text -/

/-- The place lies strictly inside no statement that the scan reports, when the text starts
at a position. -/
def IsOutside (position place : Nat) (text : List Char) : Prop :=
  ∀ occurrence ∈ occurrences position text,
    ¬ (occurrence.start < place ∧ place < occurrence.stop)

theorem IsOutside.of_none {position place : Nat} {c : Char} {rest : List Char}
    (h : IsOutside position place (c :: rest)) (hnone : statement? (c :: rest) = none) :
    IsOutside (position + 1) place rest := by
  rw [IsOutside, occurrences_cons_of_none hnone] at h
  exact h

theorem IsOutside.of_statement? {position place : Nat} {spelling body after : List Char}
    (h : IsOutside position place (spelling ++ after)) (hplace : position < place)
    (hstatement : statement? (spelling ++ after) = some (body, after)) :
    position + spelling.length ≤ place ∧
      IsOutside (position + spelling.length) place after := by
  rw [IsOutside, occurrences_append_of_statement? hstatement, List.forall_mem_cons] at h
  obtain ⟨hfirst, hlater⟩ := h
  simp only at hfirst
  exact ⟨by omega, hlater⟩

/-- Nothing stands between two quote marks side by side. -/
theorem isOutside_emptyQuotation {front : List Char} {opening closing : Char}
    (hfront : ∀ c ∈ front, isQuote c = false) (hopening : isQuote opening = true)
    (hclosing : isQuote closing = true) (position : Nat) (rest : List Char) :
    IsOutside position (position + (front ++ [opening]).length)
      (front ++ opening :: closing :: rest) := by
  intro occurrence hmem
  rw [occurrences_emptyQuotation hfront hopening hclosing] at hmem
  have hstart := (standsIn_of_mem_occurrences hmem).position_le
  rw [List.length_append, List.length_singleton]
  omega

/-- Marks at a place outside the statements of a text add at most one body, of marks. -/
theorem bodies_of_marks {marks left right : List Char} {position : Nat}
    (hmarks : ∀ c ∈ marks, c = Utf8.replacement) (hne : marks ≠ [])
    (h : IsOutside position (position + left.length) (left ++ right)) :
    AddsAtMostOne (· = marks) (bodies (left ++ right)) (bodies (left ++ (marks ++ right))) := by
  induction hlength : left.length using Nat.strongRecOn generalizing left position with
  | ind length ih =>
      cases left with
      | nil => exact Or.inl (bodies_marks_append hmarks right)
      | cons c rest =>
          cases hstatement : statement? (c :: rest ++ right) with
          | none =>
              have houtside : IsOutside (position + 1) (position + 1 + rest.length)
                  (rest ++ right) := by
                have hrest := h.of_none hstatement
                rwa [List.length_cons, Nat.add_comm rest.length, ← Nat.add_assoc] at hrest
              have hrest := ih rest.length (by simp [← hlength]) houtside rfl
              have hplain : bodies (c :: rest ++ right) = bodies (rest ++ right) :=
                bodies_cons_of_none hstatement
              cases hmarked : statement? (c :: rest ++ (marks ++ right)) with
              | none =>
                  have hskipped : bodies (c :: rest ++ (marks ++ right)) =
                      bodies (rest ++ (marks ++ right)) := bodies_cons_of_none hmarked
                  rw [hplain, hskipped]
                  exact hrest
              | some found =>
                  obtain ⟨body, after⟩ := found
                  obtain ⟨rfl, hbodies⟩ := bodies_of_completed hmarks hne hstatement hmarked
                  rw [bodies_of_statement? hmarked, hbodies]
                  exact Or.inr ⟨[], body, bodies after, rfl, rfl, rfl⟩
          | some found =>
              -- The statement of the text ends before the marks.
              obtain ⟨body, after⟩ := found
              obtain ⟨spelling, hspelling, htext⟩ := statement?_eq_some_iff.mp hstatement
              have hpos := hspelling.length_pos
              rw [htext] at h hstatement
              obtain ⟨hends, houtside⟩ := h.of_statement? (by simp) hstatement
              obtain ⟨more, hmore⟩ : spelling <+: c :: rest := by
                refine List.prefix_of_prefix_length_le ?_ (List.prefix_append _ right) (by omega)
                rw [htext]
                exact List.prefix_append _ after
              rw [← hmore, List.append_assoc, List.append_cancel_left_eq] at htext
              subst htext
              rw [← hmore, List.length_append] at hlength
              rw [← hmore, List.length_append, ← Nat.add_assoc] at houtside
              have hbehind := ih more.length (by omega) houtside rfl
              have hmarked : statement? (spelling ++ (more ++ (marks ++ right))) =
                  some (body, more ++ (marks ++ right)) :=
                statement?_eq_some_iff.mpr ⟨spelling, hspelling, rfl⟩
              rw [← hmore, List.append_assoc, List.append_assoc, bodies_of_statement? hstatement,
                bodies_of_statement? hmarked]
              exact hbehind.cons body

/-! ## Stray bytes in a file -/

def IsReplacement (specifier : String) : Prop :=
  specifier ≠ "" ∧ ∀ c ∈ specifier.toList, c = Utf8.replacement

theorem specifiersOfBytes_of_stray {left right : String} {stray : List UInt8}
    (hreturn : '\r' ∉ (left ++ right).toList)
    (houtside : IsOutside 0 left.length (left ++ right).toList)
    (hstray : ∀ c ∈ Utf8.decodeLenient stray, c = Utf8.replacement) :
    AddsAtMostOne IsReplacement (specifiers (left ++ right))
      (specifiersOfBytes (Utf8.encode left.toList ++ stray ++ Utf8.encode right.toList)) := by
  have hplain : '\r' ∉ left.toList ++ (Utf8.decodeLenient stray ++ right.toList) := by
    rw [String.toList_append, List.mem_append, not_or] at hreturn
    rw [List.mem_append, List.mem_append, not_or, not_or]
    exact ⟨hreturn.1, not_mem_marks hstray (by decide), hreturn.2⟩
  rw [specifiersOfBytes, Utf8.decodeLenient_between, unifyNewlines_of_not_mem hplain, specifiers,
    specifiers, String.toList_ofList, String.toList_append]
  by_cases hne : Utf8.decodeLenient stray = []
  · rw [hne]
    exact Or.inl rfl
  · rw [← String.length_toList, ← Nat.zero_add left.toList.length, String.toList_append] at houtside
    refine (bodies_of_marks hstray hne houtside).map String.ofList ?_
    rintro body rfl
    refine ⟨?_, by simpa using hstray⟩
    intro hempty
    exact hne (by simpa using congrArg String.toList hempty)

/-- Bytes that are no UTF-8, outside the imports of a source, hide none of them: the file
imports the same specifiers in the same order, and at most one more, of replacement marks. -/
theorem imports_of_stray_bytes {tree : Tree} {file : Path} {left right : String}
    {stray : List UInt8} (hreturn : '\r' ∉ (left ++ right).toList)
    (houtside : IsOutside 0 left.length (left ++ right).toList)
    (hstray : ∀ c ∈ Utf8.decodeLenient stray, c = Utf8.replacement)
    (hfile : tree.read file =
      .ok (Utf8.encode left.toList ++ stray ++ Utf8.encode right.toList)) :
    ∃ found, imports tree file = .ok ⟨found, []⟩ ∧
      AddsAtMostOne IsReplacement (specifiers (left ++ right)) found := by
  refine ⟨_, ?_, specifiersOfBytes_of_stray hreturn houtside hstray⟩
  simp only [imports, hfile]

def straySource : Tree :=
  Tree.ofFile "x.js" (by cbv)
    (Utf8.encode "import '".toList ++ [0xE2, 0x82, 0xFF] ++ Utf8.encode "'\nfrom \"a\"".toList)

/-- A truncated character and another stray byte, in the one place where they complete a
statement. -/
theorem imports_of_straySource :
    IsOutside 0 8 ("import '" ++ "'\nfrom \"a\"").toList ∧
      Utf8.decodeLenient [0xE2, 0x82, 0xFF] = [Utf8.replacement, Utf8.replacement] ∧
      ∃ found, imports straySource ⟨.workingDirectory, ["x.js"]⟩ = .ok ⟨found, []⟩ ∧
        AddsAtMostOne IsReplacement (specifiers ("import '" ++ "'\nfrom \"a\"")) found := by
  have houtside : IsOutside 0 8 ("import '" ++ "'\nfrom \"a\"").toList := by
    have hword : ∀ c ∈ "import ".toList, isQuote c = false := by simp [isQuote]
    have hquote : isQuote '\'' = true := by decide
    exact isOutside_emptyQuotation hword hquote hquote 0 "\nfrom \"a\"".toList
  have hstray : Utf8.decodeLenient [0xE2, 0x82, 0xFF] = [Utf8.replacement, Utf8.replacement] := by
    decide
  have hread : straySource.read ⟨.workingDirectory, ["x.js"]⟩ =
      .ok (Utf8.encode "import '".toList ++ [0xE2, 0x82, 0xFF] ++
        Utf8.encode "'\nfrom \"a\"".toList) := Tree.read_ofFile _ _
  have hreturn : '\r' ∉ ("import '" ++ "'\nfrom \"a\"").toList := by decide
  exact ⟨houtside, hstray, imports_of_stray_bytes hreturn houtside (by simp [hstray]) hread⟩

end DependencyAudit.Source
