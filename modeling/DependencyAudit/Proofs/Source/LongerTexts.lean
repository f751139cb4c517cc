import DependencyAudit.Proofs.Source.StatementParts
import DependencyAudit.Proofs.Text.LineEnds
import DependencyAudit.Source.Usage

/-!
# Scanning a longer text

What a scan has found stays when a text goes on.  A statement that the end of a text
cuts off may be completed, and it may begin before others; but a statement has two
quote marks, and one that is cut off leaves no room for both marks of another.  The
same holds of the bytes of a file, although the end of a file may also cut off a
character or a line end.
-/

namespace DependencyAudit.Source

open DependencyAudit.Text

/-! ## A statement that is cut off -/

/-- A statement within another one is the end of it. -/
theorem Statement.eq_nil_of_infix {spelling body inner innerBody pre post : List Char}
    (h : Statement spelling body) (hinner : Statement inner innerBody)
    (heq : spelling = pre ++ (inner ++ post)) : post = [] := by
  have hcount := congrArg (List.countP isQuote) heq
  rw [List.countP_append, List.countP_append, h.countP_isQuote, hinner.countP_isQuote] at hcount
  have hnone : pre.countP isQuote = 0 := by omega
  have hpre := unquoted_of_countP_isQuote hnone
  obtain ⟨outer⟩ := h.exists_parts
  obtain ⟨parts⟩ := hinner.exists_parts
  -- Both marks of the inner statement are those of the outer one.
  have hfront : ∀ x ∈ pre ++ (parts.front ++ [parts.before]), isQuote x = false :=
    List.forall_mem_append.mpr ⟨hpre, parts.lead_unquoted⟩
  have hfirst : (outer.front ++ [outer.before]) ++ outer.opening ::
        (body ++ outer.closing :: (outer.last ++ [])) =
      (pre ++ (parts.front ++ [parts.before])) ++ parts.opening ::
        (innerBody ++ parts.closing :: (parts.last ++ post)) := by
    rw [← outer.append_eq_lead, List.append_assoc pre, ← parts.append_eq_lead, List.append_nil]
    exact heq
  obtain ⟨hbefore, hafter⟩ := split_at_quote hfirst outer.lead_unquoted hfront
    outer.opening_quote parts.opening_quote
  obtain ⟨-, hlast⟩ := split_at_quote hafter outer.isBody.unquoted parts.isBody.unquoted
    outer.closing_quote parts.closing_quote
  rw [List.append_nil] at hlast
  rw [← List.append_assoc] at hbefore
  have hsame : outer.before = parts.before :=
    List.singleton_inj.mp (List.append_inj' hbefore rfl).2
  rcases outer.last_eq with ⟨hnone, -⟩ | ⟨hone, hparenthesis⟩
  · rw [hnone, eq_comm, List.append_eq_nil_iff] at hlast
    exact hlast.2
  · rcases parts.last_eq with ⟨-, hblank⟩ | ⟨hother, -⟩
    · rw [← hsame, hparenthesis] at hblank
      contradiction
    · rw [hone, hother] at hlast
      simpa using hlast

/-- What a cut leaves of a statement holds no statement. -/
theorem occurrences_eq_nil_of_append {spelling body text rest : List Char}
    (h : Statement spelling body) (heq : spelling = text ++ rest) (hrest : rest ≠ [])
    (position : Nat) : occurrences position text = [] := by
  rw [List.eq_nil_iff_forall_not_mem]
  intro occurrence hmem
  obtain ⟨pre, inner, post, htext, -, -, hinner⟩ := standsIn_of_mem_occurrences hmem
  have hsplit : spelling = pre ++ (inner ++ (post ++ rest)) := by
    rw [heq, htext]
    simp
  have hpost := h.eq_nil_of_infix hinner hsplit
  exact hrest (List.append_eq_nil_iff.mp hpost).2

/-! ## Going on -/

theorem statement?_append {text body after : List Char}
    (h : statement? text = some (body, after)) (more : List Char) :
    statement? (text ++ more) = some (body, after ++ more) := by
  obtain ⟨spelling, hstatement, rfl⟩ := statement?_eq_some_iff.mp h
  exact statement?_eq_some_iff.mpr ⟨spelling, hstatement, List.append_assoc ..⟩

/-- A statement that reading finds only when the text goes on is cut off by the end of
the text. -/
theorem exists_rest_of_statement?_append {text more body after spelling : List Char}
    (hnone : statement? text = none) (hstatement : Statement spelling body)
    (htext : text ++ more = spelling ++ after) : ∃ rest, spelling = text ++ rest ∧ rest ≠ [] := by
  rcases List.append_eq_append_iff.mp htext with ⟨rest, hspelling, -⟩ | ⟨rest, htext, -⟩
  · refine ⟨rest, hspelling, ?_⟩
    rintro rfl
    rw [List.append_nil] at hspelling
    have hfound : statement? text = some (body, []) :=
      statement?_eq_some_iff.mpr ⟨spelling, hstatement, by rw [hspelling, List.append_nil]⟩
    rw [hnone] at hfound
    contradiction
  · have hfound : statement? text = some (body, rest) :=
      statement?_eq_some_iff.mpr ⟨spelling, hstatement, htext⟩
    rw [hnone] at hfound
    contradiction

/-- What a scan finds in a text comes first, at the same places, among what it finds when
the text goes on. -/
theorem occurrences_prefix_append (position : Nat) (text more : List Char) :
    occurrences position text <+: occurrences position (text ++ more) := by
  induction text using scan_induction generalizing position with
  | nil =>
      rw [occurrences_nil]
      exact List.nil_prefix
  | none c rest hnone ih =>
      cases hlonger : statement? (c :: rest ++ more) with
      | none =>
          rw [List.cons_append] at hlonger ⊢
          rw [occurrences_cons_of_none hnone, occurrences_cons_of_none hlonger]
          exact ih (position + 1)
      | some found =>
          -- The statement that the longer text completes begins before others, but what
          -- there is of it holds none of them.
          obtain ⟨spelling, hstatement, htext⟩ := statement?_eq_some_iff.mp hlonger
          obtain ⟨cut, hspelling, hcut⟩ :=
            exists_rest_of_statement?_append hnone hstatement htext
          rw [occurrences_eq_nil_of_append hstatement hspelling hcut]
          exact List.nil_prefix
  | found spelling body after hspelling hstatement ih =>
      have hlonger := statement?_append hstatement more
      rw [List.append_assoc] at hlonger ⊢
      rw [occurrences_append_of_statement? hstatement, occurrences_append_of_statement? hlonger,
        List.cons_prefix_cons]
      exact ⟨rfl, ih _⟩

theorem bodies_prefix_append (text more : List Char) : bodies text <+: bodies (text ++ more) := by
  rw [← map_body_occurrences 0, ← map_body_occurrences 0]
  exact (occurrences_prefix_append 0 text more).map Occurrence.body

/-- Every specifier that a text imports it still imports, in the same order and before all
others, whatever is appended to it. -/
theorem specifiers_prefix_append (text more : String) :
    specifiers text <+: specifiers (text ++ more) := by
  rw [specifiers, specifiers, String.toList_append]
  exact (bodies_prefix_append text.toList more.toList).map String.ofList

theorem statement?_concat_eq_none {c : Char} (hquote : isQuote c = false)
    (hparenthesis : c ≠ ')') {text : List Char} (hnone : statement? text = none) :
    statement? (text ++ [c]) = none := by
  rw [Option.eq_none_iff_forall_ne_some]
  intro found hfound
  obtain ⟨spelling, hstatement, htext⟩ := statement?_eq_some_iff.mp hfound
  obtain ⟨cut, hspelling, hcut⟩ := exists_rest_of_statement?_append hnone hstatement htext
  rw [hspelling, List.append_assoc, List.append_cancel_left_eq] at htext
  have hlast : cut = [c] := by
    rcases List.singleton_eq_append_iff.mp htext with ⟨hnil, -⟩ | ⟨hone, -⟩
    · exact absurd hnil hcut
    · exact hone
  obtain ⟨d, hd, hends⟩ := hstatement.getLast?_eq
  rw [hspelling, hlast, List.getLast?_concat, Option.some.injEq] at hd
  subst hd
  rcases hends with hends | hends
  · rw [hquote] at hends
    contradiction
  · exact hparenthesis hends

/-- A character that ends no statement adds nothing. -/
theorem bodies_concat {c : Char} (hquote : isQuote c = false) (hparenthesis : c ≠ ')')
    (text : List Char) : bodies (text ++ [c]) = bodies text := by
  induction text using scan_induction with
  | nil =>
      have hempty : statement? [] = none := rfl
      have hnone : statement? [c] = none := statement?_concat_eq_none hquote hparenthesis hempty
      rw [List.nil_append, bodies_cons_of_none hnone]
  | none d rest hnone ih =>
      have hlonger : statement? (d :: (rest ++ [c])) = none :=
        statement?_concat_eq_none hquote hparenthesis hnone
      rw [List.cons_append, bodies_cons_of_none hnone, bodies_cons_of_none hlonger, ih]
  | found spelling body after hspelling hstatement ih =>
      rw [bodies_of_statement? hstatement, bodies_of_statement? (statement?_append hstatement [c]),
        ih]

end DependencyAudit.Source

/-! ## Bytes -/

namespace DependencyAudit.Utf8

/-- More bytes after a text leave its characters alone, apart from the mark for a
character that the end of the text had cut off. -/
theorem decodeLenient_append (bytes more : List UInt8) :
    ∃ front rest, decodeLenient (bytes ++ more) = front ++ rest ∧
      (decodeLenient bytes = front ∨ decodeLenient bytes = front ++ [replacement]) := by
  have hbytes := pieces_append none bytes []
  rw [List.append_nil] at hbytes
  refine ⟨(advance none bytes).1.map Piece.shown,
    (pieces (advance none bytes).2 more).map Piece.shown, ?_, ?_⟩
  · rw [decodeLenient, pieces_append, List.map_append]
  · rw [decodeLenient, hbytes, List.map_append]
    cases (advance none bytes).2 with
    | none => exact Or.inl (List.append_nil _)
    | some pending => exact Or.inr rfl

end DependencyAudit.Utf8

namespace DependencyAudit.Source

/-- What a source imports it still imports, in the same order, when bytes are added to
its end. -/
theorem specifiersOfBytes_prefix_append (bytes more : List UInt8) :
    specifiersOfBytes bytes <+: specifiersOfBytes (bytes ++ more) := by
  obtain ⟨front, rest, hlonger, hbytes⟩ := Utf8.decodeLenient_append bytes more
  have hfront : bodies (Text.unifyNewlines (Utf8.decodeLenient bytes)) =
      bodies (Text.unifyNewlines front) := by
    rcases hbytes with hbytes | hbytes
    · rw [hbytes]
    · have hmark : Text.unifyNewlines [Utf8.replacement] = [Utf8.replacement] := by decide
      rw [hbytes, Text.unifyNewlines_append (by decide), hmark,
        bodies_concat (by decide) (by decide)]
  obtain ⟨added, hadded⟩ := Text.unifyNewlines_prefix_append front rest
  simp only [specifiersOfBytes, specifiers, String.toList_ofList, hlonger, hfront, ← hadded]
  exact (bodies_prefix_append _ added).map String.ofList

end DependencyAudit.Source
