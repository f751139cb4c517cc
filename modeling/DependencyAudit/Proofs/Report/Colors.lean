import DependencyAudit.Proofs.Text.CodeTexts
import DependencyAudit.Report.Text
import DependencyAudit.Text.Span

/-!
# Colours taken off

A colour sequence is an escape character, a bracket, digits and an `m`.  Two sequences never
overlap, so they are taken off in one pass from the left, and the pass over two texts one
behind the other is the pass over each, unless the second goes on with a sequence that the
first began.  A painted text is followed by an escape character or a line end, so it comes
out as the bare text, whatever characters it holds.
-/

namespace DependencyAudit.Report

/-! ## Colour sequences -/

def IsSequence (text : List Char) : Prop :=
  ∃ digits, digits ≠ [] ∧ (∀ c ∈ digits, c.isDigit = true) ∧
    text = '\x1b' :: '[' :: (digits ++ ['m'])

/-- What follows the colour sequence that a text starts with. -/
def afterSequence? : List Char → Option (List Char)
  | '\x1b' :: '[' :: rest =>
    match rest.dropWhile Char.isDigit with
    | 'm' :: after => if (rest.takeWhile Char.isDigit).isEmpty then none else some after
    | _ => none
  | _ => none

theorem afterSequence?_eq_some_iff {text after : List Char} :
    afterSequence? text = some after ↔
      ∃ sequence, IsSequence sequence ∧ text = sequence ++ after := by
  constructor
  · intro h
    unfold afterSequence? at h
    split at h
    · next rest =>
        split at h
        · next found hdrop =>
            split at h
            · contradiction
            · next hdigits =>
                rw [Option.some.injEq] at h
                obtain ⟨hrest, -⟩ := Text.eq_of_dropWhile_eq_cons hdrop
                refine ⟨'\x1b' :: '[' :: (rest.takeWhile Char.isDigit ++ ['m']),
                  ⟨_, by simpa using hdigits, fun c => Text.of_mem_takeWhile, rfl⟩, ?_⟩
                rw [← h]
                simpa using hrest
        · contradiction
    · contradiction
  · rintro ⟨sequence, ⟨digits, hne, hdigits, rfl⟩, rfl⟩
    have hm : Char.isDigit 'm' = false := by decide
    have htake : (digits ++ 'm' :: after).takeWhile Char.isDigit = digits :=
      Text.takeWhile_append_cons hdigits hm
    have hdrop : (digits ++ 'm' :: after).dropWhile Char.isDigit = 'm' :: after :=
      Text.dropWhile_append_cons hdigits hm
    simp [afterSequence?, htake, hdrop, hne]

theorem IsSequence.afterSequence? {sequence : List Char} (h : IsSequence sequence)
    (rest : List Char) : Report.afterSequence? (sequence ++ rest) = some rest :=
  afterSequence?_eq_some_iff.mpr ⟨sequence, h, rfl⟩

theorem IsSequence.ne_nil {sequence : List Char} (h : IsSequence sequence) : sequence ≠ [] := by
  obtain ⟨digits, -, -, rfl⟩ := h
  simp

theorem length_lt_of_afterSequence? {text after : List Char}
    (h : afterSequence? text = some after) : after.length < text.length := by
  obtain ⟨sequence, hsequence, rfl⟩ := afterSequence?_eq_some_iff.mp h
  have hpositive := List.length_pos_iff.mpr hsequence.ne_nil
  rw [List.length_append]
  omega

/-- A text without its colour sequences. -/
def uncolored (text : List Char) : List Char :=
  match text with
  | [] => []
  | c :: rest =>
    match _h : afterSequence? (c :: rest) with
    | some after => uncolored after
    | none => c :: uncolored rest
termination_by text.length
decreasing_by
  · exact length_lt_of_afterSequence? _h
  · simp

def withoutColors (text : String) : String :=
  String.ofList (uncolored text.toList)

theorem uncolored_nil : uncolored [] = [] := by
  rw [uncolored]

theorem uncolored_cons_of_none {c : Char} {rest : List Char}
    (h : afterSequence? (c :: rest) = none) : uncolored (c :: rest) = c :: uncolored rest := by
  rw [uncolored]
  split
  · next after hafter =>
      rw [h] at hafter
      contradiction
  · rfl

theorem uncolored_sequence_append {sequence : List Char} (h : IsSequence sequence)
    (rest : List Char) : uncolored (sequence ++ rest) = uncolored rest := by
  have hafter := h.afterSequence? rest
  obtain ⟨c, more, hcons⟩ :=
    List.exists_cons_of_ne_nil (List.append_ne_nil_of_left_ne_nil h.ne_nil rest)
  rw [hcons] at hafter ⊢
  rw [uncolored]
  split
  · next after hsome =>
      rw [hafter, Option.some.injEq] at hsome
      rw [← hsome]
  · next hnone =>
      rw [hafter] at hnone
      contradiction

/-! ## Texts one behind the other -/

/-- No sequence that was begun before the text goes on in it. -/
def StartsAnew (text : List Char) : Prop :=
  ∀ c, text.head? = some c → c ≠ '[' ∧ c ≠ 'm' ∧ c.isDigit = false

theorem startsAnew_nil : StartsAnew [] := by
  simp [StartsAnew]

theorem startsAnew_newline (rest : List Char) : StartsAnew ('\n' :: rest) := by
  simp [StartsAnew]

theorem IsSequence.startsAnew {sequence : List Char} (h : IsSequence sequence) (rest : List Char) :
    StartsAnew (sequence ++ rest) := by
  obtain ⟨digits, -, -, rfl⟩ := h
  simp [StartsAnew]

/-- A proper end of a sequence is no text that starts anew. -/
theorem IsSequence.not_startsAnew {front back : List Char} (h : IsSequence (front ++ back))
    (hfront : front ≠ []) (hback : back ≠ []) (rest : List Char) : ¬ StartsAnew (back ++ rest) := by
  obtain ⟨digits, -, hdigits, heq⟩ := h
  obtain ⟨c, front, rfl⟩ := List.exists_cons_of_ne_nil hfront
  obtain ⟨d, back, rfl⟩ := List.exists_cons_of_ne_nil hback
  intro hanew
  obtain ⟨hbracket, hm, hdigit⟩ := hanew d rfl
  rw [List.cons_append, List.cons.injEq] at heq
  have hmem : d ∈ '[' :: (digits ++ ['m']) := by
    rw [← heq.2]
    simp
  simp only [List.mem_cons, List.mem_append, List.not_mem_nil, or_false] at hmem
  rcases hmem with rfl | hmem | rfl
  · exact hbracket rfl
  · rw [hdigits d hmem] at hdigit
    contradiction
  · exact hm rfl

theorem afterSequence?_append_eq_none {text rest : List Char} (hne : text ≠ [])
    (h : afterSequence? text = none) (hrest : StartsAnew rest) :
    afterSequence? (text ++ rest) = none := by
  rw [Option.eq_none_iff_forall_ne_some] at h ⊢
  intro after hafter
  obtain ⟨sequence, hsequence, heq⟩ := afterSequence?_eq_some_iff.mp hafter
  rcases List.append_eq_append_iff.mp heq with ⟨back, rfl, rfl⟩ | ⟨more, rfl, -⟩
  · by_cases hback : back = []
    · subst hback
      rw [List.append_nil] at hsequence
      exact h [] (by simpa using hsequence.afterSequence? [])
    · exact hsequence.not_startsAnew hne hback after hrest
  · exact h more (hsequence.afterSequence? more)

theorem uncolored_append (text : List Char) {rest : List Char} (h : StartsAnew rest) :
    uncolored (text ++ rest) = uncolored text ++ uncolored rest := by
  fun_induction uncolored text with
  | case1 => rfl
  | case2 c text after hafter ih =>
      obtain ⟨sequence, hsequence, heq⟩ := afterSequence?_eq_some_iff.mp hafter
      rw [heq, List.append_assoc, uncolored_sequence_append hsequence, ih]
  | case3 c text hnone ih =>
      have hstill : afterSequence? (c :: (text ++ rest)) = none :=
        afterSequence?_append_eq_none (by simp) hnone h
      rw [List.cons_append, uncolored_cons_of_none hstill, ih, List.cons_append]

theorem uncolored_newline_cons (rest : List Char) :
    uncolored ('\n' :: rest) = '\n' :: uncolored rest :=
  uncolored_cons_of_none rfl

/-- A text without an escape character has nothing to take off. -/
theorem uncolored_of_not_mem {text : List Char} (h : '\x1b' ∉ text) : uncolored text = text := by
  induction text with
  | nil => exact uncolored_nil
  | cons c rest ih =>
      rw [List.mem_cons, not_or] at h
      have hnone : afterSequence? (c :: rest) = none := by
        rw [Option.eq_none_iff_forall_ne_some]
        intro after hafter
        obtain ⟨sequence, ⟨digits, -, -, rfl⟩, heq⟩ := afterSequence?_eq_some_iff.mp hafter
        exact h.1 (List.cons.inj heq).1.symm
      rw [uncolored_cons_of_none hnone, ih h.2]

theorem withoutColors_of_not_mem {text : String} (h : '\x1b' ∉ text.toList) :
    withoutColors text = text := by
  rw [withoutColors, uncolored_of_not_mem h, String.ofList_toList]

theorem withoutColors_empty : withoutColors "" = "" :=
  withoutColors_of_not_mem (by decide)

theorem uncolored_intercalate (lines : List (List Char)) :
    uncolored (['\n'].intercalate lines) = ['\n'].intercalate (lines.map uncolored) := by
  induction lines with
  | nil => exact uncolored_nil
  | cons line rest ih =>
      cases rest with
      | nil => simp [List.intercalate]
      | cons next more =>
          rw [List.intercalate_cons_cons, List.append_assoc, List.singleton_append,
            uncolored_append line (startsAnew_newline _), uncolored_newline_cons, ih]
          simp only [List.map_cons, List.intercalate_cons_cons, List.append_assoc,
            List.singleton_append]

/-! ## Painted texts -/

theorem isSequence_code (style : Style) : IsSequence ("\x1b[" ++ style.code ++ "m").toList := by
  have hdigits : ∀ c ∈ style.code.toList, c.isDigit = true := by
    cases style <;> simp [Style.code]
  refine ⟨style.code.toList, ?_, hdigits, ?_⟩
  · cases style <;> decide
  · simp

theorem isSequence_reset : IsSequence "\x1b[0m".toList :=
  ⟨['0'], by decide, by simp, rfl⟩

/-- A painted text comes out as the bare one. -/
theorem uncolored_paint_append (terminal : Terminal) (style : Style) (text : String)
    {rest : List Char} (h : StartsAnew rest) :
    uncolored ((terminal.paint style text).toList ++ rest) =
      uncolored text.toList ++ uncolored rest := by
  rw [Terminal.paint, Terminal.colorize]
  split
  · rw [String.toList_append, String.toList_append, List.append_assoc, List.append_assoc,
      uncolored_sequence_append (isSequence_code style),
      uncolored_append _ (isSequence_reset.startsAnew rest),
      uncolored_sequence_append isSequence_reset]
  · exact uncolored_append _ h

theorem withoutColors_paint (terminal : Terminal) (style : Style) (text : String) :
    withoutColors (terminal.paint style text) = withoutColors text := by
  have hpaint := uncolored_paint_append terminal style text startsAnew_nil
  rw [List.append_nil, uncolored_nil, List.append_nil] at hpaint
  rw [withoutColors, hpaint, withoutColors]

/-! ## The text report -/

/-- The characters of a line without its colour sequences. -/
def bareLine (line : CodeText) : List Char :=
  uncolored (CodeText.chars line)

theorem bareLine_painted (terminal : Terminal) (style : Style) (text : String) :
    bareLine (painted terminal style text) = uncolored text.toList := by
  have hpaint := uncolored_paint_append terminal style text startsAnew_nil
  rw [List.append_nil, uncolored_nil, List.append_nil] at hpaint
  rw [bareLine, painted, CodeText.chars_ofString, hpaint]

theorem bareLine_bullet (terminal other : Terminal) (style : Style) (name : CodeText) :
    bareLine (CodeText.ofString (bullet terminal style) ++ name) =
      bareLine (CodeText.ofString (bullet other style) ++ name) := by
  have hbullet : ∀ terminal : Terminal,
      bareLine (CodeText.ofString (bullet terminal style) ++ name) =
        ' ' :: ' ' :: (uncolored "•".toList ++ uncolored (' ' :: CodeText.chars name)) := by
    intro terminal
    have htext : CodeText.chars (CodeText.ofString (bullet terminal style) ++ name) =
        ' ' :: ' ' :: ((terminal.paint style "•").toList ++ ' ' :: CodeText.chars name) := by
      simp [bullet]
    have hname : StartsAnew (' ' :: CodeText.chars name) := by simp [StartsAnew]
    rw [bareLine, htext, uncolored_cons_of_none rfl, uncolored_cons_of_none rfl,
      uncolored_paint_append terminal style "•" hname]
  rw [hbullet terminal, hbullet other]

theorem bareLines_textLines (terminal other : Terminal) (analysis : Analysis) :
    (textLines terminal analysis).map bareLine = (textLines other analysis).map bareLine := by
  have hsection : ∀ style heading remark names,
      (sectionLines terminal style heading remark names).map bareLine =
        (sectionLines other style heading remark names).map bareLine := by
    intro style heading remark names
    unfold sectionLines
    split
    · rfl
    · simp [bareLine_painted, bareLine_bullet terminal other]
  unfold textLines
  split
  · simp [titleLines, issueLines, rule, bareLine_painted, hsection]
  · simp [titleLines, praiseLines, rule, bareLine_painted]

theorem uncolored_text (terminal other : Terminal) (analysis : Analysis) :
    uncolored (CodeText.chars (text terminal analysis)) =
      uncolored (CodeText.chars (text other analysis)) := by
  have hlines : ∀ terminal : Terminal, uncolored (CodeText.chars (text terminal analysis)) =
      ['\n'].intercalate ((textLines terminal analysis).map bareLine) := by
    intro terminal
    rw [text, CodeText.chars_intercalate, uncolored_intercalate, List.map_map]
    rfl
  rw [hlines terminal, hlines other, bareLines_textLines terminal other]

end DependencyAudit.Report
