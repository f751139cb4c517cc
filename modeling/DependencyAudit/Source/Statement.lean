import DependencyAudit.Text.Blank
import DependencyAudit.Text.Span

/-!
# Import statements

A source text names the modules it needs in two kinds of statement: the word
`import` or `from`, blanks and a quoted body, or the word `require` and a quoted
body in parentheses.  Either quote mark may open or close a body, and a body has
at least one character and no quote mark.  The main statement is that reading at
the start of a text finds a body exactly when a statement with it stands there,
so at most one statement starts at a place.
-/

namespace DependencyAudit.Source

open DependencyAudit.Text

def isQuote (c : Char) : Bool :=
  c = '\'' || c = '"'

structure IsBody (body : List Char) : Prop where
  ne_nil : body ≠ []
  unquoted : ∀ c ∈ body, isQuote c = false

/-- A text that is one statement, and the body it quotes. -/
inductive Statement : List Char → List Char → Prop where
  | named (word blanks body : List Char) (opening closing : Char)
      (hword : word = "import".toList ∨ word = "from".toList)
      (hsome : blanks ≠ []) (hblanks : ∀ c ∈ blanks, isBlank c = true)
      (hopening : isQuote opening = true) (hbody : IsBody body)
      (hclosing : isQuote closing = true) :
      Statement (word ++ blanks ++ opening :: body ++ [closing]) body
  | required (blanks body : List Char) (opening closing : Char)
      (hblanks : ∀ c ∈ blanks, isBlank c = true)
      (hopening : isQuote opening = true) (hbody : IsBody body)
      (hclosing : isQuote closing = true) :
      Statement
        ("require".toList ++ blanks ++ '(' :: opening :: body ++ [closing, ')']) body

/-- The text after a word at its start. -/
def afterWord? (word text : List Char) : Option (List Char) :=
  if word.isPrefixOf text then some (text.drop word.length) else none

/-- The quoted body at the start of a text, and the text after it. -/
def quotedBody? : List Char → Option (List Char × List Char)
  | [] => none
  | opening :: rest =>
    if isQuote opening then
      let body := rest.takeWhile fun c => !isQuote c
      match rest.dropWhile fun c => !isQuote c with
      | [] => none
      | _ :: after => if body = [] then none else some (body, after)
    else none

def namedStatement? (text : List Char) : Option (List Char × List Char) :=
  match (afterWord? "import".toList text).or (afterWord? "from".toList text) with
  | none | some [] => none
  | some (c :: rest) =>
    if isBlank c then quotedBody? (rest.dropWhile isBlank) else none

def requiredStatement? (text : List Char) : Option (List Char × List Char) :=
  match (afterWord? "require".toList text).map (List.dropWhile isBlank) with
  | some ('(' :: rest) =>
    match quotedBody? rest with
    | some (body, ')' :: after) => some (body, after)
    | _ => none
  | _ => none

/-- The body of the statement at the start of a text, and the text after it. -/
def statement? (text : List Char) : Option (List Char × List Char) :=
  (namedStatement? text).or (requiredStatement? text)

theorem isBlank_of_isQuote {c : Char} (h : isQuote c = true) : isBlank c = false := by
  simp only [isQuote, Bool.or_eq_true, decide_eq_true_eq] at h
  rcases h with rfl | rfl <;> decide

theorem afterWord?_eq_some_iff {word text rest : List Char} :
    afterWord? word text = some rest ↔ text = word ++ rest := by
  simp only [afterWord?, Option.ite_none_right_eq_some, Option.some.injEq,
    List.isPrefixOf_iff_prefix]
  constructor
  · rintro ⟨⟨after, rfl⟩, rfl⟩
    simp
  · rintro rfl
    simp

/-- A quoted body is read exactly when the text is one between quote marks. -/
theorem quotedBody?_eq_some_iff {text body after : List Char} :
    quotedBody? text = some (body, after) ↔
      ∃ opening closing, text = opening :: body ++ closing :: after ∧
        isQuote opening = true ∧ IsBody body ∧ isQuote closing = true := by
  constructor
  · intro h
    cases text with
    | nil => simp [quotedBody?] at h
    | cons opening rest =>
        simp only [quotedBody?, Option.ite_none_right_eq_some] at h
        obtain ⟨hopening, h⟩ := h
        split at h
        · simp at h
        · next closing later hlater =>
            simp only [Option.ite_none_left_eq_some, Option.some.injEq, Prod.mk.injEq] at h
            obtain ⟨hbody, rfl, rfl⟩ := h
            obtain ⟨hrest, hclosing⟩ := eq_of_dropWhile_eq_cons hlater
            refine ⟨opening, closing, ?_, hopening, ⟨hbody, ?_⟩, by simpa using hclosing⟩
            · exact congrArg (opening :: ·) hrest
            · intro c hc
              simpa using of_mem_takeWhile hc
  · rintro ⟨opening, closing, rfl, hopening, hbody, hclosing⟩
    have hplain : ∀ c ∈ body, (!isQuote c) = true := by
      intro c hc
      simp [hbody.unquoted c hc]
    have hquote : (!isQuote closing) = false := by simp [hclosing]
    simp [quotedBody?, hopening, takeWhile_append_cons hplain hquote,
      dropWhile_append_cons hplain hquote, hbody.ne_nil]

theorem namedStatement?_eq_some_iff {text body after : List Char} :
    namedStatement? text = some (body, after) ↔
      ∃ word blanks opening closing,
        (word = "import".toList ∨ word = "from".toList) ∧ blanks ≠ [] ∧
        (∀ c ∈ blanks, isBlank c = true) ∧ isQuote opening = true ∧ IsBody body ∧
        isQuote closing = true ∧
        text = word ++ (blanks ++ (opening :: body ++ closing :: after)) := by
  constructor
  · intro h
    unfold namedStatement? at h
    split at h
    · simp at h
    · simp at h
    · next c rest hword =>
        rw [Option.ite_none_right_eq_some, quotedBody?_eq_some_iff] at h
        obtain ⟨hc, opening, closing, hrest, hopening, hbody, hclosing⟩ := h
        have htext : ∃ word, (word = "import".toList ∨ word = "from".toList) ∧
            text = word ++ c :: rest := by
          rw [Option.or_eq_some_iff, afterWord?_eq_some_iff, afterWord?_eq_some_iff] at hword
          rcases hword with hword | ⟨_, hword⟩
          · exact ⟨_, Or.inl rfl, hword⟩
          · exact ⟨_, Or.inr rfl, hword⟩
        obtain ⟨word, hkind, rfl⟩ := htext
        refine ⟨word, c :: rest.takeWhile isBlank, opening, closing, hkind, by simp, ?_,
          hopening, hbody, hclosing, ?_⟩
        · intro x hx
          rw [List.mem_cons] at hx
          rcases hx with rfl | hx
          · exact hc
          · exact of_mem_takeWhile hx
        · rw [← hrest, List.cons_append, List.takeWhile_append_dropWhile]
  · rintro ⟨word, blanks, opening, closing, hword, hsome, hblanks, hopening, hbody,
      hclosing, rfl⟩
    have hfound : (afterWord? "import".toList
          (word ++ (blanks ++ (opening :: body ++ closing :: after)))).or
        (afterWord? "from".toList
          (word ++ (blanks ++ (opening :: body ++ closing :: after)))) =
        some (blanks ++ (opening :: body ++ closing :: after)) := by
      rw [Option.or_eq_some_iff]
      rcases hword with rfl | rfl
      · exact Or.inl (afterWord?_eq_some_iff.mpr rfl)
      · refine Or.inr ⟨?_, afterWord?_eq_some_iff.mpr rfl⟩
        simp [afterWord?]
    cases blanks with
    | nil => exact absurd rfl hsome
    | cons c blanks =>
        rw [namedStatement?, hfound]
        simp only [List.cons_append, hblanks c (List.mem_cons_self ..), if_true]
        rw [dropWhile_append_cons (fun x hx => hblanks x (List.mem_cons_of_mem _ hx))
          (isBlank_of_isQuote hopening), quotedBody?_eq_some_iff]
        exact ⟨opening, closing, rfl, hopening, hbody, hclosing⟩

theorem requiredStatement?_eq_some_iff {text body after : List Char} :
    requiredStatement? text = some (body, after) ↔
      ∃ blanks opening closing,
        (∀ c ∈ blanks, isBlank c = true) ∧ isQuote opening = true ∧ IsBody body ∧
        isQuote closing = true ∧
        text = "require".toList ++
          (blanks ++ '(' :: (opening :: body ++ closing :: ')' :: after)) := by
  constructor
  · intro h
    unfold requiredStatement? at h
    split at h
    · next rest hword =>
        split at h
        · next quoted later hquoted =>
            simp only [Option.some.injEq, Prod.mk.injEq] at h
            obtain ⟨rfl, rfl⟩ := h
            obtain ⟨opening, closing, rfl, hopening, hbody, hclosing⟩ :=
              quotedBody?_eq_some_iff.mp hquoted
            obtain ⟨found, hfound, hdrop⟩ := Option.map_eq_some_iff.mp hword
            rw [afterWord?_eq_some_iff] at hfound
            refine ⟨found.takeWhile isBlank, opening, closing, fun c hc => of_mem_takeWhile hc,
              hopening, hbody, hclosing, ?_⟩
            rw [hfound, ← (eq_of_dropWhile_eq_cons hdrop).1]
        · simp at h
    · simp at h
  · rintro ⟨blanks, opening, closing, hblanks, hopening, hbody, hclosing, rfl⟩
    have hquoted : quotedBody? (opening :: body ++ closing :: ')' :: after) =
        some (body, ')' :: after) :=
      quotedBody?_eq_some_iff.mpr ⟨opening, closing, rfl, hopening, hbody, hclosing⟩
    have hword : (afterWord? "require".toList ("require".toList ++
          (blanks ++ '(' :: (opening :: body ++ closing :: ')' :: after)))).map
          (List.dropWhile isBlank) =
        some ('(' :: (opening :: body ++ closing :: ')' :: after)) := by
      rw [afterWord?_eq_some_iff.mpr rfl, Option.map_some,
        dropWhile_append_cons hblanks (by decide)]
    simp only [requiredStatement?, hword, hquoted]

theorem named_ne_required {text : List Char} {found other : List Char × List Char}
    (hnamed : namedStatement? text = some found) :
    requiredStatement? text ≠ some other := by
  intro hrequired
  obtain ⟨_, _, _, _, hword, _, _, _, _, _, htext⟩ :=
    namedStatement?_eq_some_iff.mp hnamed
  obtain ⟨_, _, _, _, _, _, _, hother⟩ := requiredStatement?_eq_some_iff.mp hrequired
  rw [hother] at htext
  rcases hword with rfl | rfl <;> simp at htext

/-- A statement is read at the start of a text exactly when one stands there. -/
theorem statement?_eq_some_iff {text body after : List Char} :
    statement? text = some (body, after) ↔
      ∃ occurrence, Statement occurrence body ∧ text = occurrence ++ after := by
  constructor
  · intro h
    rw [statement?, Option.or_eq_some_iff] at h
    rcases h with h | ⟨_, h⟩
    · obtain ⟨word, blanks, opening, closing, hword, hsome, hblanks, hopening, hbody,
        hclosing, rfl⟩ := namedStatement?_eq_some_iff.mp h
      exact ⟨_, .named word blanks body opening closing hword hsome hblanks hopening hbody
        hclosing, by simp⟩
    · obtain ⟨blanks, opening, closing, hblanks, hopening, hbody, hclosing, rfl⟩ :=
        requiredStatement?_eq_some_iff.mp h
      exact ⟨_, .required blanks body opening closing hblanks hopening hbody hclosing,
        by simp⟩
  · rintro ⟨occurrence, hstatement, rfl⟩
    rw [statement?, Option.or_eq_some_iff]
    cases hstatement with
    | named word blanks body opening closing hword hsome hblanks hopening hbody hclosing =>
        refine Or.inl (namedStatement?_eq_some_iff.mpr
          ⟨word, blanks, opening, closing, hword, hsome, hblanks, hopening, hbody,
            hclosing, by simp⟩)
    | required blanks body opening closing hblanks hopening hbody hclosing =>
        have hrequired : requiredStatement? ("require".toList ++ blanks ++
            '(' :: opening :: body ++ [closing, ')'] ++ after) = some (body, after) :=
          requiredStatement?_eq_some_iff.mpr
            ⟨blanks, opening, closing, hblanks, hopening, hbody, hclosing, by simp⟩
        refine Or.inr ⟨?_, hrequired⟩
        rw [Option.eq_none_iff_forall_ne_some]
        intro found hfound
        exact named_ne_required hfound hrequired

theorem Statement.length_pos {occurrence body : List Char}
    (h : Statement occurrence body) : 0 < occurrence.length := by
  cases h with
  | named =>
      simp only [List.length_append, List.length_cons]
      omega
  | required =>
      simp only [List.length_append, List.length_cons]
      omega

theorem length_lt_of_statement? {text body after : List Char}
    (h : statement? text = some (body, after)) : after.length < text.length := by
  obtain ⟨occurrence, hstatement, rfl⟩ := statement?_eq_some_iff.mp h
  have hpos := hstatement.length_pos
  rw [List.length_append]
  omega

end DependencyAudit.Source
