import DependencyAudit.Proofs.Source.StatementParts

/-!
# Other blanks in a source

A text may have other blanks in its runs of blanks.  A statement stays one, with other blanks
between its words and perhaps in its body, because no word and no mark of it is a blank.  So
the scans of both texts meet statements at corresponding places, and as long as no run within
a reported body is another one, the bodies that they report are the same.
-/

namespace DependencyAudit.Source

open DependencyAudit.Text

structure IsRun (blanks : List Char) : Prop where
  ne_nil : blanks ≠ []
  blank : ∀ c ∈ blanks, isBlank c = true

/-- A run of blanks cannot go on in the text after it. -/
def EndsRun (rest : List Char) : Prop :=
  ∀ c, rest.head? = some c → isBlank c = false

/-- The other text has blanks where the text that starts at a position has blanks, and is the
same elsewhere.  A run of blanks, taken as long as it is, may be another run when the place
where it starts and the one where it stops allow it. -/
inductive Respaced (mayChange : Nat → Nat → Prop) : Nat → List Char → List Char → Prop where
  | nil (position : Nat) : Respaced mayChange position [] []
  | char {position : Nat} {c : Char} {rest other : List Char} (hc : isBlank c = false)
      (hrest : Respaced mayChange (position + 1) rest other) :
      Respaced mayChange position (c :: rest) (c :: other)
  | run {position : Nat} {blanks others rest other : List Char} (hblanks : IsRun blanks)
      (hothers : IsRun others) (hstop : EndsRun rest)
      (hchange : others ≠ blanks → mayChange position (position + blanks.length))
      (hrest : Respaced mayChange (position + blanks.length) rest other) :
      Respaced mayChange position (blanks ++ rest) (others ++ other)

/-- Where the body of a reported statement starts in a text: behind the first quote mark from
the start of the statement on. -/
def Occurrence.bodyStart (occurrence : Occurrence) (text : List Char) : Nat :=
  occurrence.start + ((text.drop occurrence.start).takeWhile fun c => !isQuote c).length + 1

/-- What stands between two places of a text is in no body of the reported statements. -/
def IsOutsideBodies (text : List Char) (reported : List Occurrence) (start stop : Nat) : Prop :=
  ∀ occurrence ∈ reported, stop ≤ occurrence.bodyStart text ∨
    occurrence.bodyStart text + occurrence.body.length ≤ start

variable {mayChange : Nat → Nat → Prop} {position : Nat} {text other : List Char}

/-! ## Parts of a text with other blanks -/

theorem Respaced.nil_iff (h : Respaced mayChange position text other) :
    text = [] ↔ other = [] := by
  cases h with
  | nil => simp
  | char => simp
  | run hblanks hothers => simp [hblanks.ne_nil, hothers.ne_nil]

theorem Respaced.eq_nil (h : Respaced mayChange position [] other) : other = [] :=
  h.nil_iff.mp rfl

/-- Texts with other blanks have other blanks on both sides of a character that is none. -/
theorem Respaced.split {left right : List Char} {c : Char} (hc : isBlank c = false)
    (h : Respaced mayChange position (left ++ c :: right) other) :
    ∃ left' right', other = left' ++ c :: right' ∧
      Respaced mayChange position left left' ∧
      Respaced mayChange (position + left.length + 1) right right' := by
  generalize htext : left ++ c :: right = text at h
  induction h generalizing left with
  | nil => simp at htext
  | @char position d rest other hd hrest ih =>
      cases left with
      | nil =>
          obtain ⟨rfl, rfl⟩ := List.cons.inj htext
          exact ⟨[], other, rfl, .nil position, hrest⟩
      | cons e left =>
          obtain ⟨rfl, hleft⟩ := List.cons.inj htext
          obtain ⟨left', right', rfl, hbefore, hafter⟩ := ih hleft
          refine ⟨e :: left', right', rfl, .char hd hbefore, ?_⟩
          rwa [List.length_cons, ← Nat.add_assoc, Nat.add_right_comm position]
  | @run position blanks others rest other hblanks hothers hstop hchange hrest ih =>
      have hmem : c ∉ blanks := by
        intro hmem
        rw [hblanks.blank c hmem] at hc
        contradiction
      obtain ⟨gap, rfl, hgap⟩ := exists_of_append_eq_append_cons htext.symm hmem
      obtain ⟨left', right', rfl, hbefore, hafter⟩ := ih hgap.symm
      refine ⟨others ++ left', right', by simp, .run hblanks hothers ?_ hchange hbefore, ?_⟩
      · intro d hd
        apply hstop
        rw [hgap, List.head?_append, hd, Option.some_or]
      · rwa [List.length_append, ← Nat.add_assoc]

theorem Respaced.cons {c : Char} {rest : List Char} (hc : isBlank c = false)
    (h : Respaced mayChange position (c :: rest) other) :
    ∃ other', other = c :: other' ∧ Respaced mayChange (position + 1) rest other' := by
  rw [← List.nil_append (c :: rest)] at h
  obtain ⟨left', right', rfl, hbefore, hafter⟩ := h.split hc
  exact ⟨right', by rw [hbefore.eq_nil, List.nil_append], hafter⟩

theorem Respaced.append_word {word rest : List Char} (hword : ∀ c ∈ word, isBlank c = false)
    (h : Respaced mayChange position (word ++ rest) other) :
    ∃ other', other = word ++ other' ∧ Respaced mayChange (position + word.length) rest other' := by
  induction word generalizing position other with
  | nil => exact ⟨other, rfl, h⟩
  | cons c word ih =>
      rw [List.forall_mem_cons] at hword
      obtain ⟨other, rfl, hrest⟩ := h.cons hword.1
      obtain ⟨other, rfl, hrest⟩ := ih hword.2 hrest
      refine ⟨other, rfl, ?_⟩
      rwa [List.length_cons, Nat.add_comm word.length, ← Nat.add_assoc]

theorem Respaced.blanks (hblank : ∀ c ∈ text, isBlank c = true)
    (h : Respaced mayChange position text other) : ∀ c ∈ other, isBlank c = true := by
  induction h with
  | nil => simp
  | char hc hrest ih =>
      rw [List.forall_mem_cons] at hblank
      rw [hblank.1] at hc
      contradiction
  | run hblanks hothers hstop hchange hrest ih =>
      rw [List.forall_mem_append] at hblank ⊢
      exact ⟨hothers.blank, ih hblank.2⟩

theorem Respaced.unquoted (hplain : ∀ c ∈ text, isQuote c = false)
    (h : Respaced mayChange position text other) : ∀ c ∈ other, isQuote c = false := by
  induction h with
  | nil => simp
  | char hc hrest ih =>
      rw [List.forall_mem_cons] at hplain ⊢
      exact ⟨hplain.1, ih hplain.2⟩
  | run hblanks hothers hstop hchange hrest ih =>
      rw [List.forall_mem_append] at hplain ⊢
      exact ⟨fun c hc => isQuote_of_isBlank (hothers.blank c hc), ih hplain.2⟩

theorem Respaced.isBody {body : List Char} (hbody : IsBody body)
    (h : Respaced mayChange position body other) : IsBody other :=
  ⟨fun hnil => hbody.ne_nil (h.nil_iff.mpr hnil), h.unquoted hbody.unquoted⟩

/-- Where no run may be another one the texts are the same. -/
theorem Respaced.eq_of_kept (h : Respaced mayChange position text other)
    (hkept : ∀ start stop, position ≤ start → start < stop → stop ≤ position + text.length →
      ¬ mayChange start stop) : other = text := by
  induction h with
  | nil => rfl
  | @char position c rest other hc hrest ih =>
      rw [ih]
      intro start stop hstart hlt hstop
      exact hkept start stop (by omega) hlt (by rw [List.length_cons]; omega)
  | @run position blanks others rest other hblanks hothers hstop hchange hrest ih =>
      have hpos := List.length_pos_iff.mpr hblanks.ne_nil
      have hsame : others = blanks := by
        by_contra hne
        refine hkept _ _ (Nat.le_refl _) (by omega) ?_ (hchange hne)
        rw [List.length_append]
        omega
      rw [hsame, ih]
      intro start stop hstart hlt hstop
      exact hkept start stop (by omega) hlt (by rw [List.length_append]; omega)

theorem Respaced.endsRun (hends : EndsRun text) (h : Respaced mayChange position text other) :
    EndsRun other := by
  cases h with
  | nil => exact hends
  | char hc hrest =>
      rintro d hd
      obtain rfl := Option.some.inj hd
      exact hc
  | run hblanks =>
      obtain ⟨c, blanks, rfl⟩ := List.exists_cons_of_ne_nil hblanks.ne_nil
      have hplain := hends c rfl
      rw [hblanks.blank c (List.mem_cons_self ..)] at hplain
      contradiction

/-- The relation read the other way, when any run may be another one. -/
theorem Respaced.symm (h : Respaced mayChange position text other) (start : Nat) :
    Respaced (fun _ _ => True) start other text := by
  induction h generalizing start with
  | nil => exact .nil start
  | char hc hrest ih => exact .char hc (ih _)
  | run hblanks hothers hstop hchange hrest ih =>
      exact .run hothers hblanks (hrest.endsRun hstop) (fun _ => trivial) (ih _)

/-! ## Statements -/

def IsWord (word : List Char) : Prop :=
  word = "import".toList ∨ word = "from".toList ∨ word = "require".toList

theorem IsWord.not_blank {word : List Char} (hword : IsWord word) :
    ∀ c ∈ word, isBlank c = false := by
  have hnone : word.any isBlank = false := by
    rcases hword with rfl | rfl | rfl <;> decide
  simpa using hnone

theorem IsWord.unquoted {word : List Char} (hword : IsWord word) :
    ∀ c ∈ word, isQuote c = false := by
  have hnone : word.any isQuote = false := by
    rcases hword with rfl | rfl | rfl <;> decide
  simpa using hnone

/-- What other blanks make of a statement and the text behind it. -/
structure RespacedStatement (mayChange : Nat → Nat → Prop) (position : Nat)
    (spelling body after other : List Char) where
  otherSpelling : List Char
  otherBody : List Char
  otherAfter : List Char
  lead : List Char
  opening : Char
  behind : List Char
  other_eq : other = otherSpelling ++ otherAfter
  statement : Statement otherSpelling otherBody
  after : Respaced mayChange (position + spelling.length) after otherAfter
  spelling_eq : spelling = lead ++ opening :: (body ++ behind)
  lead_unquoted : ∀ c ∈ lead, isQuote c = false
  opening_quote : isQuote opening = true
  body : Respaced mayChange (position + lead.length + 1) body otherBody

/-- A word and blanks are, with other blanks, the word and blanks. -/
theorem Respaced.lead {word blanks : List Char} (hword : IsWord word)
    (hblanks : ∀ c ∈ blanks, isBlank c = true)
    (h : Respaced mayChange position (word ++ blanks) other) :
    ∃ blanks', other = word ++ blanks' ∧ (blanks = [] ↔ blanks' = []) ∧
      ∀ c ∈ blanks', isBlank c = true := by
  obtain ⟨blanks', rfl, hrest⟩ := h.append_word hword.not_blank
  exact ⟨blanks', rfl, hrest.nil_iff, hrest.blanks hblanks⟩

theorem Respaced.quotation {body rest : List Char} {opening closing : Char}
    (hopening : isQuote opening = true) (hclosing : isQuote closing = true)
    (h : Respaced mayChange position (opening :: (body ++ closing :: rest)) other) :
    ∃ body' rest', other = opening :: (body' ++ closing :: rest') ∧
      Respaced mayChange (position + 1) body body' ∧
      Respaced mayChange (position + body.length + 2) rest rest' := by
  obtain ⟨other, rfl, hquoted⟩ := h.cons (isBlank_of_isQuote hopening)
  obtain ⟨body', rest', rfl, hbody, hrest⟩ := hquoted.split (isBlank_of_isQuote hclosing)
  refine ⟨body', rest', rfl, hbody, ?_⟩
  rwa [Nat.add_right_comm position 1] at hrest

theorem Respaced.exists_statement {spelling body after : List Char}
    (hstatement : Statement spelling body)
    (h : Respaced mayChange position (spelling ++ after) other) :
    Nonempty (RespacedStatement mayChange position spelling body after other) := by
  cases hstatement with
  | named word blanks body opening closing hword hsome hblanks hopening hbody hclosing =>
      have hisWord : IsWord word := hword.imp_right Or.inl
      have htext : word ++ blanks ++ opening :: body ++ [closing] ++ after =
          (word ++ blanks) ++ opening :: (body ++ closing :: after) := by
        simp
      rw [htext] at h
      obtain ⟨lead, rest, rfl, hlead, hrest⟩ := h.split (isBlank_of_isQuote hopening)
      obtain ⟨body', after', rfl, hbody', hafter'⟩ := hrest.split (isBlank_of_isQuote hclosing)
      obtain ⟨blanks', rfl, hnil, hblanks'⟩ := hlead.lead hisWord hblanks
      have hother := Statement.named word blanks' body' opening closing hword
        (fun hempty => hsome (hnil.mpr hempty)) hblanks' hopening (hbody'.isBody hbody) hclosing
      refine ⟨⟨_, body', after', word ++ blanks, opening, [closing], by simp, hother, ?_, by simp,
        ?_, hopening, hbody'⟩⟩
      · convert hafter' using 1
        simp only [List.length_append, List.length_cons, List.length_nil]
        omega
      · exact List.forall_mem_append.mpr
          ⟨hisWord.unquoted, fun c hc => isQuote_of_isBlank (hblanks c hc)⟩
  | required blanks body opening closing hblanks hopening hbody hclosing =>
      have hisWord : IsWord "require".toList := Or.inr (Or.inr rfl)
      have hparenthesis : isBlank '(' = false ∧ isBlank ')' = false := by decide
      have htext : "require".toList ++ blanks ++ '(' :: opening :: body ++ [closing, ')'] ++ after =
          ("require".toList ++ blanks) ++
            '(' :: (opening :: (body ++ closing :: (')' :: after))) := by
        simp
      rw [htext] at h
      obtain ⟨lead, rest, rfl, hlead, hrest⟩ := h.split hparenthesis.1
      obtain ⟨body', behind, rfl, hbody', hbehind⟩ := hrest.quotation hopening hclosing
      obtain ⟨after', rfl, hafter'⟩ := hbehind.cons hparenthesis.2
      obtain ⟨blanks', rfl, -, hblanks'⟩ := hlead.lead hisWord hblanks
      have hother := Statement.required blanks' body' opening closing hblanks' hopening
        (hbody'.isBody hbody) hclosing
      refine ⟨⟨_, body', after', "require".toList ++ blanks ++ ['('], opening, [closing, ')'],
        by simp, hother, ?_, by simp, ?_, hopening, ?_⟩⟩
      · convert hafter' using 1
        simp only [List.length_append, List.length_cons, List.length_nil]
        omega
      · rw [List.forall_mem_append, List.forall_mem_append, List.forall_mem_singleton]
        exact ⟨⟨hisWord.unquoted, fun c hc => isQuote_of_isBlank (hblanks c hc)⟩, by decide⟩
      · convert hbody' using 1
        simp only [List.length_append, List.length_cons, List.length_nil]
        omega

/-- A statement stands at the start of a text when one does after blanks were exchanged. -/
theorem Respaced.statement?_eq_none (h : Respaced mayChange position text other)
    (hnone : statement? text = none) : statement? other = none := by
  rw [Option.eq_none_iff_forall_ne_some]
  rintro ⟨body, after⟩ hfound
  obtain ⟨spelling, hstatement, rfl⟩ := statement?_eq_some_iff.mp hfound
  obtain ⟨found⟩ := (h.symm 0).exists_statement hstatement
  have hread : statement? text = some (found.otherBody, found.otherAfter) :=
    statement?_eq_some_iff.mpr ⟨_, found.statement, found.other_eq⟩
  rw [hnone] at hread
  contradiction

/-! ## The scan -/

theorem bodyStart_of_lead {front lead rest body : List Char} {opening : Char} {stop : Nat}
    (hlead : ∀ c ∈ lead, isQuote c = false) (hopening : isQuote opening = true) :
    Occurrence.bodyStart ⟨front.length, stop, body⟩ (front ++ (lead ++ opening :: rest)) =
      front.length + lead.length + 1 := by
  have hplain : ∀ c ∈ lead, (!isQuote c) = true := by
    intro c hc
    simp [hlead c hc]
  rw [Occurrence.bodyStart, List.drop_left,
    takeWhile_append_cons hplain (by simp [hopening])]

/-- The body of a reported statement stays as it is. -/
theorem RespacedStatement.otherBody_eq {whole front spelling body after : List Char}
    {reported : List Occurrence} (hwhole : whole = front ++ (spelling ++ after))
    (hreported : ⟨front.length, front.length + spelling.length, body⟩ ∈ reported)
    (h : RespacedStatement (IsOutsideBodies whole reported) front.length spelling body after
      other) : h.otherBody = body := by
  apply h.body.eq_of_kept
  intro start stop hstart hlt hstop houtside
  have hplace := houtside _ hreported
  rw [hwhole, h.spelling_eq, List.append_assoc, List.cons_append,
    bodyStart_of_lead h.lead_unquoted h.opening_quote] at hplace
  simp only at hplace
  omega

theorem IsRun.plain {blanks : List Char} (h : IsRun blanks) :
    'i' ∉ blanks ∧ 'f' ∉ blanks ∧ 'r' ∉ blanks := by
  refine ⟨?_, ?_, ?_⟩ <;> exact fun hmem => absurd (h.blank _ hmem) (by decide)

/-- The scans of both texts report the same bodies.  The induction is on the rest of the text
that is still to be scanned; reported are the statements of the whole text. -/
theorem bodies_of_respaced {whole : List Char} (front : List Char) {reported : List Occurrence}
    (hwhole : whole = front ++ text) (hreported : occurrences front.length text ⊆ reported)
    (h : Respaced (IsOutsideBodies whole reported) front.length text other) :
    bodies other = bodies text := by
  induction hlength : text.length using Nat.strongRecOn generalizing front text other with
  | ind length ih =>
      have hpass : ∀ passed rest other, text = passed ++ rest → passed ≠ [] →
          occurrences (front.length + passed.length) rest ⊆ reported →
          Respaced (IsOutsideBodies whole reported) (front.length + passed.length) rest other →
          bodies other = bodies rest := by
        intro passed rest other htext hpassed hlater hrest
        have hpos := List.length_pos_iff.mpr hpassed
        rw [htext, List.length_append] at hlength
        rw [← List.length_append] at hlater hrest
        have hsplit : whole = front ++ passed ++ rest := by
          rw [hwhole, htext, List.append_assoc]
        exact ih rest.length (by omega) _ hsplit hlater hrest rfl
      cases hstatement : statement? text with
      | some found =>
          obtain ⟨body, after⟩ := found
          obtain ⟨spelling, hspelling, rfl⟩ := statement?_eq_some_iff.mp hstatement
          obtain ⟨respaced⟩ := h.exists_statement hspelling
          have hne : spelling ≠ [] := List.ne_nil_of_length_pos hspelling.length_pos
          rw [occurrences_append_of_statement? hstatement, List.cons_subset] at hreported
          have hother : statement? other = some (respaced.otherBody, respaced.otherAfter) :=
            statement?_eq_some_iff.mpr ⟨_, respaced.statement, respaced.other_eq⟩
          rw [bodies_of_statement? hstatement, bodies_of_statement? hother,
            respaced.otherBody_eq hwhole hreported.1,
            hpass spelling after _ rfl hne hreported.2 respaced.after]
      | none =>
          have hnone := h.statement?_eq_none hstatement
          cases h with
          | nil => rfl
          | @char _ c rest other hc hrest =>
              rw [occurrences_cons_of_none hstatement] at hreported
              rw [bodies_cons_of_none hstatement, bodies_cons_of_none hnone]
              exact hpass [c] rest other rfl (by simp) hreported hrest
          | run hblanks hothers hstop hchange hrest =>
              rw [occurrences_append_of_plain hblanks.plain] at hreported
              rw [bodies_append_of_plain hblanks.plain, bodies_append_of_plain hothers.plain]
              exact hpass _ _ _ rfl hblanks.ne_nil hreported hrest

/-- A source imports the same specifiers when runs of blanks outside of the specifiers are
other runs of blanks. -/
theorem specifiers_of_respaced {text other : String}
    (h : Respaced (IsOutsideBodies text.toList (occurrences 0 text.toList)) 0 text.toList
      other.toList) : specifiers other = specifiers text := by
  rw [specifiers, specifiers,
    bodies_of_respaced [] (List.nil_append _).symm (List.Subset.refl _) h]

def spacedSource : String := "from 'a b' require('c')"

def respacedSource : String := "from\n'a b'\t\trequire('c')"

theorem isRun_of_all {blanks : List Char} (hne : blanks ≠ []) (hall : blanks.all isBlank = true) :
    IsRun blanks :=
  ⟨hne, List.all_eq_true.mp hall⟩

theorem respaced_word (word : List Char) {rest : List Char} (hword : word.any isBlank = false)
    (h : Respaced mayChange (position + word.length) rest other) :
    Respaced mayChange position (word ++ rest) (word ++ other) := by
  induction word generalizing position with
  | nil => exact h
  | cons c word ih =>
      rw [List.any_cons, Bool.or_eq_false_iff] at hword
      rw [List.length_cons, Nat.add_comm word.length, ← Nat.add_assoc] at h
      exact .char hword.1 (ih hword.2 h)

/-- Two runs of blanks are other ones, and the one within a specifier stays. -/
theorem specifiers_of_respacedSource :
    Respaced (IsOutsideBodies spacedSource.toList (occurrences 0 spacedSource.toList)) 0
        spacedSource.toList respacedSource.toList ∧
      specifiers respacedSource = specifiers spacedSource := by
  have hrun : IsRun [' '] ∧ IsRun ['\n'] ∧ IsRun ['\t', '\t'] := by
    refine ⟨isRun_of_all ?_ ?_, isRun_of_all ?_ ?_, isRun_of_all ?_ ?_⟩ <;> decide
  have houtside : ∀ place ∈ [(4, 5), (10, 11)], IsOutsideBodies spacedSource.toList
      (occurrences 0 spacedSource.toList) place.1 place.2 := by
    unfold IsOutsideBodies
    decide +kernel
  have hends : ∀ {c : Char} {rest : List Char}, isBlank c = false → EndsRun (c :: rest) := by
    rintro c rest hc d ⟨⟩
    exact hc
  have hrespaced : Respaced (IsOutsideBodies spacedSource.toList
      (occurrences 0 spacedSource.toList)) 0 spacedSource.toList respacedSource.toList := by
    refine respaced_word "from".toList (by decide) ?_
    refine .run hrun.1 hrun.2.1 (hends (by decide)) (fun _ => houtside (4, 5) (by simp)) ?_
    refine respaced_word "'a".toList (by decide) ?_
    refine .run hrun.1 hrun.1 (hends (by decide)) (fun hne => absurd rfl hne) ?_
    refine respaced_word "b'".toList (by decide) ?_
    refine .run hrun.1 hrun.2.2 (hends (by decide)) (fun _ => houtside (10, 11) (by simp)) ?_
    exact respaced_word "require('c')".toList (by decide) (.nil _)
  exact ⟨hrespaced, specifiers_of_respaced hrespaced⟩

end DependencyAudit.Source
