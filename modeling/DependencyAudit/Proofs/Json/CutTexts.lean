import DependencyAudit.Proofs.Json.Limits

/-!
# Texts cut short

An object ends with the brace that closes it, so a text of an object cannot be continued to
another text of a value, except by spacing.  For a number this fails: its digits may go on.
Whether a text is of an object shows in its first character behind the spacing, and this
is the same in every continuation; hence an object cannot be cut short to a value of
another kind either.
-/

namespace DependencyAudit.Json

open DependencyAudit.Text

variable {levels : Nat} {body text front more : List Char} {value whole : Json}

/-- A value that was read is within the limits of the reader. -/
theorem isWithin_of_parse (h : parse levels text = .ok value) :
    value.IsWithin levels maxDigits := by
  by_contra hbeyond
  obtain ⟨failure, -, hfailure⟩ := parse_of_element_beyond (element_of_parse h) hbeyond
  rw [h] at hfailure
  contradiction

/-! ## The first character of an object -/

theorem Numeral.members?_value (numeral : Numeral) : numeral.value.members? = none := by
  unfold Numeral.value
  split <;> rfl

theorem Numeral.IsProper.head?_spelling {numeral : Numeral} (h : numeral.IsProper) :
    numeral.spelling.head? ≠ some '\x7b' := by
  obtain ⟨c, rest, hc, heq | heq⟩ := h.spelling_eq
  · rw [heq, List.head?_cons, Ne, Option.some.injEq]
    rintro rfl
    exact absurd hc (by decide)
  · rw [heq]
    simp

theorem Written.isSome_members?_iff (h : Written body value) :
    value.members?.isSome = true ↔ body.head? = some '\x7b' := by
  cases h with
  | word hword =>
      simp only [words, List.mem_cons, List.not_mem_nil, or_false, Prod.mk.injEq] at hword
      rcases hword with ⟨rfl, rfl⟩ | ⟨rfl, rfl⟩ | ⟨rfl, rfl⟩ | ⟨rfl, rfl⟩ | ⟨rfl, rfl⟩ | ⟨rfl, rfl⟩
      all_goals simp [members?]
  | @number numeral hproper => simp [numeral.members?_value, hproper.head?_spelling]
  | string _ => simp [members?]
  | emptyArray _ => simp [members?]
  | array _ => simp [members?]
  | emptyObject _ => simp [members?]
  | object _ => simp [members?]

theorem Written.exists_visible (h : Written body value) :
    ∃ c rest, body = c :: rest ∧ isSpace c = false := by
  obtain ⟨c, rest, rfl, hc | hc⟩ := h.exists_head
  · exact ⟨c, rest, rfl, (punctuation?_of_atom (.inl hc)).2.2⟩
  · refine ⟨c, rest, rfl, ?_⟩
    simp only [List.mem_cons, List.not_mem_nil, or_false] at hc
    rcases hc with rfl | rfl | rfl | rfl | rfl | rfl | rfl | rfl | rfl <;> decide

/-- Whatever comes behind a value, the first character that is no spacing tells whether the
value is an object. -/
theorem Element.isSome_members?_iff (h : Element text value) (more : List Char) :
    value.members?.isSome = true ↔
      ((text ++ more).dropWhile isSpace).head? = some '\x7b' := by
  cases h with
  | @mk before body after _ hbefore hbody hafter =>
      have hspaces : ∀ c ∈ before, isSpace c = true :=
        fun c hc => (isSpace_iff c).mpr (hbefore c hc)
      obtain ⟨c, rest, rfl, hc⟩ := hbody.exists_visible
      rw [hbody.isSome_members?_iff, List.append_assoc, List.append_assoc,
        List.dropWhile_append_of_pos hspaces, List.cons_append,
        List.dropWhile_cons_of_neg (by simp [hc]), List.head?_cons, List.head?_cons]

/-! ## The end of an object -/

section

variable {config : Config} {stack : List Frame} {rest : List Char}

/-- A written object is read as that object, also without a boundary after it. -/
theorem Written.leads_of_object (h : Written body value) (hobject : value.members?.isSome = true)
    (hconfig : config.Awaits levels stack) (hdepth : stack.length + value.depth ≤ levels)
    (hsize : ∀ n ∈ value.integers, n.natAbs < 10 ^ maxDigits) :
    config.Leads levels (body ++ rest) ⟨stack, .afterValue value⟩ rest := by
  cases h with
  | word hword => exact leads_word hword hconfig
  | @number numeral hproper =>
      rw [numeral.members?_value] at hobject
      contradiction
  | string _ => contradiction
  | emptyArray _ => contradiction
  | array _ => contradiction
  | emptyObject hspacing =>
      rw [depth, depthOfMembers] at hdepth
      exact leads_emptyObject hspacing hconfig (by omega)
  | object hmembers =>
      rw [depth] at hdepth
      rw [integers] at hsize
      rw [bracketed_append]
      apply (leads_openObject hconfig (by omega)).trans
      exact hmembers.leads (awaitsName_firstName stack) (by omega) hsize

theorem Element.leads_of_object (h : Element text value)
    (hobject : value.members?.isSome = true) (hconfig : config.Awaits levels stack)
    (hdepth : stack.length + value.depth ≤ levels)
    (hsize : ∀ n ∈ value.integers, n.natAbs < 10 ^ maxDigits) :
    config.Leads levels (text ++ rest) ⟨stack, .afterValue value⟩ rest := by
  cases h with
  | mk hbefore hbody hafter =>
      rw [List.append_assoc, List.append_assoc]
      apply (leads_spacing hbefore config _).trans
      apply (hbody.leads_of_object hobject hconfig hdepth hsize).trans
      exact leads_spacing hafter _ rest

theorem Config.Reads.isSpacing (h : Config.Reads levels ⟨[], .afterValue value⟩ rest whole) :
    IsSpacing rest := by
  obtain ⟨spacing, later, rfl, hspacing, ⟨rfl, -⟩ | htoken⟩ := h.cases
  · rwa [List.append_nil]
  · -- Every token behind a finished value is one too many.
    obtain ⟨position, spelling, token, later, next, rfl, -, -, hstep, -⟩ := htoken
    contradiction

end

/-- A text of a value can only be continued by spacing to the text of an object. -/
theorem isSpacing_of_parse_append (hfront : parse levels front = .ok value)
    (h : parse levels (front ++ more) = .ok whole) (hobject : whole.members?.isSome = true) :
    IsSpacing more := by
  have helement := element_of_parse hfront
  have hvalue : value.members?.isSome = true := by
    have hhead := ((element_of_parse h).isSome_members?_iff []).mp hobject
    rw [List.append_nil] at hhead
    exact (helement.isSome_members?_iff more).mpr hhead
  have hwithin := isWithin_of_parse hfront
  have hleads : Config.initial.Leads levels (front ++ more) ⟨[], .afterValue value⟩ more :=
    helement.leads_of_object hvalue (awaits_value []) (by simpa using hwithin.depth_le)
      hwithin.integers_lt
  obtain ⟨later, heq⟩ := hleads 0
  rw [parse_eq_resume, if_neg (element_of_parse h).not_byteOrderMark, heq] at h
  have hreads : Config.Reads levels ⟨[], .afterValue value⟩ more whole := ⟨later, h⟩
  exact hreads.isSpacing

end DependencyAudit.Json
