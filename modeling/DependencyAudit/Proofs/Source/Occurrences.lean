import DependencyAudit.Source.Specifier

/-!
# Occurrences of import statements

An occurrence is a place of a text at which a statement stands.  Occurrences may
overlap, and the scan reports some of them: at any place it meets it takes the one
occurrence that starts there, and it goes on where that one stops.  The list of
reported occurrences is written here by the recursion of the scan, with positions.
The main theorem says that it has the bodies the scan returns, that it does not
overlap, and that an occurrence outside it starts strictly inside one of it.
-/

namespace DependencyAudit.Source

/-- A statement within a text: the positions of its first character and of the
one after its last, and its body. -/
structure Occurrence where
  start : Nat
  stop : Nat
  body : List Char
  deriving DecidableEq, Repr

/-- The occurrence stands in a text whose first character has a given position. -/
def Occurrence.StandsIn (occurrence : Occurrence) (position : Nat) (text : List Char) :
    Prop :=
  ∃ before spelling after, text = before ++ (spelling ++ after) ∧
    occurrence.start = position + before.length ∧
    occurrence.stop = occurrence.start + spelling.length ∧
    Statement spelling occurrence.body

def Occurrence.IsIn (occurrence : Occurrence) (text : List Char) : Prop :=
  occurrence.StandsIn 0 text

/-- The occurrences that a scan reports, when the text starts at a position. -/
def occurrences (position : Nat) (text : List Char) : List Occurrence :=
  match text with
  | [] => []
  | c :: rest =>
    match _h : statement? (c :: rest) with
    | some (body, after) =>
      let stop := position + ((c :: rest).length - after.length)
      ⟨position, stop, body⟩ :: occurrences stop after
    | none => occurrences (position + 1) rest
termination_by text.length
decreasing_by
  · exact length_lt_of_statement? _h
  · simp

theorem occurrences_nil (position : Nat) : occurrences position [] = [] := by
  simp [occurrences]

theorem occurrences_of_statement? {position : Nat} {text body after : List Char}
    (h : statement? text = some (body, after)) :
    occurrences position text =
      ⟨position, position + (text.length - after.length), body⟩ ::
        occurrences (position + (text.length - after.length)) after := by
  cases text with
  | nil => simp [statement?, namedStatement?, requiredStatement?, afterWord?] at h
  | cons c rest =>
      rw [occurrences]
      split
      · next found later hfound =>
          rw [h, Option.some.injEq, Prod.mk.injEq] at hfound
          rw [← hfound.1, ← hfound.2]
      · next hnone =>
          rw [h] at hnone
          contradiction

theorem occurrences_cons_of_none {position : Nat} {c : Char} {rest : List Char}
    (h : statement? (c :: rest) = none) :
    occurrences position (c :: rest) = occurrences (position + 1) rest := by
  rw [occurrences]
  split
  · next found later hfound =>
      rw [h] at hfound
      contradiction
  · rfl

/-- The recursion of the scan as an induction principle: nothing is left, no
statement starts here, or one does and the scan goes on behind it. -/
theorem scan_induction {motive : List Char → Prop} (nil : motive [])
    (none : ∀ c rest, statement? (c :: rest) = none → motive rest → motive (c :: rest))
    (found : ∀ spelling body after, Statement spelling body →
      statement? (spelling ++ after) = some (body, after) → motive after →
      motive (spelling ++ after))
    (text : List Char) : motive text := by
  induction hlength : text.length using Nat.strongRecOn generalizing text with
  | ind length ih =>
      cases text with
      | nil => exact nil
      | cons c rest =>
          cases hstatement : statement? (c :: rest) with
          | none =>
              have hrest : motive rest := ih rest.length (by simp [← hlength]) rest rfl
              exact none c rest hstatement hrest
          | some result =>
              obtain ⟨body, after⟩ := result
              have hshorter := length_lt_of_statement? hstatement
              have hafter : motive after := ih after.length (by omega) after rfl
              obtain ⟨spelling, hspelling, htext⟩ := statement?_eq_some_iff.mp hstatement
              rw [htext] at hstatement ⊢
              exact found spelling body after hspelling hstatement hafter

theorem occurrences_append_of_statement? {position : Nat}
    {spelling body after : List Char}
    (h : statement? (spelling ++ after) = some (body, after)) :
    occurrences position (spelling ++ after) =
      ⟨position, position + spelling.length, body⟩ ::
        occurrences (position + spelling.length) after := by
  have hlength : (spelling ++ after).length - after.length = spelling.length := by
    rw [List.length_append]
    omega
  rw [occurrences_of_statement? h, hlength]

theorem map_body_occurrences (position : Nat) (text : List Char) :
    (occurrences position text).map Occurrence.body = bodies text := by
  induction text using scan_induction generalizing position with
  | nil => rw [occurrences_nil, bodies_nil, List.map_nil]
  | none c rest hnone ih =>
      rw [occurrences_cons_of_none hnone, bodies_cons_of_none hnone, ih]
  | found spelling body after hspelling hstatement ih =>
      rw [occurrences_append_of_statement? hstatement, bodies_of_statement? hstatement,
        List.map_cons, ih]

/-! ## Moving an occurrence along a text -/

theorem Occurrence.StandsIn.append_left {occurrence : Occurrence} {position : Nat}
    {front text : List Char} (h : occurrence.StandsIn (position + front.length) text) :
    occurrence.StandsIn position (front ++ text) := by
  obtain ⟨before, spelling, after, rfl, hstart, hstop, hstatement⟩ := h
  refine ⟨front ++ before, spelling, after, by simp, ?_, hstop, hstatement⟩
  rw [hstart, List.length_append]
  omega

theorem Occurrence.StandsIn.of_append_left {occurrence : Occurrence} {position : Nat}
    {front text : List Char} (h : occurrence.StandsIn position (front ++ text))
    (hfront : position + front.length ≤ occurrence.start) :
    occurrence.StandsIn (position + front.length) text := by
  obtain ⟨before, spelling, after, htext, hstart, hstop, hstatement⟩ := h
  have hprefix : front <+: before := by
    refine List.prefix_of_prefix_length_le (List.prefix_append front text) ?_ (by omega)
    rw [htext]
    exact List.prefix_append before _
  obtain ⟨gap, rfl⟩ := hprefix
  rw [List.append_assoc] at htext
  have hlength : (front ++ gap).length = front.length + gap.length := List.length_append
  exact ⟨gap, spelling, after, List.append_cancel_left htext, by omega, hstop, hstatement⟩

theorem Occurrence.StandsIn.statement? {occurrence : Occurrence} {position : Nat}
    {text : List Char} (h : occurrence.StandsIn position text)
    (hstart : occurrence.start = position) :
    ∃ spelling after, text = spelling ++ after ∧
      occurrence.stop = position + spelling.length ∧
      Source.statement? text = some (occurrence.body, after) := by
  obtain ⟨before, spelling, after, htext, hbefore, hstop, hstatement⟩ := h
  have hnil : before = [] := List.eq_nil_of_length_eq_zero (by omega)
  subst hnil
  rw [List.nil_append] at htext
  exact ⟨spelling, after, htext, by omega,
    statement?_eq_some_iff.mpr ⟨spelling, hstatement, htext⟩⟩

theorem Occurrence.StandsIn.position_le {occurrence : Occurrence} {position : Nat}
    {text : List Char} (h : occurrence.StandsIn position text) :
    position ≤ occurrence.start := by
  obtain ⟨before, spelling, after, htext, hstart, hstop, hstatement⟩ := h
  omega

theorem Occurrence.StandsIn.body_ne_nil {occurrence : Occurrence} {position : Nat}
    {text : List Char} (h : occurrence.StandsIn position text) : occurrence.body ≠ [] := by
  obtain ⟨before, spelling, after, htext, hstart, hstop, hstatement⟩ := h
  cases hstatement with
  | named word blanks body opening closing hword hsome hblanks hopening hbody hclosing =>
      exact hbody.ne_nil
  | required blanks body opening closing hblanks hopening hbody hclosing =>
      exact hbody.ne_nil

/-- At most one occurrence starts at a position. -/
theorem Occurrence.StandsIn.unique {occurrence other : Occurrence} {position : Nat}
    {text : List Char} (h : occurrence.StandsIn position text)
    (hother : other.StandsIn position text) (hstart : occurrence.start = other.start) :
    occurrence = other := by
  -- Both are moved to the text that begins at their common start, where reading
  -- has one result.
  obtain ⟨before, spelling, after, rfl, hbefore, hstop, hstatement⟩ := h
  have hhere := hother.of_append_left (by omega)
  obtain ⟨found, rest, htext, hfound, hread⟩ := hhere.statement? (by omega)
  have hreadOther : Source.statement? (spelling ++ after) = some (occurrence.body, after) :=
    statement?_eq_some_iff.mpr ⟨spelling, hstatement, rfl⟩
  rw [hreadOther, Option.some.injEq, Prod.mk.injEq] at hread
  obtain ⟨hbody, rfl⟩ := hread
  have hspelling : spelling = found := List.append_cancel_right htext
  obtain ⟨start, stop, body⟩ := occurrence
  obtain ⟨otherStart, otherStop, otherBody⟩ := other
  simp only [Occurrence.mk.injEq] at *
  subst hspelling
  exact ⟨hstart, by omega, hbody⟩

/-! ## What the scan reports -/

theorem standsIn_of_mem_occurrences {position : Nat} {text : List Char}
    {occurrence : Occurrence} (h : occurrence ∈ occurrences position text) :
    occurrence.StandsIn position text := by
  induction text using scan_induction generalizing position with
  | nil =>
      rw [occurrences_nil] at h
      contradiction
  | none c rest hnone ih =>
      rw [occurrences_cons_of_none hnone] at h
      have hrest : occurrence.StandsIn (position + [c].length) rest := ih h
      exact hrest.append_left
  | found spelling body after hspelling hstatement ih =>
      rw [occurrences_append_of_statement? hstatement, List.mem_cons] at h
      rcases h with rfl | h
      · exact ⟨[], spelling, after, rfl, rfl, rfl, hspelling⟩
      · exact (ih h).append_left

theorem pairwise_occurrences (position : Nat) (text : List Char) :
    (occurrences position text).Pairwise fun earlier later => earlier.stop ≤ later.start := by
  induction text using scan_induction generalizing position with
  | nil =>
      rw [occurrences_nil]
      exact List.Pairwise.nil
  | none c rest hnone ih =>
      rw [occurrences_cons_of_none hnone]
      exact ih (position + 1)
  | found spelling body after hspelling hstatement ih =>
      rw [occurrences_append_of_statement? hstatement, List.pairwise_cons]
      refine ⟨?_, ih _⟩
      intro later hlater
      exact (standsIn_of_mem_occurrences hlater).position_le

/-- Every occurrence is reported or starts strictly inside a reported one. -/
theorem mem_occurrences_or_inside {position : Nat} {text : List Char}
    {occurrence : Occurrence} (h : occurrence.StandsIn position text) :
    occurrence ∈ occurrences position text ∨
      ∃ reported ∈ occurrences position text,
        reported.start < occurrence.start ∧ occurrence.start < reported.stop := by
  induction text using scan_induction generalizing position with
  | nil =>
      obtain ⟨before, spelling, after, htext, hstart, hstop, hstatement⟩ := h
      have hlength := congrArg List.length htext
      have hpos := hstatement.length_pos
      simp only [List.length_nil, List.length_append] at hlength
      omega
  | none c rest hnone ih =>
      rw [occurrences_cons_of_none hnone]
      have hle := h.position_le
      by_cases hstart : occurrence.start = position
      · obtain ⟨spelling, after, htext, hstop, hread⟩ := h.statement? hstart
        rw [hnone] at hread
        contradiction
      · have hbehind : position + [c].length ≤ occurrence.start := by
          rw [List.length_singleton]
          omega
        have htext : occurrence.StandsIn position ([c] ++ rest) := h
        exact ih (htext.of_append_left hbehind)
  | found spelling body after hspelling hstatement ih =>
      rw [occurrences_append_of_statement? hstatement]
      have hle := h.position_le
      have hfirst : Occurrence.StandsIn ⟨position, position + spelling.length, body⟩ position
          (spelling ++ after) := ⟨[], spelling, after, rfl, rfl, rfl, hspelling⟩
      by_cases hstart : occurrence.start = position
      · refine Or.inl ?_
        rw [h.unique hfirst hstart]
        exact List.mem_cons_self ..
      · by_cases hinside : occurrence.start < position + spelling.length
        · exact Or.inr ⟨_, List.mem_cons_self .., by simp only; omega, by simpa using hinside⟩
        · rcases ih (h.of_append_left (by omega)) with hmem | ⟨reported, hmem, hbounds⟩
          · exact Or.inl (List.mem_cons_of_mem _ hmem)
          · exact Or.inr ⟨reported, List.mem_cons_of_mem _ hmem, hbounds⟩

/-- At most one occurrence starts at a position.  The specifiers of a text are the
bodies of occurrences that do not overlap, and every other occurrence starts
strictly inside one of these. -/
theorem specifiers_eq_reported_bodies (text : String) :
    (∀ occurrence other : Occurrence, occurrence.IsIn text.toList →
      other.IsIn text.toList → occurrence.start = other.start → occurrence = other) ∧
    ∃ reported : List Occurrence,
      specifiers text = reported.map (fun occurrence => String.ofList occurrence.body) ∧
      (∀ occurrence ∈ reported, occurrence.IsIn text.toList) ∧
      reported.Pairwise (fun earlier later => earlier.stop ≤ later.start) ∧
      (∀ specifier ∈ specifiers text, specifier ≠ "") ∧
      ∀ occurrence : Occurrence, occurrence.IsIn text.toList →
        occurrence ∈ reported ∨
          ∃ other ∈ reported,
            other.start < occurrence.start ∧ occurrence.start < other.stop := by
  have hspecifiers : specifiers text =
      (occurrences 0 text.toList).map fun occurrence => String.ofList occurrence.body := by
    rw [specifiers, ← map_body_occurrences 0, List.map_map]
    rfl
  have hreported : ∀ occurrence ∈ occurrences 0 text.toList,
      occurrence.IsIn text.toList :=
    fun occurrence hmem => standsIn_of_mem_occurrences hmem
  refine ⟨fun occurrence other h hother hstart => h.unique hother hstart,
    occurrences 0 text.toList, hspecifiers, hreported, pairwise_occurrences 0 _, ?_,
    fun occurrence h => mem_occurrences_or_inside h⟩
  intro specifier hmem hempty
  rw [hspecifiers] at hmem
  obtain ⟨occurrence, hoccurrence, rfl⟩ := List.mem_map.mp hmem
  have hbody : occurrence.body = [] := by
    simpa using congrArg String.toList hempty
  exact (hreported occurrence hoccurrence).body_ne_nil hbody

end DependencyAudit.Source
