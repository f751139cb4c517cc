import DependencyAudit.Proofs.Json.Soundness

/-!
# The limits of the reader

The reader gives up where one more container would be open than it has room for, and
where a whole number has too many digits.  A value that nests deeper or has a longer
number is therefore never read, however it is written.  The converse is about any text,
JSON or not: the reader gives up only when the text has that many opening brackets, or
that many digits in a row.
-/

namespace DependencyAudit.Json

open DependencyAudit.Text

variable {levels : Nat}

/-- A failure that does not tell whether the text is JSON. -/
def Failure.IsLimit : Failure → Prop
  | .malformed _ _ => False
  | .integerTooLong _ => True
  | .nestedTooDeep _ => True

/-- Reading a text on from a configuration ends at a limit. -/
def Config.Aborts (levels : Nat) (config : Config) (text : List Char) : Prop :=
  ∀ position, ∃ failure : Failure,
    failure.IsLimit ∧ config.resume levels position text = .error failure

theorem Config.Leads.aborts {config next : Config} {text rest : List Char}
    (h : config.Leads levels text next rest) (hnext : next.Aborts levels rest) :
    config.Aborts levels text := by
  intro position
  obtain ⟨later, heq⟩ := h position
  obtain ⟨failure, hlimit, herror⟩ := hnext later
  exact ⟨failure, hlimit, heq.trans herror⟩

/-! ## Values beyond the limits -/

/-- Whether the reader has room for a value, with so many containers open around it. -/
def HasRoom (levels opened depth : Nat) (integers : List Int) : Prop :=
  opened + depth ≤ levels ∧ ∀ n ∈ integers, n.natAbs < 10 ^ maxDigits

/-- The configuration expects a value with these containers open around it. -/
inductive Config.AwaitsValue : Config → List Frame → Prop
  | value {stack} : AwaitsValue ⟨stack, .value⟩ stack
  | firstItem {stack} : AwaitsValue ⟨stack, .firstItem⟩ (.array [] :: stack)

theorem Config.AwaitsValue.awaits {config : Config} {stack : List Frame}
    (h : config.AwaitsValue stack) : config.Awaits levels stack := by
  cases h with
  | value => exact awaits_value stack
  | firstItem => exact awaits_firstItem _

theorem Config.AwaitsValue.conclude_oversized {config : Config} {stack : List Frame}
    (h : config.AwaitsValue stack) (position digits : Nat) :
    config.conclude position (.oversized digits) = .error (.integerTooLong digits) := by
  cases h <;> rfl

section

variable {config : Config} {stack : List Frame} {rest : List Char}

theorem aborts_punctuation {c : Char} {token : Token} (container : Container)
    (hc : punctuation? c = some token) (hspace : isSpace c = false)
    (hstep : ∀ position, config.step levels position token = .error (.nestedTooDeep container)) :
    config.Aborts levels (c :: rest) := by
  intro position
  have hread : readToken position c rest = .ok (token, 1) := by rw [readToken, hc]
  refine ⟨.nestedTooDeep container, trivial, ?_⟩
  rw [resume_token hspace hread, hstep position]

theorem openContainer_eq_error (h : ¬ stack.length < levels) (container : Container)
    (expected : Expected) :
    openContainer levels stack container expected = .error (.nestedTooDeep container) := by
  rw [openContainer, if_neg h]

theorem aborts_openArray (hconfig : config.Awaits levels stack) (hfull : ¬ stack.length < levels) :
    config.Aborts levels ('[' :: rest) := by
  refine aborts_punctuation .array (by rfl) (by decide) ?_
  intro position
  rw [hconfig position .openArray (by simp), stepValue, openContainer_eq_error hfull]

theorem aborts_openObject (hconfig : config.Awaits levels stack) (hfull : ¬ stack.length < levels) :
    config.Aborts levels ('\x7b' :: rest) := by
  refine aborts_punctuation .object (by rfl) (by decide) ?_
  intro position
  rw [hconfig position .openObject (by simp), stepValue, openContainer_eq_error hfull]

theorem aborts_number {numeral : Numeral} (h : numeral.IsProper)
    (hconfig : config.AwaitsValue stack) (hrest : IsBoundary rest)
    (hwhole : numeral.isWhole = true) (hlong : maxDigits < numeral.whole.length) :
    config.Aborts levels (numeral.spelling ++ rest) := by
  have hread : readAtom (numeral.spelling ++ rest) = .error (.oversized numeral.whole.length) := by
    rw [readAtom_numeral h hrest.endsNumber, if_pos (by simp [hwhole, hlong])]
  have hhead : ∃ c more, numeral.spelling = c :: more ∧
      (c.isDigit = true ∨ c ∈ ['n', 't', 'f', 'N', 'I', '-']) := by
    obtain ⟨c, more, hc, heq | heq⟩ := h.spelling_eq
    · exact ⟨c, more, heq, Or.inl hc⟩
    · exact ⟨'-', c :: more, heq, Or.inr (by decide)⟩
  obtain ⟨c, more, hspelling, hc⟩ := hhead
  obtain ⟨hmark, hquote, hspace⟩ := punctuation?_of_atom hc
  rw [hspelling, List.cons_append] at hread ⊢
  intro position
  have htoken : readToken position c (more ++ rest) =
      .error (.oversized numeral.whole.length) := by
    rw [readToken, hmark]
    simp only [if_neg hquote]
    exact hread
  refine ⟨.integerTooLong numeral.whole.length, trivial, ?_⟩
  rw [resume_ending hspace htoken, hconfig.conclude_oversized]

end

theorem hasRoom_of_le {opened : Nat} (h : opened ≤ levels) : HasRoom levels opened 0 [] :=
  ⟨h, by simp⟩

theorem HasRoom.append {opened depth more : Nat} {integers others : List Int}
    (h : HasRoom levels opened depth integers) (hmore : HasRoom levels opened more others) :
    HasRoom levels opened (max depth more) (integers ++ others) := by
  refine ⟨by have := h.1; have := hmore.1; omega, ?_⟩
  intro n hn
  rw [List.mem_append] at hn
  cases hn with
  | inl hleft => exact h.2 n hleft
  | inr hright => exact hmore.2 n hright

mutual

/-- A written value for which there is no room is not read. -/
theorem Written.aborts {body : List Char} {value : Json} (h : Written body value)
    {config : Config} {stack : List Frame} {rest : List Char} (hconfig : config.AwaitsValue stack)
    (hrest : IsBoundary rest) (hopen : stack.length ≤ levels)
    (hbeyond : ¬ HasRoom levels stack.length value.depth value.integers) :
    config.Aborts levels (body ++ rest) := by
  cases h with
  | word hword =>
      simp only [words, List.mem_cons, List.not_mem_nil, or_false, Prod.mk.injEq] at hword
      rcases hword with ⟨rfl, rfl⟩ | ⟨rfl, rfl⟩ | ⟨rfl, rfl⟩ | ⟨rfl, rfl⟩ | ⟨rfl, rfl⟩ | ⟨rfl, rfl⟩
      all_goals exact absurd (hasRoom_of_le hopen) hbeyond
  | @number numeral hproper =>
      rw [numeral.depth_value] at hbeyond
      have hlarge : ∃ n ∈ numeral.value.integers, 10 ^ maxDigits ≤ n.natAbs := by
        by_contra hsmall
        push Not at hsmall
        exact hbeyond ⟨hopen, hsmall⟩
      obtain ⟨n, hn, hle⟩ := hlarge
      obtain ⟨hwhole, hlt⟩ := hproper.natAbs_lt hn
      have hlong : maxDigits < numeral.whole.length :=
        (Nat.pow_lt_pow_iff_right (by decide)).mp (Nat.lt_of_le_of_lt hle hlt)
      exact aborts_number hproper hconfig hrest hwhole hlong
  | string hquotes => exact absurd (hasRoom_of_le hopen) hbeyond
  | emptyArray hspacing =>
      rw [bracketed_append]
      refine aborts_openArray hconfig.awaits fun hfree => hbeyond ?_
      exact ⟨by rw [depth, depthOfItems]; omega, by simp [integers, integersOfItems]⟩
  | array hitems =>
      rw [bracketed_append]
      by_cases hfree : stack.length < levels
      · apply (leads_openArray hconfig.awaits hfree).aborts
        refine hitems.aborts .firstItem hfree fun hroom => hbeyond ?_
        rw [depth, integers]
        exact ⟨by have := hroom.1; omega, hroom.2⟩
      · exact aborts_openArray hconfig.awaits hfree
  | emptyObject hspacing =>
      rw [bracketed_append]
      refine aborts_openObject hconfig.awaits fun hfree => hbeyond ?_
      exact ⟨by rw [depth, depthOfMembers]; omega, by simp [integers, integersOfMembers]⟩
  | object hmembers =>
      rw [bracketed_append]
      by_cases hfree : stack.length < levels
      · apply (leads_openObject hconfig.awaits hfree).aborts
        refine hmembers.aborts (awaitsName_firstName stack) hfree fun hroom => hbeyond ?_
        rw [depth, integers]
        exact ⟨by have := hroom.1; omega, hroom.2⟩
      · exact aborts_openObject hconfig.awaits hfree

theorem Element.aborts {text : List Char} {value : Json} (h : Element text value)
    {config : Config} {stack : List Frame} {rest : List Char} (hconfig : config.AwaitsValue stack)
    (hrest : IsBoundary rest) (hopen : stack.length ≤ levels)
    (hbeyond : ¬ HasRoom levels stack.length value.depth value.integers) :
    config.Aborts levels (text ++ rest) := by
  cases h with
  | mk hbefore hbody hafter =>
      rw [List.append_assoc, List.append_assoc]
      apply (leads_spacing hbefore config _).aborts
      exact hbody.aborts hconfig (hrest.append hafter) hopen hbeyond

theorem WrittenItems.aborts {text : List Char} {values : List Json} (h : WrittenItems text values)
    {config : Config} {items : List Json} {outer : List Frame} {rest : List Char}
    (hconfig : config.AwaitsValue (.array items :: outer)) (hopen : outer.length + 1 ≤ levels)
    (hbeyond : ¬ HasRoom levels (outer.length + 1) (depthOfItems values) (integersOfItems values)) :
    config.Aborts levels (text ++ ']' :: rest) := by
  cases h with
  | @last text value hvalue =>
      rw [depthOfItems, depthOfItems, integersOfItems, integersOfItems, List.append_nil,
        Nat.max_zero] at hbeyond
      exact hvalue.aborts hconfig (by simp [IsBoundary]) hopen hbeyond
  | @more text value later values hvalue hvalues =>
      rw [depthOfItems, integersOfItems] at hbeyond
      rw [List.append_assoc, List.cons_append]
      by_cases hroom : HasRoom levels (outer.length + 1) value.depth value.integers
      · -- There is room for the first value, so it is one of the others that has none.
        apply (hvalue.leads hconfig.awaits (by simp [IsBoundary]) hroom.1 hroom.2).aborts
        apply leads_comma.aborts
        exact hvalues.aborts .value hopen fun hothers => hbeyond (hroom.append hothers)
      · exact hvalue.aborts hconfig (by simp [IsBoundary]) hopen hroom

theorem WrittenMembers.aborts {text : List Char} {added : List (CodeText × Json)}
    (h : WrittenMembers text added) {config : Config} {members : List (CodeText × Json)}
    {outer : List Frame} {rest : List Char} (hconfig : config.AwaitsName levels outer members)
    (hopen : outer.length + 1 ≤ levels)
    (hbeyond :
      ¬ HasRoom levels (outer.length + 1) (depthOfMembers added) (integersOfMembers added)) :
    config.Aborts levels (text ++ '\x7d' :: rest) := by
  cases h with
  | @last before body after text name value hbefore hname hafter hvalue =>
      rw [depthOfMembers, depthOfMembers, integersOfMembers, integersOfMembers, List.append_nil,
        Nat.max_zero] at hbeyond
      rw [List.append_assoc, List.cons_append]
      apply (leads_name hbefore hname hafter hconfig).aborts
      exact hvalue.aborts .value (by simp [IsBoundary]) hopen hbeyond
  | @more before body after text name value later added hbefore hname hafter hvalue hmembers =>
      rw [depthOfMembers, integersOfMembers] at hbeyond
      have hspelled : before ++ '"' :: body ++ '"' :: after ++ ':' :: text ++ ',' :: later ++
          '\x7d' :: rest =
          before ++ '"' :: body ++ '"' :: after ++
            ':' :: (text ++ ',' :: (later ++ '\x7d' :: rest)) := by
        simp
      rw [hspelled]
      apply (leads_name hbefore hname hafter hconfig).aborts
      by_cases hroom : HasRoom levels (outer.length + 1) value.depth value.integers
      · apply (hvalue.leads (awaits_value (.object members name :: outer)) (by simp [IsBoundary])
          hroom.1 hroom.2).aborts
        apply leads_memberComma.aborts
        exact hmembers.aborts (awaitsName_name outer _) hopen
          fun hothers => hbeyond (hroom.append hothers)
      · exact hvalue.aborts .value (by simp [IsBoundary]) hopen hroom

end

/-- A value beyond the limits is not read, however it is written. -/
theorem parse_of_element_beyond {text : List Char} {value : Json} (h : Element text value)
    (hbeyond : ¬ value.IsWithin levels maxDigits) :
    ∃ failure : Failure, failure.IsLimit ∧ parse levels text = .error failure := by
  have haborts : Config.initial.Aborts levels (text ++ []) := by
    refine h.aborts .value (by simp [IsBoundary]) (Nat.zero_le levels) fun hroom => hbeyond ?_
    exact ⟨by simpa using hroom.1, hroom.2⟩
  rw [List.append_nil] at haborts
  rw [parse_eq_resume, if_neg h.not_byteOrderMark]
  exact haborts 0

/-! ## Texts at a limit -/

def isOpening (c : Char) : Bool := c = '[' || c = '\x7b'

/-- The failure has its reason in a text, in front of which so many containers are open: at
a limit, the text would open too many more, or it has a run of too many digits. -/
inductive Failure.HasReason (levels opened : Nat) (text : List Char) : Failure → Prop
  | malformed {problem position} : HasReason levels opened text (.malformed problem position)
  | digits {run : List Char} : run <:+: text → IsDigits run → maxDigits < run.length →
      HasReason levels opened text (.integerTooLong run.length)
  | depth {container} : levels < opened + text.countP isOpening →
      HasReason levels opened text (.nestedTooDeep container)

theorem Failure.HasReason.append {opened more : Nat} {front text : List Char} {failure : Failure}
    (h : failure.HasReason levels opened text) (hopened : opened ≤ more + front.countP isOpening) :
    failure.HasReason levels more (front ++ text) := by
  cases h with
  | malformed => exact .malformed
  | digits hrun hdigits hlong =>
      exact .digits (hrun.trans (List.suffix_append front text).isInfix) hdigits hlong
  | depth hdepth =>
      refine .depth ?_
      rw [List.countP_append]
      omega

/-- The containers that are open, the one whose first entry is expected included. -/
def Config.opened (config : Config) : Nat :=
  match config.expected with
  | .value | .afterValue _ => config.stack.length
  | .firstItem | .firstName | .name _ | .colon _ _ => config.stack.length + 1

def Token.opens : Token → Nat
  | .openArray | .openObject => 1
  | _ => 0

theorem Lexeme.opens_le {spelling : List Char} {token : Token} (h : Lexeme spelling token) :
    token.opens ≤ spelling.countP isOpening := by
  cases h <;> simp [Token.opens, isOpening]

section

variable {stack : List Frame} {position : Nat} {token : Token} {failure : Failure}
variable {config next : Config} {members : List (CodeText × Json)}

theorem opened_of_stepValue (h : stepValue levels stack position token = .ok next) :
    next.opened ≤ stack.length + token.opens := by
  cases token with
  | openArray => exact (openContainer_cases h ▸ le_rfl)
  | openObject => exact (openContainer_cases h ▸ le_rfl)
  | string value => cases h; exact le_rfl
  | atom value => cases h; exact le_rfl
  | closeArray => contradiction
  | closeObject => contradiction
  | comma => contradiction
  | colon => contradiction

theorem opened_of_stepName (h : stepName stack members position token = .ok next) :
    next.opened = stack.length + 1 := by
  obtain ⟨name, -, rfl⟩ := stepName_eq_ok h
  rfl

theorem opened_of_stepAfterValue {value : Json}
    (h : stepAfterValue stack value position token = .ok next) : next.opened ≤ stack.length := by
  unfold stepAfterValue at h
  split at h
  · contradiction
  · split at h
    · cases h; simp [Config.opened]
    · cases h; simp [Config.opened]
    · contradiction
  · split at h
    · cases h; simp [Config.opened]
    · cases h; simp [Config.opened]
    · contradiction

/-- One step opens at most what its token opens. -/
theorem opened_of_step (h : config.step levels position token = .ok next) :
    next.opened ≤ config.opened + token.opens := by
  obtain ⟨stack, expected⟩ := config
  cases expected with
  | value => exact opened_of_stepValue h
  | firstItem =>
      rcases firstItem_cases h with ⟨-, rfl⟩ | hstep
      · simp only [Config.opened]
        omega
      · exact opened_of_stepValue hstep
  | firstName =>
      rcases firstName_cases h with ⟨-, rfl⟩ | hstep
      · simp only [Config.opened]
        omega
      · rw [opened_of_stepName hstep]
        exact Nat.le_add_right _ _
  | name members =>
      rw [opened_of_stepName h]
      exact Nat.le_add_right _ _
  | colon members name =>
      simp only [Config.step] at h
      split at h
      · cases h
        exact Nat.le_add_right _ _
      · contradiction
  | afterValue value => exact (opened_of_stepAfterValue h).trans (Nat.le_add_right _ _)

theorem openContainer_eq_error_cases {container : Container} {expected : Expected}
    (h : openContainer levels stack container expected = .error failure) :
    failure = .nestedTooDeep container ∧ levels ≤ stack.length := by
  unfold openContainer at h
  split at h
  · contradiction
  · next hfull => exact ⟨(Except.error.inj h).symm, Nat.not_lt.mp hfull⟩

/-- The step reports a malformed text, or opens a container where the most are open. -/
def StepFails (levels opened : Nat) (token : Token) (failure : Failure) : Prop :=
  (∃ problem place, failure = .malformed problem place) ∨
    (∃ container, failure = .nestedTooDeep container) ∧ levels ≤ opened ∧ token.opens = 1

theorem stepFails_of_stepValue (h : stepValue levels stack position token = .error failure) :
    StepFails levels stack.length token failure := by
  cases token with
  | openArray =>
      obtain ⟨heq, hfull⟩ := openContainer_eq_error_cases h
      exact Or.inr ⟨⟨_, heq⟩, hfull, rfl⟩
  | openObject =>
      obtain ⟨heq, hfull⟩ := openContainer_eq_error_cases h
      exact Or.inr ⟨⟨_, heq⟩, hfull, rfl⟩
  | string value => contradiction
  | atom value => contradiction
  | closeArray => exact Or.inl ⟨_, _, (Except.error.inj h).symm⟩
  | closeObject => exact Or.inl ⟨_, _, (Except.error.inj h).symm⟩
  | comma => exact Or.inl ⟨_, _, (Except.error.inj h).symm⟩
  | colon => exact Or.inl ⟨_, _, (Except.error.inj h).symm⟩

theorem stepFails_of_stepName (h : stepName stack members position token = .error failure)
    (opened : Nat) : StepFails levels opened token failure := by
  unfold stepName at h
  split at h
  · contradiction
  · exact Or.inl ⟨_, _, (Except.error.inj h).symm⟩

theorem stepFails_of_stepAfterValue {value : Json}
    (h : stepAfterValue stack value position token = .error failure) (opened : Nat) :
    StepFails levels opened token failure := by
  unfold stepAfterValue at h
  split at h
  · exact Or.inl ⟨_, _, (Except.error.inj h).symm⟩
  · split at h
    · contradiction
    · contradiction
    · exact Or.inl ⟨_, _, (Except.error.inj h).symm⟩
  · split at h
    · contradiction
    · contradiction
    · exact Or.inl ⟨_, _, (Except.error.inj h).symm⟩

theorem stepFails_of_step (h : config.step levels position token = .error failure) :
    StepFails levels config.opened token failure := by
  obtain ⟨stack, expected⟩ := config
  cases expected with
  | value => exact stepFails_of_stepValue h
  | firstItem =>
      simp only [Config.step] at h
      split at h
      · contradiction
      · exact stepFails_of_stepValue h
  | firstName =>
      simp only [Config.step] at h
      split at h
      · contradiction
      · exact stepFails_of_stepName h _
  | name members => exact stepFails_of_stepName h _
  | colon members name =>
      simp only [Config.step] at h
      split at h
      · contradiction
      · exact Or.inl ⟨_, _, (Except.error.inj h).symm⟩
  | afterValue value => exact stepFails_of_stepAfterValue h _

theorem failureOf_eq (expected : Problem) (position : Nat) (ending : Ending) :
    ∃ problem place, failureOf expected position ending = .malformed problem place := by
  cases ending <;> exact ⟨_, _, rfl⟩

/-- Where no further token can be read, the limit on digits is the only one. -/
theorem conclude_eq_error {ending : Ending} (h : config.conclude position ending = .error failure) :
    (∃ problem place, failure = .malformed problem place) ∨
      ∃ digits, ending = .oversized digits ∧ failure = .integerTooLong digits := by
  obtain ⟨stack, expected⟩ := config
  cases expected with
  | value | firstItem =>
      cases ending with
      | oversized digits => exact Or.inr ⟨digits, rfl, (Except.error.inj h).symm⟩
      | finished => exact Or.inl ⟨_, _, (Except.error.inj h).symm⟩
      | stray => exact Or.inl ⟨_, _, (Except.error.inj h).symm⟩
      | brokenText problem place => exact Or.inl ⟨_, _, (Except.error.inj h).symm⟩
  | firstName | name =>
      obtain ⟨problem, place, heq⟩ := failureOf_eq .nameExpected position ending
      exact Or.inl ⟨problem, place, (Except.error.inj h).symm.trans heq⟩
  | colon members name => exact Or.inl ⟨_, _, (Except.error.inj h).symm⟩
  | afterValue value =>
      simp only [Config.conclude] at h
      split at h
      · contradiction
      · exact Or.inl ⟨_, _, (Except.error.inj h).symm⟩
      · exact Or.inl ⟨_, _, (Except.error.inj h).symm⟩

end

theorem exists_run_of_readToken {position digits : Nat} {c : Char} {rest : List Char}
    (h : readToken position c rest = .error (.oversized digits)) :
    ∃ run, run <:+: c :: rest ∧ IsDigits run ∧ run.length = digits ∧ maxDigits < run.length := by
  rcases readToken_eq_error h with ⟨problem, place, hbroken⟩ | hatom
  · contradiction
  · rcases readAtom_eq_error hatom with hstray | ⟨hwhole, hlong, hdigits⟩
    · contradiction
    · obtain ⟨hproper, hprefix⟩ := Numeral.read_spec hwhole
      rw [Ending.oversized.injEq] at hdigits
      have hrun : IsDigits (Numeral.read (c :: rest)).whole := by
        cases hproper.whole with
        | inl hzero =>
            rw [hzero]
            exact ⟨by simp, by simp⟩
        | inr hnonzero => exact hnonzero.1
      refine ⟨_, ?_, hrun, hdigits.symm, hlong⟩
      refine List.IsInfix.trans ?_ hprefix.isInfix
      exact ⟨_, _, (List.append_assoc ..).symm⟩

theorem hasReason_of_readToken {config : Config} {position : Nat} {c : Char} {rest : List Char}
    {ending : Ending} {failure : Failure} (hread : readToken position c rest = .error ending)
    (h : config.conclude position ending = .error failure) (opened : Nat) :
    failure.HasReason levels opened (c :: rest) := by
  rcases conclude_eq_error h with ⟨problem, place, rfl⟩ | ⟨digits, rfl, rfl⟩
  · exact .malformed
  · obtain ⟨run, hrun, hdigits, rfl, hlong⟩ := exists_run_of_readToken hread
    exact .digits hrun hdigits hlong

theorem hasReason_of_step {config : Config} {position : Nat} {spelling : List Char} {token : Token}
    {failure : Failure} (hlexeme : Lexeme spelling token)
    (h : config.step levels position token = .error failure) (rest : List Char) :
    failure.HasReason levels config.opened (spelling ++ rest) := by
  rcases stepFails_of_step h with ⟨problem, place, rfl⟩ | ⟨⟨container, rfl⟩, hfull, hone⟩
  · exact .malformed
  · have hopens := hlexeme.opens_le
    refine .depth ?_
    rw [List.countP_append]
    omega

/-- Whatever ends the reading of a text, it has its reason there.  The induction is on the
length of the text, and counts what the tokens taken off it have opened. -/
theorem hasReason_of_resume {config : Config} {position : Nat} {text : List Char}
    {failure : Failure} (h : config.resume levels position text = .error failure) :
    failure.HasReason levels config.opened text := by
  induction hn : text.length using Nat.strongRecOn generalizing config position text with
  | ind n ih =>
      cases text with
      | nil =>
          rw [resume_nil] at h
          rcases conclude_eq_error h with ⟨problem, place, rfl⟩ | ⟨digits, hdigits, -⟩
          · exact .malformed
          · contradiction
      | cons c rest =>
          cases hspace : isSpace c with
          | true =>
              rw [resume_space hspace] at h
              have hrest := ih rest.length (by simp [← hn]) h rfl
              have hlonger : failure.HasReason levels config.opened ([c] ++ rest) :=
                hrest.append (Nat.le_add_right _ _)
              exact hlonger
          | false =>
              cases hread : readToken position c rest with
              | error ending =>
                  rw [resume_ending hspace hread] at h
                  exact hasReason_of_readToken hread h config.opened
              | ok result =>
                  obtain ⟨token, length⟩ := result
                  obtain ⟨spelling, hlexeme, hne, hsplit⟩ := lexeme_of_readToken hread
                  rw [resume_token hspace hread] at h
                  rw [hsplit] at hn ⊢
                  cases hstep : config.step levels position token with
                  | error stop =>
                      simp only [hstep, Except.error.injEq] at h
                      exact h ▸ hasReason_of_step hlexeme hstep _
                  | ok next =>
                      simp only [hstep] at h
                      have hpos : 0 < spelling.length := List.length_pos_iff.mpr hne
                      rw [List.length_append] at hn
                      have hrest := ih _ (by omega) h rfl
                      have hopens := hlexeme.opens_le
                      refine hrest.append ((opened_of_step hstep).trans ?_)
                      omega

theorem hasReason_of_parse {text : List Char} {failure : Failure}
    (h : parse levels text = .error failure) : failure.HasReason levels 0 text := by
  rw [parse_eq_resume] at h
  split at h
  · cases h
    exact .malformed
  · exact hasReason_of_resume h

end DependencyAudit.Json
