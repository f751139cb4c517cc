import DependencyAudit.Proofs.CommandLine.Values

/-!
# Reading the command line in one pass

The tokens of a command line are first split, without a look at what follows a
setting, and the known ones are then marked and read.  Both together are one pass from
the left: a setting takes the next token when that can be a value, and ends the pass
when it cannot.  The two phases agree because the first always keeps the token after a
setting, and the second either takes it or stops there.
-/

namespace DependencyAudit.CommandLine

/-! ## One pass -/

/-- The setting that a token of two dashes and an equals sign assigns, and its value. -/
def assigned? (token : String) : Option (Setting × String) :=
  if startsWith token "--" then
    match assignment? token with
    | some (name, value) => (Setting.ofName? name).map fun setting => (setting, value)
    | none => none
  else none

/-- The options after a pass over tokens from the left, and the tokens it skips. -/
def scan (options : Options) : List String → Except OptionError (Options × List String)
  | [] => .ok (options, [])
  | token :: rest =>
    match Flag.ofName? token, Setting.ofName? token with
    | some flag, _ => scan (options.setFlag flag) rest
    | none, some setting =>
      match rest with
      | [] => .error (.valueMissing (label setting.spellings))
      | value :: later =>
        if IsValueLike value then
          match options.set setting value with
          | .error error => .error error
          | .ok next => scan next later
        else .error (.valueMissing (label setting.spellings))
    | none, none =>
      match assigned? token with
      | some (setting, value) =>
        match options.set setting value with
        | .error error => .error error
        | .ok next => scan next rest
      | none =>
        match scan options rest with
        | .error error => .error error
        | .ok (final, skipped) => .ok (final, token :: skipped)

theorem Flag.mem_spellings_of_ofName? {name : String} {flag : Flag}
    (h : Flag.ofName? name = some flag) : name ∈ flag.spellings := by
  simpa using List.find?_some h

theorem Setting.mem_spellings_of_ofName? {name : String} {setting : Setting}
    (h : Setting.ofName? name = some setting) : name ∈ setting.spellings := by
  simpa using List.find?_some h

theorem isFlag_iff (token : String) : isFlag token = true ↔ (Flag.ofName? token).isSome = true := by
  simp [isFlag, flagOptions, Flag.ofName?, List.find?_isSome]

theorem isSetting_iff (token : String) :
    isSetting token = true ↔ (Setting.ofName? token).isSome = true := by
  simp [isSetting, settingOptions, Setting.ofName?, List.find?_isSome]

/-- No spelling is that of a flag and of a setting. -/
theorem Flag.ofName?_eq_none {setting : Setting} {name : String}
    (h : name ∈ setting.spellings) : Flag.ofName? name = none := by
  have hall : ∀ name ∈ setting.spellings, Flag.ofName? name = none := by
    cases setting <;> decide
  exact hall name h

theorem Setting.ofName?_of_mem_spellings {setting : Setting} {name : String}
    (h : name ∈ setting.spellings) : Setting.ofName? name = some setting := by
  have hall : ∀ name ∈ setting.spellings, Setting.ofName? name = some setting := by
    cases setting <;> decide
  exact hall name h

theorem Setting.mem_options {setting : Setting} {name : String} (h : name ∈ setting.spellings) :
    name ∈ vocabulary.options := by
  have hall : ∀ name ∈ setting.spellings, name ∈ vocabulary.options := by
    cases setting <;> decide
  exact hall name h

theorem Flag.mem_options {flag : Flag} {name : String} (h : name ∈ flag.spellings) :
    name ∈ vocabulary.options := by
  have hall : ∀ name ∈ flag.spellings, name ∈ vocabulary.options := by
    cases flag <;> decide
  exact hall name h

theorem equals_not_mem_spelling : ∀ name ∈ vocabulary.options, '=' ∉ name.toList := by
  decide

theorem startsWith_append {text start : String} (h : startsWith text start = true)
    (more : String) : startsWith (text ++ more) start = true := by
  rw [startsWith, List.isPrefixOf_iff_prefix] at h ⊢
  rw [String.toList_append]
  exact h.trans (List.prefix_append ..)

/-- An assignment is a setting of two dashes, an equals sign and the value, which may be
empty. -/
theorem assigned?_eq_some_iff {token value : String} {setting : Setting} :
    assigned? token = some (setting, value) ↔
      ∃ name ∈ setting.spellings, startsWith name "--" = true ∧ token = name ++ "=" ++ value := by
  constructor
  · intro h
    unfold assigned? at h
    split at h
    · next hdashes =>
        split at h
        · next name text hassignment =>
            obtain ⟨htoken, -⟩ := assignment?_eq_some_iff.mp hassignment
            obtain ⟨found, hfound, heq⟩ := Option.map_eq_some_iff.mp h
            rw [Prod.mk.injEq] at heq
            obtain ⟨rfl, rfl⟩ := heq
            have hname := Setting.mem_spellings_of_ofName? hfound
            refine ⟨name, hname, ?_, htoken⟩
            -- The name is long enough to hold both dashes of the token.
            have hlength : ['-', '-'].length ≤ name.toList.length := by
              rcases spelling_shape name (Setting.mem_options hname) with htwo | hlong
              · exact htwo.ge
              · exact hlong.length_le
            rw [startsWith, List.isPrefixOf_iff_prefix] at hdashes ⊢
            rw [htoken, String.toList_append, String.toList_append, List.append_assoc] at hdashes
            exact List.prefix_of_prefix_length_le hdashes (List.prefix_append ..) hlength
        · contradiction
    · contradiction
  · rintro ⟨name, hname, hdashes, rfl⟩
    have hplain := equals_not_mem_spelling name (Setting.mem_options hname)
    have hassignment := assignment?_eq_some_iff.mpr ⟨(rfl : name ++ "=" ++ value = _), hplain⟩
    have hstart : startsWith (name ++ "=" ++ value) "--" = true :=
      startsWith_append (startsWith_append hdashes "=") value
    simp only [assigned?, if_pos hstart, hassignment, Setting.ofName?_of_mem_spellings hname,
      Option.map_some]

theorem isAssignment_iff (token : String) :
    isAssignment token = true ↔ (assigned? token).isSome = true := by
  unfold isAssignment assigned?
  cases startsWith token "--" with
  | false => simp
  | true =>
      cases assignment? token with
      | none => simp
      | some found => simp [isSetting_iff]

/-! ## The marks of known tokens -/

theorem classify_spelling : ∀ name ∈ vocabulary.options,
    classify vocabulary name = .option name none := by
  decide

theorem classify_assignment {setting : Setting} {name : String} (hname : name ∈ setting.spellings)
    (value : String) : classify vocabulary (name ++ "=" ++ value) = .option name (some value) := by
  have hknown := Setting.mem_options hname
  have hplain := equals_not_mem_spelling name hknown
  have hassignment := assignment?_eq_some_iff.mpr ⟨(rfl : name ++ "=" ++ value = _), hplain⟩
  have hequals : '=' ∈ (name ++ "=" ++ value).toList := by simp
  have hdash : ¬ (!startsWith (name ++ "=" ++ value) "-") = true := by
    have hall : ∀ name ∈ vocabulary.options, startsWith name "-" = true := by decide
    rw [startsWith_append (startsWith_append (hall name hknown) "=") value]
    decide
  have hother : ¬ vocabulary.options.contains (name ++ "=" ++ value) = true := by
    intro hmem
    exact equals_not_mem_spelling _ (List.contains_iff_mem.mp hmem) hequals
  have hlong : name ++ "=" ++ value ≠ "-" := by
    intro heq
    rw [heq] at hequals
    exact absurd hequals (by decide)
  rw [classify, if_neg hdash, if_neg hother, if_neg hlong, hassignment,
    Option.filter_some, if_pos (List.contains_iff_mem.mpr hknown)]

theorem mark_cons {token : String} (h : token ≠ "--") (rest : List String) :
    mark vocabulary (token :: rest) =
      ⟨token, classify vocabulary token⟩ :: mark vocabulary rest := by
  rw [mark, if_neg h]

theorem mark_spelling {name : String} (h : name ∈ vocabulary.options) (rest : List String) :
    mark vocabulary (name :: rest) = ⟨name, .option name none⟩ :: mark vocabulary rest := by
  have hseparator : "--" ∉ vocabulary.options := by decide
  rw [mark_cons (fun heq => hseparator (heq ▸ h)), classify_spelling name h]

theorem mark_assignment {setting : Setting} {name : String} (hname : name ∈ setting.spellings)
    (value : String) (rest : List String) :
    mark vocabulary ((name ++ "=" ++ value) :: rest) =
      ⟨name ++ "=" ++ value, .option name (some value)⟩ :: mark vocabulary rest := by
  have hlong : name ++ "=" ++ value ≠ "--" := by
    intro heq
    have hequals : '=' ∈ (name ++ "=" ++ value).toList := by simp
    rw [heq] at hequals
    exact absurd hequals (by decide)
  rw [mark_cons hlong, classify_assignment hname]

/-! ## The two phases -/

variable {setting : Setting} {flag : Flag} {name : String}

theorem applyOption_setting (hname : name ∈ setting.spellings) (options : Options)
    (value : String) : applyOption options name (some value) = options.set setting value := by
  simp only [applyOption, Flag.ofName?_eq_none hname, Setting.ofName?_of_mem_spellings hname]

theorem labelOf_setting (hname : name ∈ setting.spellings) :
    labelOf name = label setting.spellings := by
  simp only [labelOf, Flag.ofName?_eq_none hname, Setting.ofName?_of_mem_spellings hname]

theorem takesValue_setting (hname : name ∈ setting.spellings) : actions.takesValue name = true := by
  rw [actions, isSetting_iff, Setting.ofName?_of_mem_spellings hname]
  rfl

theorem missing_setting (hname : name ∈ setting.spellings) :
    actions.missing name = .valueMissing (label setting.spellings) :=
  congrArg OptionError.valueMissing (labelOf_setting hname)

theorem consume_flag (hflag : Flag.ofName? name = some flag) (options : Options)
    (words : List Word) : actions.consume options (⟨name, .option name none⟩ :: words) =
      actions.consume (options.setFlag flag) words := by
  have halone : ¬ actions.takesValue name = true := by
    intro htakes
    obtain ⟨setting, hsetting⟩ := Option.isSome_iff_exists.mp ((isSetting_iff name).mp htakes)
    rw [Flag.ofName?_eq_none (Setting.mem_spellings_of_ofName? hsetting)] at hflag
    contradiction
  have happly : actions.apply options name none = .ok (options.setFlag flag) := by
    simp only [actions, applyOption, hflag]
  rw [Actions.consume.eq_def]
  simp only [if_neg halone, happly]

theorem consume_assignment (hname : name ∈ setting.spellings) (options : Options)
    (token value : String) (words : List Word) :
    actions.consume options (⟨token, .option name (some value)⟩ :: words) =
      match options.set setting value with
      | .error error => .error error
      | .ok next => actions.consume next words := by
  have happly : actions.apply options name (some value) = options.set setting value :=
    applyOption_setting hname options value
  rw [Actions.consume, happly]
  cases options.set setting value <;> rfl

/-- A setting takes the word after it if that is an operand, and else ends the pass. -/
theorem consume_setting (hname : name ∈ setting.spellings) (options : Options)
    (value : String) (rest : List String) :
    actions.consume options (⟨name, .option name none⟩ :: mark vocabulary (value :: rest)) =
      if IsValueLike value then
        match options.set setting value with
        | .error error => .error error
        | .ok next => actions.consume next (mark vocabulary rest)
      else .error (.valueMissing (label setting.spellings)) := by
  have htakes := takesValue_setting hname
  have hmissing := missing_setting hname
  have happly : actions.apply options name (some value) = options.set setting value :=
    applyOption_setting hname options value
  by_cases hseparator : value = "--"
  · have hrefused : ¬ IsValueLike value := by
      rw [hseparator]
      exact not_isValueLike_separator
    rw [if_neg hrefused, hseparator, mark, if_pos rfl, Actions.consume, if_pos htakes, hmissing]
    simp
  · rw [mark_cons hseparator]
    by_cases hvalue : IsValueLike value
    · rw [if_pos hvalue, (classify_eq_operand_iff value).mpr hvalue, Actions.consume,
        if_pos htakes, happly]
      cases options.set setting value <;> rfl
    · rw [if_neg hvalue, Actions.consume, if_pos htakes, hmissing]
      intro text later heq
      rw [List.cons.injEq, Word.mk.injEq] at heq
      exact hvalue ((classify_eq_operand_iff value).mp heq.1.2)

theorem consume_last_setting (hname : name ∈ setting.spellings) (options : Options) :
    actions.consume options [⟨name, .option name none⟩] =
      .error (.valueMissing (label setting.spellings)) := by
  rw [Actions.consume, if_pos (takesValue_setting hname), missing_setting hname]
  simp

theorem ofName?_eq_some (h : isSetting name = true) :
    ∃ setting, Setting.ofName? name = some setting ∧ name ∈ setting.spellings := by
  obtain ⟨setting, hfound⟩ := Option.isSome_iff_exists.mp ((isSetting_iff name).mp h)
  exact ⟨setting, hfound, Setting.mem_spellings_of_ofName? hfound⟩

theorem ofName?_eq_none (h : ¬ isSetting name = true) : Setting.ofName? name = none := by
  rw [isSetting_iff, Bool.not_eq_true, Option.isSome_eq_false_iff] at h
  exact Option.isNone_iff_eq_none.mp h

/-- Reading the known tokens that a split keeps is the pass over all tokens, and the pass
skips what the split drops. -/
theorem scan_eq (options : Options) (tokens : List String) :
    scan options tokens =
      (actions.consume options (mark vocabulary (splitKnown tokens).1)).map fun read =>
        (read.1, (splitKnown tokens).2) := by
  fun_induction splitKnown tokens generalizing options with
  | case1 => rfl
  | case2 token hsetting =>
      obtain ⟨setting, hfound, hname⟩ := ofName?_eq_some hsetting
      rw [mark_spelling (Setting.mem_options hname), mark, consume_last_setting hname]
      simp only [scan, Flag.ofName?_eq_none hname, hfound]
      rfl
  | case3 token hsetting value later known ignored hsplit ih =>
      obtain ⟨setting, hfound, hname⟩ := ofName?_eq_some hsetting
      rw [hsplit] at ih
      rw [mark_spelling (Setting.mem_options hname), consume_setting hname]
      simp only [scan, Flag.ofName?_eq_none hname, hfound]
      split
      · cases options.set setting value with
        | error error => rfl
        | ok next => exact ih next
      · rfl
  | case4 token later hother known ignored hsplit hknown ih =>
      rw [hsplit] at ih
      cases hflag : Flag.ofName? token with
      | some flag =>
          have hspelling := Flag.mem_options (Flag.mem_spellings_of_ofName? hflag)
          rw [mark_spelling hspelling, consume_flag hflag]
          simp only [scan, hflag]
          exact ih _
      | none =>
          have hassigned : (assigned? token).isSome = true := by
            rw [Bool.or_eq_true, isFlag_iff, hflag, isAssignment_iff] at hknown
            simpa using hknown
          obtain ⟨⟨setting, value⟩, hassigned⟩ := Option.isSome_iff_exists.mp hassigned
          simp only [scan, hflag, ofName?_eq_none hother, hassigned]
          obtain ⟨name, hname, -, rfl⟩ := assigned?_eq_some_iff.mp hassigned
          rw [mark_assignment hname, consume_assignment hname]
          cases options.set setting value with
          | error error => rfl
          | ok next => exact ih next
  | case5 token later hother known ignored hsplit hunknown ih =>
      rw [hsplit] at ih
      rw [Bool.or_eq_true, isFlag_iff, isAssignment_iff, not_or, Bool.not_eq_true,
        Option.isSome_eq_false_iff, Option.isNone_iff_eq_none, Bool.not_eq_true,
        Option.isSome_eq_false_iff, Option.isNone_iff_eq_none] at hunknown
      simp only [scan, hunknown.1, ofName?_eq_none hother, hunknown.2, ih]
      cases actions.consume options (mark vocabulary known) with
      | error error => rfl
      | ok read => rfl

/-- A request for help wins over everything, and otherwise one pass from the left tells
what a command line means. -/
theorem parse_eq_scan (tokens : List String) :
    parse tokens =
      if ∃ token ∈ tokens, token ∈ helpOptions then ⟨.help, []⟩
      else
        match scan {} tokens with
        | .error error => ⟨.invalid error, []⟩
        | .ok (options, skipped) =>
          ⟨checkWorkers options, if skipped = [] then [] else [.ignoredTokens skipped]⟩ := by
  have hhelp : tokens.any helpOptions.contains = true ↔ ∃ token ∈ tokens, token ∈ helpOptions := by
    simp only [List.any_eq_true, List.contains_iff_mem]
  by_cases hasked : tokens.any helpOptions.contains = true
  · rw [parse, if_pos hasked, if_pos (hhelp.mp hasked)]
  · rw [parse, if_neg hasked, if_neg (fun h => hasked (hhelp.mpr h)), scan_eq]
    cases hread : actions.consume {} (mark vocabulary (splitKnown tokens).1) with
    | error error => simp only [readKnown, hread, Except.map]
    | ok read =>
        simp only [readKnown, hread, Except.map]
        cases (splitKnown tokens).2 <;> simp

end DependencyAudit.CommandLine
