import DependencyAudit.Proofs.CommandLine.TokenScan

/-!
# Tokens that the command line ignores

A token that is no option, assigns no setting and asks for no help changes nothing, wherever
it stands, unless a setting before it takes it as its value.  The split drops it before any
marking, so it cannot be taken for an abbreviation, end the options or move another value.
What the split keeps is then a command line that means the same, except that a request for
help may have stood among the dropped tokens.
-/

namespace DependencyAudit.CommandLine

variable {first : List String} {token name : String}

/-- Tokens after which, read from the left, no setting waits for its value. -/
inductive IsComplete : List String → Prop where
  | nil : IsComplete []
  | setting {name : String} {rest : List String} (h : name ∈ settingOptions) (value : String)
      (hrest : IsComplete rest) : IsComplete (name :: value :: rest)
  | other {token : String} {rest : List String} (h : token ∉ settingOptions)
      (hrest : IsComplete rest) : IsComplete (token :: rest)

/-- A token that is neither an option nor the assignment of one, nor a request for help. -/
structure IsInert (token : String) : Prop where
  not_help : token ∉ helpOptions
  not_flag : token ∉ flagOptions
  not_setting : token ∉ settingOptions
  not_assignment : ∀ name ∈ settingOptions, startsWith name "--" = true →
    ∀ value, token ≠ name ++ "=" ++ value

/-! ## One step of the split -/

theorem isSetting_iff_mem : isSetting token = true ↔ token ∈ settingOptions :=
  List.contains_iff_mem

theorem splitKnown_setting (h : name ∈ settingOptions) (value : String) (rest : List String) :
    splitKnown (name :: value :: rest) =
      (name :: value :: (splitKnown rest).1, (splitKnown rest).2) := by
  rw [splitKnown, if_pos (isSetting_iff_mem.mpr h)]

theorem splitKnown_of_known (h : token ∉ settingOptions)
    (hknown : (isFlag token || isAssignment token) = true) (rest : List String) :
    splitKnown (token :: rest) = (token :: (splitKnown rest).1, (splitKnown rest).2) := by
  rw [splitKnown.eq_def]
  simp only [if_neg (fun hsetting => h (isSetting_iff_mem.mp hsetting)), if_pos hknown]

theorem splitKnown_of_unknown (h : token ∉ settingOptions)
    (hunknown : ¬ (isFlag token || isAssignment token) = true) (rest : List String) :
    splitKnown (token :: rest) = ((splitKnown rest).1, token :: (splitKnown rest).2) := by
  rw [splitKnown.eq_def]
  simp only [if_neg (fun hsetting => h (isSetting_iff_mem.mp hsetting)), if_neg hunknown]

theorem IsInert.not_isAssignment (h : IsInert token) : ¬ isAssignment token = true := by
  intro hassigns
  rw [isAssignment_iff, Option.isSome_iff_exists] at hassigns
  rcases hassigns with ⟨⟨setting, value⟩, hassigned⟩
  rcases assigned?_eq_some_iff.mp hassigned with ⟨name, hname, hdashes, htoken⟩
  have hsetting : name ∈ settingOptions := by
    cases setting <;> exact List.mem_flatMap.mpr ⟨_, by decide, hname⟩
  exact h.not_assignment name hsetting hdashes value htoken

theorem IsInert.splitKnown (h : IsInert token) (rest : List String) :
    splitKnown (token :: rest) = ((splitKnown rest).1, token :: (splitKnown rest).2) := by
  apply splitKnown_of_unknown h.not_setting
  rw [Bool.or_eq_true, not_or]
  exact ⟨fun hflag => h.not_flag (List.contains_iff_mem.mp hflag), h.not_isAssignment⟩

/-! ## The whole split -/

/-- Behind complete tokens the split starts afresh. -/
theorem IsComplete.splitKnown_append (h : IsComplete first) (rest : List String) :
    splitKnown (first ++ rest) =
      ((splitKnown first).1 ++ (splitKnown rest).1,
        (splitKnown first).2 ++ (splitKnown rest).2) := by
  induction h with
  | nil => rfl
  | setting hname value _ ih =>
      rw [List.cons_append, List.cons_append, splitKnown_setting hname, splitKnown_setting hname,
        ih]
      rfl
  | @other token _ hother _ ih =>
      rw [List.cons_append]
      by_cases hknown : (isFlag token || isAssignment token) = true
      · rw [splitKnown_of_known hother hknown, splitKnown_of_known hother hknown, ih]
        rfl
      · rw [splitKnown_of_unknown hother hknown, splitKnown_of_unknown hother hknown, ih]
        rfl

theorem mem_splitKnown (tokens : List String) :
    token ∈ tokens ↔ token ∈ (splitKnown tokens).1 ∨ token ∈ (splitKnown tokens).2 := by
  fun_induction splitKnown tokens with
  | case1 => simp
  | case2 => simp
  | case3 _ _ value later known ignored hsplit ih =>
      rw [hsplit] at ih
      simp only [List.mem_cons, ih, or_assoc]
  | case4 _ later _ known ignored hsplit _ ih =>
      rw [hsplit] at ih
      simp only [List.mem_cons, ih, or_assoc]
  | case5 _ later _ known ignored hsplit _ ih =>
      rw [hsplit] at ih
      simp only [List.mem_cons, ih]
      exact or_left_comm

/-- Nothing is dropped from what a split has kept. -/
theorem splitKnown_kept (tokens : List String) :
    splitKnown (splitKnown tokens).1 = ((splitKnown tokens).1, []) := by
  fun_induction splitKnown tokens with
  | case1 => rfl
  | case2 name hname => simp only [splitKnown, hname, if_true]
  | case3 name hname value later known ignored hsplit ih =>
      rw [hsplit] at ih
      rw [splitKnown_setting (isSetting_iff_mem.mp hname), ih]
  | case4 token later hother known ignored hsplit hknown ih =>
      rw [hsplit] at ih
      rw [splitKnown_of_known (fun hmem => hother (isSetting_iff_mem.mpr hmem)) hknown, ih]
  | case5 token later hother known ignored hsplit hunknown ih =>
      rw [hsplit] at ih
      exact ih

/-! ## What the command line asks for -/

/-- What the tokens that were read ask for. -/
def requestOf : Except OptionError Options → Request
  | .error error => .invalid error
  | .ok options => checkWorkers options

/-- Only a request for help is looked for among all tokens. -/
theorem value_parse (tokens : List String) :
    (parse tokens).value =
      if ∃ token ∈ tokens, token ∈ helpOptions then .help
      else requestOf (readKnown (splitKnown tokens).1) := by
  have hhelp : tokens.any helpOptions.contains = true ↔ ∃ token ∈ tokens, token ∈ helpOptions := by
    simp only [List.any_eq_true, List.contains_iff_mem]
  by_cases hasked : ∃ token ∈ tokens, token ∈ helpOptions
  · rw [parse, if_pos (hhelp.mpr hasked), if_pos hasked]
  · rw [parse, if_neg (fun h => hasked (hhelp.mp h)), if_neg hasked]
    cases hread : readKnown (splitKnown tokens).1 <;> simp only [hread, requestOf]

theorem value_parse_of_inert (hfirst : IsComplete first) (htoken : IsInert token)
    (rest : List String) :
    (parse (first ++ token :: rest)).value = (parse (first ++ rest)).value := by
  have hhelp : (∃ other ∈ first ++ token :: rest, other ∈ helpOptions) ↔
      ∃ other ∈ first ++ rest, other ∈ helpOptions := by
    simp only [List.mem_append, List.mem_cons, or_and_right, exists_or, exists_eq_left,
      htoken.not_help, false_or]
  have hkept : (splitKnown (first ++ token :: rest)).1 = (splitKnown (first ++ rest)).1 := by
    rw [hfirst.splitKnown_append, hfirst.splitKnown_append, htoken.splitKnown]
  rw [value_parse, value_parse, hkept]
  simp only [hhelp]

theorem value_parse_kept (tokens : List String) :
    (parse tokens).value =
      if ∃ token ∈ (splitKnown tokens).2, token ∈ helpOptions then .help
      else (parse (splitKnown tokens).1).value := by
  have hhelp : (∃ token ∈ tokens, token ∈ helpOptions) ↔
      (∃ token ∈ (splitKnown tokens).1, token ∈ helpOptions) ∨
        ∃ token ∈ (splitKnown tokens).2, token ∈ helpOptions := by
    simp only [mem_splitKnown tokens, or_and_right, exists_or]
  rw [value_parse, value_parse, splitKnown_kept]
  by_cases hdropped : ∃ token ∈ (splitKnown tokens).2, token ∈ helpOptions
  · rw [if_pos hdropped, if_pos (hhelp.mpr (Or.inr hdropped))]
  · simp only [hhelp, hdropped, or_false, if_false]

/-- A token that is ignored changes nothing behind complete tokens.  So a command line means
what its known tokens mean, unless a request for help is among those that are dropped, and
what a split has kept is not split further. -/
theorem ignored_tokens_change_nothing (hfirst : IsComplete first) (htoken : IsInert token)
    (rest : List String) :
    (parse (first ++ token :: rest)).value = (parse (first ++ rest)).value ∧
      (∀ tokens, (parse tokens).value =
        if ∃ token ∈ (splitKnown tokens).2, token ∈ helpOptions then .help
        else (parse (splitKnown tokens).1).value) ∧
      ∀ tokens, splitKnown (splitKnown tokens).1 = ((splitKnown tokens).1, []) :=
  ⟨value_parse_of_inert hfirst htoken rest, value_parse_kept, splitKnown_kept⟩

theorem ignored_separator_changes_nothing :
    IsComplete ["-ax", "-d", "-5", "--json"] ∧ IsInert "--" ∧
      (parse ["-ax", "-d", "-5", "--json", "--", "-i", "b,a"]).value =
        .audit { format := .json, root := "-5", ignored := ["a", "b"] } ∧
      (parse ["-ax", "-d", "-5", "--json", "-i", "b,a"]).value =
        .audit { format := .json, root := "-5", ignored := ["a", "b"] } := by
  have hfirst : IsComplete ["-ax", "-d", "-5", "--json"] :=
    .other (by decide) (.setting (by decide) "-5" (.other (by decide) .nil))
  have htoken : IsInert "--" := by
    refine ⟨by decide, by decide, by decide, ?_⟩
    intro name _ _ value heq
    have hequals : '=' ∈ (name ++ "=" ++ value).toList := by simp
    rw [← heq] at hequals
    exact absurd hequals (by decide)
  have hshort : (parse ["-ax", "-d", "-5", "--json", "-i", "b,a"]).value =
      .audit { format := .json, root := "-5", ignored := ["a", "b"] } :=
    rfl
  have hsame := (ignored_tokens_change_nothing hfirst htoken ["-i", "b,a"]).1
  exact ⟨hfirst, htoken, hsame.trans hshort, hshort⟩

/-- A request for help is dropped by the split, but wins over everything. -/
theorem not_parse_kept_of_help :
    (parse ["-h"]).value ≠ (parse (splitKnown ["-h"]).1).value := by
  have hasked : (parse ["-h"]).value = .help := rfl
  have hkept : (parse (splitKnown ["-h"]).1).value = .audit {} := rfl
  rw [hasked, hkept]
  exact Request.noConfusion

end DependencyAudit.CommandLine
