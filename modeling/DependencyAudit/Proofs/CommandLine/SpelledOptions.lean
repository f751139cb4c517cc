import DependencyAudit.Proofs.CommandLine.NameLists
import DependencyAudit.Proofs.CommandLine.TokenScan
import DependencyAudit.Proofs.Text.WholeNumbers
import Mathlib.Data.List.Sort

/-!
# Options spelled out

All options of an audit can be written on its command line: each setting as one token with
its value behind an equals sign, where nothing in the value can be mistaken, and each flag
that is set.  Every such token sets one part of the options to the value wanted and leaves
the other parts alone, so their order does not matter, and at the end of the command line
each part is as wanted.
-/

namespace DependencyAudit.CommandLine

variable {options target : Options} {names flags tokens : List String} {token : String}

/-! ## Spelling -/

/-- The spelling of a setting that takes its value behind an equals sign. -/
def Setting.longName : Setting → String
  | .root => "--dst-dir"
  | .manifest => "--package-json"
  | .ignored => "--ignore"
  | .workers => "--max-workers"

/-- The value of a setting, with the ignored names in some order. -/
def Options.valueText (options : Options) (names : List String) : Setting → String
  | .root => options.root
  | .manifest => options.manifest
  | .ignored => ",".intercalate names
  | .workers => toString options.workers

def Options.assignments (options : Options) (names : List String) : List String :=
  Setting.every.map fun setting => setting.longName ++ "=" ++ options.valueText names setting

/-- Whether options are as a flag would set them. -/
def Options.sets (options : Options) : Flag → Bool
  | .text => options.format = .text
  | .json => options.format = .json
  | .all => options.checkAll
  | .parallel => options.parallel
  | .verbose => options.verbose

/-- Tokens for the flags of options, each in one of its spellings.  Only the flag for the text
format, which is the default, may be left out. -/
structure SpellsFlags (options : Options) (flags : List String) : Prop where
  sets : ∀ token ∈ flags, ∃ flag, options.sets flag = true ∧ token ∈ flag.spellings
  spelled : ∀ flag, options.sets flag = true → flag ≠ .text → ∃ token ∈ flags,
    token ∈ flag.spellings

/-! ## Parts of options -/

/-- What the tokens of a command line set apart from each other. -/
inductive Part where
  | format
  | root
  | manifest
  | checkAll
  | ignored
  | parallel
  | workers
  | verbose

/-- Options with one part taken from others. -/
def Options.taking (options target : Options) : Part → Options
  | .format => { options with format := target.format }
  | .root => { options with root := target.root }
  | .manifest => { options with manifest := target.manifest }
  | .checkAll => { options with checkAll := target.checkAll }
  | .ignored => { options with ignored := target.ignored }
  | .parallel => { options with parallel := target.parallel }
  | .workers => { options with workers := target.workers }
  | .verbose => { options with verbose := target.verbose }

/-- One part of options is as in others, so taking it changes nothing. -/
def Options.AgreesOn (options target : Options) (part : Part) : Prop :=
  options.taking target part = options

theorem Options.agreesOn_taking (options target : Options) (part : Part) :
    (options.taking target part).AgreesOn target part := by
  cases part <;> rfl

theorem Options.taking_comm (options target : Options) (first second : Part) :
    (options.taking target first).taking target second =
      (options.taking target second).taking target first := by
  cases first <;> cases second <;> rfl

theorem Options.AgreesOn.taking {part : Part} (h : options.AgreesOn target part) (other : Part) :
    (options.taking target other).AgreesOn target part :=
  calc
    (options.taking target other).taking target part =
        (options.taking target part).taking target other :=
      options.taking_comm target other part
    _ = options.taking target other := congrArg (fun same => same.taking target other) h

theorem Options.eq_of_agreesOn (h : ∀ part, options.AgreesOn target part) : options = target := by
  have hformat := congrArg Options.format (h .format)
  have hroot := congrArg Options.root (h .root)
  have hmanifest := congrArg Options.manifest (h .manifest)
  have hcheckAll := congrArg Options.checkAll (h .checkAll)
  have hignored := congrArg Options.ignored (h .ignored)
  have hparallel := congrArg Options.parallel (h .parallel)
  have hworkers := congrArg Options.workers (h .workers)
  have hverbose := congrArg Options.verbose (h .verbose)
  cases options
  cases target
  rw [Options.mk.injEq]
  exact ⟨hformat.symm, hroot.symm, hmanifest.symm, hcheckAll.symm, hignored.symm, hparallel.symm,
    hworkers.symm, hverbose.symm⟩

def Setting.part : Setting → Part
  | .root => .root
  | .manifest => .manifest
  | .ignored => .ignored
  | .workers => .workers

def Flag.part : Flag → Part
  | .text => .format
  | .json => .format
  | .all => .checkAll
  | .parallel => .parallel
  | .verbose => .verbose

/-! ## One token -/

/-- A token that sets a part as wanted, whatever comes before and behind it. -/
def Conveys (target : Options) (token : String) (part : Part) : Prop :=
  ∀ options rest, scan options (token :: rest) = scan (options.taking target part) rest

theorem Setting.longName_mem (setting : Setting) : setting.longName ∈ setting.spellings := by
  cases setting <;> decide

theorem Setting.startsWith_longName (setting : Setting) :
    startsWith setting.longName "--" = true := by
  cases setting <;> decide

theorem setFlag_eq_taking {flag : Flag} (h : target.sets flag = true) (options : Options) :
    options.setFlag flag = options.taking target flag.part := by
  cases flag with
  | text =>
      have hformat : target.format = .text := of_decide_eq_true h
      rw [Options.setFlag, Flag.part, Options.taking, hformat]
  | json =>
      have hformat : target.format = .json := of_decide_eq_true h
      rw [Options.setFlag, Flag.part, Options.taking, hformat]
  | all =>
      have hset : target.checkAll = true := h
      rw [Options.setFlag, Flag.part, Options.taking, hset]
  | parallel =>
      have hset : target.parallel = true := h
      rw [Options.setFlag, Flag.part, Options.taking, hset]
  | verbose =>
      have hset : target.verbose = true := h
      rw [Options.setFlag, Flag.part, Options.taking, hset]

theorem conveys_flag {flag : Flag} (hset : target.sets flag = true)
    (htoken : token ∈ flag.spellings) : Conveys target token flag.part := by
  have hfound : Flag.ofName? token = some flag := by
    have hall : ∀ name ∈ flag.spellings, Flag.ofName? name = some flag := by
      cases flag <;> decide
    exact hall token htoken
  intro options rest
  rw [← setFlag_eq_taking hset, scan.eq_def]
  simp only [hfound]

theorem ofName?_eq_none_of_equals (h : '=' ∈ token.toList) :
    Flag.ofName? token = none ∧ Setting.ofName? token = none := by
  constructor
  · rw [Option.eq_none_iff_forall_ne_some]
    intro flag hfound
    exact equals_not_mem_spelling token (Flag.mem_options (Flag.mem_spellings_of_ofName? hfound)) h
  · rw [Option.eq_none_iff_forall_ne_some]
    intro setting hfound
    exact equals_not_mem_spelling token
      (Setting.mem_options (Setting.mem_spellings_of_ofName? hfound)) h

theorem conveys_assignment {setting : Setting} {value : String}
    (hset : ∀ options : Options, options.set setting value =
      .ok (options.taking target setting.part)) :
    Conveys target (setting.longName ++ "=" ++ value) setting.part := by
  have hassigned : assigned? (setting.longName ++ "=" ++ value) = some (setting, value) :=
    assigned?_eq_some_iff.mpr
      ⟨setting.longName, setting.longName_mem, setting.startsWith_longName, rfl⟩
  have hequals : '=' ∈ (setting.longName ++ "=" ++ value).toList := by simp
  rcases ofName?_eq_none_of_equals hequals with ⟨hflag, hsetting⟩
  intro options rest
  rw [scan.eq_def]
  simp only [hflag, hsetting, hassigned, hset]

/-- Every value is read back from its text. -/
theorem set_valueText (hworkers : 1 ≤ target.workers ∧ target.workers ≤ maxWorkers)
    (hignored : nameSet (",".intercalate names) = target.ignored) (setting : Setting)
    (options : Options) :
    options.set setting (target.valueText names setting) =
      .ok (options.taking target setting.part) := by
  cases setting with
  | root => rfl
  | manifest => rfl
  | ignored => rw [Options.valueText, Options.set, hignored, Setting.part, Options.taking]
  | workers =>
      have hmax : (maxWorkers : Int) = 64 := rfl
      have hsmall : target.workers.natAbs < 10 ^ 2 := by omega
      have hlength : (Nat.toDigits 10 target.workers.natAbs).length ≤ 2 :=
        (Nat.length_toDigits_le_iff (by decide) (by decide)).mpr hsmall
      have hread : Text.integer? (toString target.workers) = some target.workers :=
        Text.integer?_toString (hlength.trans (by decide))
      rw [Options.valueText, Options.set, hread, Setting.part, Options.taking]

/-! ## The command line -/

/-- A pass over such tokens comes to its end, with every part as wanted that was so before or
that a token sets. -/
theorem exists_scan_of_conveys (htokens : ∀ token ∈ tokens, ∃ part, Conveys target token part)
    (options : Options) :
    ∃ final, scan options tokens = .ok (final, []) ∧
      ∀ part, options.AgreesOn target part ∨ (∃ token ∈ tokens, Conveys target token part) →
        final.AgreesOn target part := by
  induction tokens generalizing options with
  | nil =>
      refine ⟨options, rfl, ?_⟩
      intro part hpart
      rcases hpart with hagrees | ⟨token, hmem, -⟩
      · exact hagrees
      · contradiction
  | cons token rest ih =>
      rw [List.forall_mem_cons] at htokens
      rcases htokens.1 with ⟨part, hpart⟩
      rcases ih htokens.2 (options.taking target part) with ⟨final, hscan, hfinal⟩
      refine ⟨final, (hpart options rest).trans hscan, ?_⟩
      intro other hother
      rcases hother with hagrees | ⟨later, hmem, hlater⟩
      · exact hfinal other (Or.inl (hagrees.taking part))
      · rcases List.mem_cons.mp hmem with rfl | hrest
        · -- The first token may set a second part: the pass is the same with that one set.
          rcases ih htokens.2 (options.taking target other) with ⟨same, hsame, hagrees⟩
          rw [← hlater, hpart, hscan, Except.ok.injEq, Prod.mk.injEq] at hsame
          rw [hsame.1]
          exact hagrees other (Or.inl (options.agreesOn_taking target other))
        · exact hfinal other (Or.inr ⟨later, hrest, hlater⟩)

theorem parse_of_scan {skipped : List String} (hhelp : ∀ token ∈ tokens, token ∉ helpOptions)
    (h : scan {} tokens = .ok (options, skipped)) :
    parse tokens =
      ⟨checkWorkers options, if skipped.isEmpty then [] else [.ignoredTokens skipped]⟩ := by
  have hplain : ¬ tokens.any helpOptions.contains = true := by
    rw [List.any_eq_true]
    intro hasked
    rcases hasked with ⟨token, hmem, hcontains⟩
    exact hhelp token hmem (List.contains_iff_mem.mp hcontains)
  rw [scan_eq] at h
  cases hread : actions.consume {} (mark vocabulary (splitKnown tokens).1) with
  | error error =>
      rw [hread] at h
      contradiction
  | ok read =>
      rw [hread] at h
      simp only [Except.map, Except.ok.injEq, Prod.mk.injEq] at h
      rw [parse, if_neg hplain]
      simp only [readKnown, hread, Except.map, h.1, h.2]

theorem Part.exists_option (part : Part) :
    (∃ setting : Setting, part = setting.part) ∨
      ∃ flag : Flag, flag ≠ .text ∧ part = flag.part := by
  cases part with
  | format => exact Or.inr ⟨.json, by decide, rfl⟩
  | root => exact Or.inl ⟨.root, rfl⟩
  | manifest => exact Or.inl ⟨.manifest, rfl⟩
  | checkAll => exact Or.inr ⟨.all, by decide, rfl⟩
  | ignored => exact Or.inl ⟨.ignored, rfl⟩
  | parallel => exact Or.inr ⟨.parallel, by decide, rfl⟩
  | workers => exact Or.inl ⟨.workers, rfl⟩
  | verbose => exact Or.inr ⟨.verbose, by decide, rfl⟩

/-- Where a flag is not wanted, its part has its default. -/
theorem agreesOn_default {flag : Flag} (h : target.sets flag = false) (hother : flag ≠ .text) :
    ({} : Options).AgreesOn target flag.part := by
  cases flag with
  | text => contradiction
  | json =>
      have hformat : target.format = .text := by
        cases hfound : target.format with
        | text => rfl
        | json => exact absurd hfound (of_decide_eq_false h)
      rw [Options.AgreesOn, Flag.part, Options.taking, hformat]
  | all =>
      have hunset : target.checkAll = false := h
      rw [Options.AgreesOn, Flag.part, Options.taking, hunset]
  | parallel =>
      have hunset : target.parallel = false := h
      rw [Options.AgreesOn, Flag.part, Options.taking, hunset]
  | verbose =>
      have hunset : target.verbose = false := h
      rw [Options.AgreesOn, Flag.part, Options.taking, hunset]

/-- Neither an assignment nor a flag asks for help. -/
theorem not_mem_helpOptions (hflags : SpellsFlags options flags)
    (h : token ∈ options.assignments names ++ flags) : token ∉ helpOptions := by
  rcases List.mem_append.mp h with hassigned | hflag
  · rcases List.mem_map.mp hassigned with ⟨setting, -, rfl⟩
    have hequals : ∀ name ∈ helpOptions, '=' ∉ name.toList := by decide
    intro hhelp
    exact hequals _ hhelp (by simp)
  · rcases hflags.sets token hflag with ⟨flag, -, hspelling⟩
    have hall : ∀ name ∈ flag.spellings, name ∉ helpOptions := by
      cases flag <;> decide
    exact hall token hspelling

/-- Options spelled out in any order are read as these options, whatever their values are. -/
theorem parse_spelled_options (hworkers : 1 ≤ options.workers ∧ options.workers ≤ maxWorkers)
    (hascending : options.ignored.Pairwise (· < ·))
    (hnames : ∀ name, name ∈ names ↔ name ∈ options.ignored)
    (hentries : ∀ name ∈ options.ignored, IsEntry name) (hflags : SpellsFlags options flags)
    (htokens : tokens.Perm (options.assignments names ++ flags)) :
    parse tokens = ⟨.audit options, []⟩ := by
  have hignored : nameSet (",".intercalate names) = options.ignored := by
    rw [nameSet_intercalate fun name hname => hentries name ((hnames name).mp hname)]
    refine (Ascending.pairwise_ofList names).eq_of_mem_iff hascending ?_
    intro name
    rw [Ascending.mem_ofList, hnames]
  have hassignment : ∀ setting : Setting,
      Conveys options (setting.longName ++ "=" ++ options.valueText names setting) setting.part :=
    fun setting => conveys_assignment (set_valueText hworkers hignored setting)
  have hconveys : ∀ token ∈ tokens, ∃ part, Conveys options token part := by
    intro token hmem
    rcases List.mem_append.mp (htokens.mem_iff.mp hmem) with hassigned | hflag
    · rcases List.mem_map.mp hassigned with ⟨setting, -, rfl⟩
      exact ⟨setting.part, hassignment setting⟩
    · rcases hflags.sets token hflag with ⟨flag, hset, hspelling⟩
      exact ⟨flag.part, conveys_flag hset hspelling⟩
  rcases exists_scan_of_conveys hconveys {} with ⟨final, hscan, hfinal⟩
  have hwanted : final = options := by
    apply Options.eq_of_agreesOn
    intro part
    apply hfinal
    rcases part.exists_option with ⟨setting, rfl⟩ | ⟨flag, hother, rfl⟩
    · refine Or.inr ⟨_, htokens.mem_iff.mpr (List.mem_append_left _ ?_), hassignment setting⟩
      exact List.mem_map.mpr ⟨setting, by cases setting <;> decide, rfl⟩
    · cases hset : options.sets flag with
      | false => exact Or.inl (agreesOn_default hset hother)
      | true =>
          rcases hflags.spelled flag hset hother with ⟨token, hmem, hspelling⟩
          exact Or.inr ⟨token, htokens.mem_iff.mpr (List.mem_append_right _ hmem),
            conveys_flag hset hspelling⟩
  have haccepted : checkWorkers options = .audit options := by
    rw [checkWorkers, if_neg (by omega), if_neg (by omega)]
  rw [hwanted] at hscan
  rw [parse_of_scan (fun token hmem => not_mem_helpOptions hflags (htokens.mem_iff.mp hmem)) hscan,
    haccepted]
  rfl

/-- Options whose values look like options, hold what separates them, or are empty. -/
def awkwardOptions : Options where
  format := .json
  root := "-h"
  manifest := ""
  ignored := ["--all", "=b c", "a\nb"]
  parallel := true
  workers := 64

theorem parse_awkward_options :
    SpellsFlags awkwardOptions ["--json", "--parallel", "-j"] ∧
      parse ["--json", "--ignore=a\nb,--all,=b c", "--parallel", "--max-workers=64", "--dst-dir=-h",
        "-j", "--package-json="] = ⟨.audit awkwardOptions, []⟩ := by
  have hnames : ∀ name, name ∈ ["a\nb", "--all", "=b c"] ↔ name ∈ awkwardOptions.ignored := by
    intro name
    simp only [awkwardOptions, List.mem_cons, List.not_mem_nil, or_false]
    exact or_rotate
  have hflags : SpellsFlags awkwardOptions ["--json", "--parallel", "-j"] := by
    constructor
    · rw [List.forall_mem_cons, List.forall_mem_cons, List.forall_mem_singleton]
      exact ⟨⟨.json, by decide⟩, ⟨.parallel, by decide⟩, ⟨.json, by decide⟩⟩
    · intro flag
      cases flag <;> decide
  have hentries : ∀ name ∈ awkwardOptions.ignored, IsEntry name := by decide +kernel
  exact ⟨hflags, parse_spelled_options (by decide) (by decide) hnames hentries hflags (by decide)⟩

end DependencyAudit.CommandLine
