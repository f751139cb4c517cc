import DependencyAudit.Proofs.Report.Colors
import DependencyAudit.Proofs.Run.JsonReport

/-!
# One run on two terminals

The terminal decides about colours and about nothing else.  A run ends in the same way on
every terminal, with the same exit code, and what it prints is the same once the colours are
taken off; a JSON report has none to begin with.  This holds whatever the names, paths and
tokens are made of, as a painted text is always followed by the sequence that ends its
colour or by a line end.
-/

namespace DependencyAudit.Run

open CommandLine Report

/-- Two outcomes that are the same once the colours are taken off. -/
structure SameButColors (left right : Outcome) : Prop where
  exitCode : left.exitCode = right.exitCode
  stdout : withoutColors left.stdout = withoutColors right.stdout
  stderr : withoutColors left.stderr = withoutColors right.stderr

theorem SameButColors.refl (outcome : Outcome) : SameButColors outcome outcome :=
  ⟨rfl, rfl, rfl⟩

theorem withoutColors_line_append (line rest : String) :
    withoutColors (line ++ "\n" ++ rest) = withoutColors line ++ "\n" ++ withoutColors rest := by
  have htext : (line ++ "\n" ++ rest).toList = line.toList ++ '\n' :: rest.toList := by simp
  rw [withoutColors, htext, uncolored_append _ (startsAnew_newline _), uncolored_newline_cons,
    ← String.toList_inj]
  simp [withoutColors]

theorem withoutColors_line (line : String) :
    withoutColors (line ++ "\n") = withoutColors line ++ "\n" := by
  have hline := withoutColors_line_append line ""
  rwa [withoutColors_empty, String.append_empty, String.append_empty] at hline

/-- Every event is a line of its own, so no sequence goes on behind the events. -/
theorem withoutColors_debugLines_append (options : Options) (events : List Event) (rest : String) :
    withoutColors (debugLines options events ++ rest) =
      withoutColors (debugLines options events) ++ withoutColors rest := by
  unfold debugLines
  split
  · induction events with
    | nil => simp [withoutColors_empty]
    | cons event events ih =>
        have hjoin : ∀ line more : String, line ++ more ++ rest = line ++ (more ++ rest) :=
          fun line more => String.append_assoc
        rw [List.map_cons, String.join_cons, hjoin, withoutColors_line_append, ih,
          withoutColors_line_append]
        simp only [String.append_assoc]
  · simp [withoutColors_empty]

theorem sameButColors_failed (terminal other : Terminal) (options : Options) (events : List Event)
    (message : String) :
    SameButColors (failed terminal (debugLines options events) message)
      (failed other (debugLines options events) message) := by
  refine ⟨rfl, rfl, ?_⟩
  simp only [failed, String.append_assoc, withoutColors_debugLines_append]
  rw [withoutColors_line, withoutColors_line, withoutColors_paint, withoutColors_paint]

theorem withoutColors_report {terminal other : Terminal} {analysis : Analysis}
    {format : Format} {shown seen : String}
    (hshown : CodeText.string? (render terminal analysis format) = some shown)
    (hseen : CodeText.string? (render other analysis format) = some seen) :
    withoutColors shown = withoutColors seen := by
  cases format with
  | json =>
      rw [Option.some.inj (hshown.symm.trans hseen)]
  | text =>
      rw [render, CodeText.string?_eq_some_iff] at hshown hseen
      have hcolors := uncolored_text terminal other analysis
      rw [hshown, hseen, CodeText.chars_ofString, CodeText.chars_ofString] at hcolors
      rw [withoutColors, withoutColors, hcolors]

/-- Whether a report can be printed depends on the names, not on the terminal. -/
theorem finished_on_terminals (terminal other : Terminal) (options : Options) (debug : String)
    (analysis : Analysis) :
    (∃ left right, finished terminal options debug analysis = .ok left ∧
        finished other options debug analysis = .ok right ∧ SameButColors left right ∧
        (options.format = .json → left.stdout = right.stdout)) ∨
      ∃ abort, finished terminal options debug analysis = .error abort ∧
        finished other options debug analysis = .error abort := by
  by_cases hplain : (analysis.ignoring (options.ignored.map CodeText.ofString)).IsPrintable
  · obtain ⟨shown, hshown⟩ := exists_printed terminal options.format hplain
    obtain ⟨seen, hseen⟩ := exists_printed other options.format hplain
    simp only [finished, hshown, hseen]
    refine .inl ⟨_, _, rfl, rfl, ⟨rfl, ?_, rfl⟩, ?_⟩
    · simp only [withoutColors_line]
      rw [withoutColors_report hshown hseen]
    · intro hjson
      rw [hjson] at hshown hseen
      rw [Option.some.inj (hshown.symm.trans hseen)]
  · have hnone : ∀ terminal, CodeText.string? (render terminal
        (analysis.ignoring (options.ignored.map CodeText.ofString)) options.format) = none :=
      fun terminal => (string?_render_eq_none_iff terminal _ _).mpr hplain
    simp only [finished, hnone]
    exact .inr ⟨_, rfl, rfl⟩

/-- On two terminals a run ends in the same way.  Its outcomes differ in nothing but colours,
and the standard output not even in them, except for an audit that reports as text. -/
theorem colors_change_nothing_else (limits : Limits) (tree : Tree) (tokens : List String)
    (terminal other : Terminal) :
    (∃ left right, run limits tree terminal tokens = .ok left ∧
        run limits tree other tokens = .ok right ∧ SameButColors left right ∧
        ((∀ options, (parse tokens).value = .audit options → options.format = .json) →
          left.stdout = right.stdout)) ∨
      ∃ abort, run limits tree terminal tokens = .error abort ∧
        run limits tree other tokens = .error abort := by
  have hdebug : ∀ options, debugLines options [] = "" := by
    intro options
    simp [debugLines]
  cases hparse : (parse tokens).value with
  | help =>
      simp only [run, hparse]
      exact .inl ⟨_, _, rfl, rfl, .refl _, fun _ => rfl⟩
  | invalid error =>
      simp only [run, hparse]
      have hsame := sameButColors_failed terminal other {} [] ("Error: " ++ error.message)
      rw [hdebug] at hsame
      exact .inl ⟨_, _, rfl, rfl, hsame, fun _ => rfl⟩
  | audit options =>
      simp only [run, hparse, audit]
      cases hread : Manifest.read limits tree (Path.parse options.manifest) with
      | error abort => exact .inr ⟨abort, rfl, rfl⟩
      | ok loaded =>
          obtain ⟨manifest | manifest, events⟩ := loaded
          · exact .inl ⟨_, _, rfl, rfl, sameButColors_failed terminal other options events _,
              fun _ => rfl⟩
          · cases hanalysis : Analysis.ofSources limits tree manifest (Path.parse options.root)
                options.checkAll options.mode with
            | error abort =>
                simp only [hanalysis]
                exact .inr ⟨abort, rfl, rfl⟩
            | ok analysis =>
                simp only [hanalysis]
                refine (finished_on_terminals terminal other options _ analysis.value).imp_left ?_
                rintro ⟨left, right, hleft, hright, hsame, hstdout⟩
                exact ⟨left, right, hleft, hright, hsame, fun hjson => hstdout (hjson options rfl)⟩

/-- A setting without a value is refused in red where colours are forced.  The JSON report of
the small project is the same there, to the letter. -/
theorem outcomes_with_forced_colors :
    run .standard Tree.sampleProject { forceColor := some "1" } ["-d"] =
        .ok ⟨2, "", "\x1b[31mError: argument -d/--dst-dir: expected one argument\x1b[0m\n"⟩ ∧
      (∃ plain, run .standard Tree.sampleProject {} ["-d"] = .ok plain ∧ SameButColors
        ⟨2, "", "\x1b[31mError: argument -d/--dst-dir: expected one argument\x1b[0m\n"⟩ plain) ∧
      (∀ options, (parse ["-j", "-d", "src"]).value = .audit options → options.format = .json) ∧
      ∃ left right,
        run .standard Tree.sampleProject { forceColor := some "1" } ["-j", "-d", "src"] =
          .ok left ∧
        run .standard Tree.sampleProject {} ["-j", "-d", "src"] = .ok right ∧
        SameButColors left right ∧ left.stdout = right.stdout := by
  have hred : run .standard Tree.sampleProject { forceColor := some "1" } ["-d"] =
      .ok ⟨2, "", "\x1b[31mError: argument -d/--dst-dir: expected one argument\x1b[0m\n"⟩ := by
    have hparse : (parse ["-d"]).value = .invalid (.valueMissing "-d/--dst-dir") := by decide
    simp only [run, hparse]
    decide
  have hroot : (parse ["-j", "-d", "src"]).value = .audit { format := .json, root := "src" } :=
    parse_json_root (by decide)
  have hjson : ∀ options, (parse ["-j", "-d", "src"]).value = .audit options →
      options.format = .json := by
    intro options hparse
    rw [hroot, Request.audit.injEq] at hparse
    rw [← hparse]
  refine ⟨hred, ?_, hjson, ?_⟩
  · rcases colors_change_nothing_else .standard Tree.sampleProject ["-d"]
      { forceColor := some "1" } {} with
      ⟨left, plain, hleft, hplain, hsame, -⟩ | ⟨abort, habort, -⟩
    · rw [hred, Except.ok.injEq] at hleft
      exact ⟨plain, hplain, hleft ▸ hsame⟩
    · rw [hred] at habort
      contradiction
  · obtain ⟨outcome, hrun⟩ :=
      exists_outcome_sampleProject {} hroot rfl Source.isScannable_sampleProject
    rcases colors_change_nothing_else .standard Tree.sampleProject ["-j", "-d", "src"]
      { forceColor := some "1" } {} with
      ⟨left, right, hleft, hright, hsame, hstdout⟩ | ⟨abort, -, habort⟩
    · exact ⟨left, right, hleft, hright, hsame, hstdout hjson⟩
    · rw [hrun] at habort
      contradiction

end DependencyAudit.Run
