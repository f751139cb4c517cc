import DependencyAudit.Source.Glob
import Mathlib.Data.List.Infix
import Mathlib.Tactic.Common

/-!
# Matches of glob patterns

What a pattern matches is said part by part: a pattern that is two in a row matches a text
in two parts, literals match the word they spell, a run any text of one line, a dot one
character of it.  A search does not notice the runs at the two ends of a pattern.
-/

namespace DependencyAudit.Source

/-! ## Patterns in a row -/

/-- A match of two patterns in a row is a match of the first and then one of the second. -/
theorem Glob.Matches.split {glob first second : Glob} {text : List Char}
    (h : Glob.Matches glob text) (hglob : glob = first ++ second) :
    ∃ left right, text = left ++ right ∧ Glob.Matches first left ∧ Glob.Matches second right := by
  induction h generalizing first with
  | nil =>
      obtain ⟨rfl, rfl⟩ := List.append_eq_nil_iff.mp hglob.symm
      exact ⟨[], [], rfl, .nil, .nil⟩
  | @skip rest text hrest ih =>
      cases first with
      | nil =>
          obtain rfl : .run :: rest = second := hglob
          exact ⟨[], text, rfl, .nil, .skip hrest⟩
      | cons atom first =>
          obtain ⟨rfl, hshorter⟩ := List.cons.inj hglob
          obtain ⟨left, right, htext, hleft, hright⟩ := ih hshorter
          exact ⟨left, right, htext, .skip hleft, hright⟩
  | @more rest c text hc hrest ih =>
      cases first with
      | nil =>
          obtain rfl : .run :: rest = second := hglob
          exact ⟨[], c :: text, rfl, .nil, .more hc hrest⟩
      | cons atom first =>
          obtain ⟨rfl, hshorter⟩ := List.cons.inj hglob
          obtain ⟨left, right, rfl, hleft, hright⟩ := ih hglob
          exact ⟨c :: left, right, rfl, .more hc hleft, hright⟩
  | @any rest c text hc hrest ih =>
      cases first with
      | nil =>
          obtain rfl : .any :: rest = second := hglob
          exact ⟨[], c :: text, rfl, .nil, .any hc hrest⟩
      | cons atom first =>
          obtain ⟨rfl, hshorter⟩ := List.cons.inj hglob
          obtain ⟨left, right, rfl, hleft, hright⟩ := ih hshorter
          exact ⟨c :: left, right, rfl, .any hc hleft, hright⟩
  | @literal rest c text hrest ih =>
      cases first with
      | nil =>
          obtain rfl : .literal c :: rest = second := hglob
          exact ⟨[], c :: text, rfl, .nil, .literal hrest⟩
      | cons atom first =>
          obtain ⟨rfl, hshorter⟩ := List.cons.inj hglob
          obtain ⟨left, right, rfl, hleft, hright⟩ := ih hshorter
          exact ⟨c :: left, right, rfl, .literal hleft, hright⟩

theorem Glob.Matches.append {first second : Glob} {left right : List Char}
    (hleft : first.Matches left) (hright : second.Matches right) :
    Glob.Matches (first ++ second) (left ++ right) := by
  induction hleft with
  | nil => exact hright
  | skip _ ih => exact .skip ih
  | more hc _ ih => exact .more hc ih
  | any hc _ ih => exact .any hc ih
  | literal _ ih => exact .literal ih

theorem Glob.matches_append_iff {first second : Glob} {text : List Char} :
    Glob.Matches (first ++ second) text ↔
      ∃ left right, text = left ++ right ∧ first.Matches left ∧ second.Matches right := by
  constructor
  · intro h
    exact h.split rfl
  · rintro ⟨left, right, rfl, hleft, hright⟩
    exact hleft.append hright

/-! ## Single atoms -/

theorem Glob.matches_literals_iff {word text : List Char} :
    Glob.Matches (word.map GlobAtom.literal) text ↔ text = word := by
  induction word generalizing text with
  | nil =>
      constructor
      · rintro ⟨⟩
        rfl
      · rintro rfl
        exact .nil
  | cons c word ih =>
      constructor
      · intro h
        cases h with
        | literal hrest => rw [ih.mp hrest]
      · rintro rfl
        exact .literal (ih.mpr rfl)

theorem Glob.matches_run_iff {text : List Char} :
    Glob.Matches [.run] text ↔ '\n' ∉ text := by
  induction text with
  | nil => exact ⟨fun _ => by simp, fun _ => .skip .nil⟩
  | cons c rest ih =>
      rw [List.mem_cons, not_or, ← ih]
      constructor
      · intro h
        cases h with
        | skip h => cases h
        | more hc hrest => exact ⟨Ne.symm hc, hrest⟩
      · rintro ⟨hc, hrest⟩
        exact .more (Ne.symm hc) hrest

theorem Glob.matches_any_iff {text : List Char} :
    Glob.Matches [.any] text ↔ ∃ c, c ≠ '\n' ∧ text = [c] := by
  constructor
  · intro h
    cases h with
    | any hc hrest =>
        cases hrest
        exact ⟨_, hc, rfl⟩
  · rintro ⟨c, hc, rfl⟩
    exact .any hc .nil

/-! ## Searching -/

theorem Glob.foundIn_run_cons {glob : Glob} {text : List Char} :
    Glob.FoundIn (.run :: glob) text ↔ glob.FoundIn text := by
  constructor
  · rintro ⟨before, part, after, rfl, hmatch⟩
    obtain ⟨left, right, rfl, -, hright⟩ := Glob.Matches.split hmatch (List.singleton_append).symm
    exact ⟨before ++ left, right, after, by simp, hright⟩
  · rintro ⟨before, part, after, htext, hmatch⟩
    exact ⟨before, part, after, htext, .skip hmatch⟩

theorem Glob.foundIn_append_run {glob : Glob} {text : List Char} :
    Glob.FoundIn (glob ++ [.run]) text ↔ glob.FoundIn text := by
  constructor
  · rintro ⟨before, part, after, rfl, hmatch⟩
    obtain ⟨left, right, rfl, hleft, -⟩ := Glob.matches_append_iff.mp hmatch
    exact ⟨before, left, right ++ after, by simp, hleft⟩
  · rintro ⟨before, part, after, htext, hmatch⟩
    have hrun : Glob.Matches [.run] [] := .skip .nil
    refine ⟨before, part, after, htext, ?_⟩
    simpa using hmatch.append hrun

theorem Glob.foundIn_iff_infix {glob : Glob} {text : List Char} :
    glob.FoundIn text ↔ ∃ part, part <:+: text ∧ glob.Matches part := by
  constructor
  · rintro ⟨before, part, after, rfl, hmatch⟩
    exact ⟨part, ⟨before, after, rfl⟩, hmatch⟩
  · rintro ⟨part, ⟨before, after, htext⟩, hmatch⟩
    exact ⟨before, part, after, htext.symm, hmatch⟩

/-- A search that succeeds in a part of a text succeeds in the text. -/
theorem Glob.FoundIn.mono {glob : Glob} {part text : List Char} (h : glob.FoundIn part)
    (hpart : part <:+: text) : glob.FoundIn text := by
  rw [Glob.foundIn_iff_infix] at h ⊢
  rcases h with ⟨inner, hinner, hmatch⟩
  exact ⟨inner, hinner.trans hpart, hmatch⟩

end DependencyAudit.Source
