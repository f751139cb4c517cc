/-!
# Glob patterns

A pattern is written as a text in which a star stands for any run of characters,
a dot for any one character, and every other character for itself.  Neither a
run nor a dot takes a line feed.  A pattern is found in a text when it matches
some part of it.  The statements below take the first character off a text, which
is what a search needs to go by.
-/

namespace DependencyAudit.Source

inductive GlobAtom where
  | run
  | any
  | literal (c : Char)
  deriving DecidableEq, Repr

abbrev Glob := List GlobAtom

def GlobAtom.ofChar (c : Char) : GlobAtom :=
  if c = '*' then .run else if c = '.' then .any else .literal c

def Glob.ofText (text : String) : Glob :=
  text.toList.map GlobAtom.ofChar

def GlobAtom.expression : GlobAtom → List Char
  | .run => ['.', '*']
  | .any => ['.']
  | .literal c => [c]

/-- A pattern as a regular expression. -/
def Glob.expression (glob : Glob) : String :=
  String.ofList (glob.flatMap GlobAtom.expression)

/-- A pattern matches a whole text. -/
inductive Glob.Matches : Glob → List Char → Prop where
  | nil : Matches [] []
  | skip {glob : Glob} {text : List Char} :
      Matches glob text → Matches (.run :: glob) text
  | more {glob : Glob} {c : Char} {text : List Char} :
      c ≠ '\n' → Matches (.run :: glob) text → Matches (.run :: glob) (c :: text)
  | any {glob : Glob} {c : Char} {text : List Char} :
      c ≠ '\n' → Matches glob text → Matches (.any :: glob) (c :: text)
  | literal {glob : Glob} {c : Char} {text : List Char} :
      Matches glob text → Matches (.literal c :: glob) (c :: text)

/-- A pattern matches some part of a text. -/
def Glob.FoundIn (glob : Glob) (text : List Char) : Prop :=
  ∃ before part after, text = before ++ part ++ after ∧ glob.Matches part

def Glob.MatchesStart (glob : Glob) (text : List Char) : Prop :=
  ∃ part after, text = part ++ after ∧ glob.Matches part

theorem Glob.matchesStart_nil (text : List Char) : Glob.MatchesStart [] text :=
  ⟨[], text, rfl, .nil⟩

theorem Glob.matchesStart_run_nil {glob : Glob} :
    Glob.MatchesStart (.run :: glob) [] ↔ glob.MatchesStart [] := by
  constructor
  · rintro ⟨part, after, htext, hmatch⟩
    cases hmatch with
    | skip h => exact ⟨_, after, htext, h⟩
    | more hc h => simp at htext
  · rintro ⟨part, after, htext, hmatch⟩
    exact ⟨part, after, htext, .skip hmatch⟩

theorem Glob.matchesStart_run_cons {glob : Glob} {c : Char} {rest : List Char} :
    Glob.MatchesStart (.run :: glob) (c :: rest) ↔
      glob.MatchesStart (c :: rest) ∨
        c ≠ '\n' ∧ Glob.MatchesStart (.run :: glob) rest := by
  constructor
  · rintro ⟨part, after, htext, hmatch⟩
    cases hmatch with
    | skip h => exact Or.inl ⟨_, after, htext, h⟩
    | more hc h =>
        rw [List.cons_append, List.cons.injEq] at htext
        obtain ⟨rfl, htext⟩ := htext
        exact Or.inr ⟨hc, _, after, htext, h⟩
  · rintro (⟨part, after, htext, hmatch⟩ | ⟨hc, part, after, htext, hmatch⟩)
    · exact ⟨part, after, htext, .skip hmatch⟩
    · exact ⟨c :: part, after, by rw [htext]; rfl, .more hc hmatch⟩

theorem Glob.matchesStart_any_cons {glob : Glob} {c : Char} {rest : List Char} :
    Glob.MatchesStart (.any :: glob) (c :: rest) ↔ c ≠ '\n' ∧ glob.MatchesStart rest := by
  constructor
  · rintro ⟨part, after, htext, hmatch⟩
    cases hmatch with
    | any hc h =>
        rw [List.cons_append, List.cons.injEq] at htext
        obtain ⟨rfl, htext⟩ := htext
        exact ⟨hc, _, after, htext, h⟩
  · rintro ⟨hc, part, after, htext, hmatch⟩
    exact ⟨c :: part, after, by rw [htext]; rfl, .any hc hmatch⟩

theorem Glob.matchesStart_literal_cons {glob : Glob} {c d : Char} {rest : List Char} :
    Glob.MatchesStart (.literal d :: glob) (c :: rest) ↔ c = d ∧ glob.MatchesStart rest := by
  constructor
  · rintro ⟨part, after, htext, hmatch⟩
    cases hmatch with
    | literal h =>
        rw [List.cons_append, List.cons.injEq] at htext
        obtain ⟨rfl, htext⟩ := htext
        exact ⟨rfl, _, after, htext, h⟩
  · rintro ⟨rfl, part, after, htext, hmatch⟩
    exact ⟨c :: part, after, by rw [htext]; rfl, .literal hmatch⟩

theorem Glob.not_matchesStart_nil {glob : Glob} {atom : GlobAtom} (h : atom ≠ .run) :
    ¬ Glob.MatchesStart (atom :: glob) [] := by
  rintro ⟨part, after, htext, hmatch⟩
  cases hmatch <;> simp at htext h

theorem Glob.foundIn_cons {glob : Glob} {c : Char} {rest : List Char} :
    glob.FoundIn (c :: rest) ↔ glob.FoundIn rest ∨ glob.MatchesStart (c :: rest) := by
  constructor
  · rintro ⟨before, part, after, htext, hmatch⟩
    cases before with
    | nil => exact Or.inr ⟨part, after, by simpa using htext, hmatch⟩
    | cons d before =>
        rw [List.cons_append, List.cons_append, List.cons.injEq] at htext
        exact Or.inl ⟨before, part, after, htext.2, hmatch⟩
  · rintro (⟨before, part, after, htext, hmatch⟩ | ⟨part, after, htext, hmatch⟩)
    · exact ⟨c :: before, part, after, by rw [htext]; rfl, hmatch⟩
    · exact ⟨[], part, after, by simpa using htext, hmatch⟩

theorem Glob.foundIn_nil {glob : Glob} :
    glob.FoundIn [] ↔ glob.MatchesStart [] := by
  constructor
  · rintro ⟨before, part, after, htext, hmatch⟩
    obtain ⟨h, rfl⟩ := List.append_eq_nil_iff.mp htext.symm
    obtain ⟨rfl, rfl⟩ := List.append_eq_nil_iff.mp h
    exact ⟨[], [], rfl, hmatch⟩
  · rintro ⟨part, after, htext, hmatch⟩
    exact ⟨[], part, after, htext, hmatch⟩

end DependencyAudit.Source
