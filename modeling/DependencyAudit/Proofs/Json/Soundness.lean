import DependencyAudit.Proofs.Json.Parsing

/-!
# What is read is written

When the machine ends well, the text it took has the form of the grammar.  The proof
follows the machine: after each token less of the text is left, so one induction on
the length of what is left carries values, the items of an array and the members of
an object.  Together with the reading of what is written this makes the parser and
the grammar agree on every text whose values are within the limits.
-/

namespace DependencyAudit.Json

open DependencyAudit.Text

variable {levels : Nat}

/-- Reading a text on from a configuration ends well, with a value. -/
def Config.Reads (levels : Nat) (config : Config) (text : List Char) (final : Json) : Prop :=
  ∃ position, config.resume levels position text = .ok final

/-! ## One token -/

theorem conclude_eq_ok {config : Config} {position : Nat} {ending : Ending} {final : Json}
    (h : config.conclude position ending = .ok final) :
    config = ⟨[], .afterValue final⟩ ∧ ending = .finished := by
  obtain ⟨stack, expected⟩ := config
  cases expected with
  | value => cases ending <;> simp [Config.conclude] at h
  | firstItem => cases ending <;> simp [Config.conclude] at h
  | firstName => simp [Config.conclude] at h
  | name members => simp [Config.conclude] at h
  | colon members name => simp [Config.conclude] at h
  | afterValue value => cases stack <;> cases ending <;> simp_all [Config.conclude]

theorem readCodes_eq_error {opening position : Nat} {text : List Char} {ending : Ending}
    (h : readCodes opening position text = .error ending) :
    ∃ problem place, ending = .brokenText problem place := by
  fun_induction readCodes opening position text with
  | case1 => cases h; exact ⟨_, _, rfl⟩
  | case2 => contradiction
  | case3 => cases h; exact ⟨_, _, rfl⟩
  | case4 => cases h; exact ⟨_, _, rfl⟩
  | case5 position a b c d e more code hcode _ ih => exact ih (map_eq_error h)
  | case6 => cases h; exact ⟨_, _, rfl⟩
  | case7 => cases h; exact ⟨_, _, rfl⟩
  | case8 position escape more _ hletter c hshort _ ih => exact ih (map_eq_error h)
  | case9 => cases h; exact ⟨_, _, rfl⟩
  | case10 position c rest hquote hslash hcontrol ih => exact ih (map_eq_error h)

theorem readAtom_eq_error {text : List Char} {ending : Ending}
    (h : readAtom text = .error ending) :
    ending = .stray ∨ (Numeral.read text).whole ≠ [] ∧
      maxDigits < (Numeral.read text).whole.length ∧
      ending = .oversized (Numeral.read text).whole.length := by
  unfold readAtom at h
  split at h
  · contradiction
  · simp only at h
    split at h
    · exact Or.inl (Except.error.inj h).symm
    · next hsome =>
        split at h
        · next hlong =>
            rw [Bool.and_eq_true, decide_eq_true_eq] at hlong
            exact Or.inr ⟨by simpa using hsome, hlong.2, (Except.error.inj h).symm⟩
        · contradiction

theorem readToken_eq_error {position : Nat} {c : Char} {rest : List Char} {ending : Ending}
    (h : readToken position c rest = .error ending) :
    (∃ problem place, ending = .brokenText problem place) ∨
      readAtom (c :: rest) = .error ending := by
  unfold readToken at h
  split at h
  · contradiction
  · split at h
    · exact Or.inl (readCodes_eq_error (map_eq_error h))
    · exact Or.inr h

theorem readToken_ne_finished {position : Nat} {c : Char} {rest : List Char} {ending : Ending}
    (h : readToken position c rest = .error ending) : ending ≠ .finished := by
  rcases readToken_eq_error h with ⟨problem, place, rfl⟩ | hatom
  · simp
  · rcases readAtom_eq_error hatom with rfl | ⟨-, -, rfl⟩ <;> simp

/-- A text that reads well is spacing alone before a finished value, or has a token
after its spacing that takes the machine one step. -/
theorem Config.Reads.cases {config : Config} {text : List Char} {final : Json}
    (h : config.Reads levels text final) :
    ∃ spacing rest, text = spacing ++ rest ∧ IsSpacing spacing ∧
      (rest = [] ∧ config = ⟨[], .afterValue final⟩ ∨
        ∃ position spelling token later next, rest = spelling ++ later ∧ spelling ≠ [] ∧
          Lexeme spelling token ∧ config.step levels position token = .ok next ∧
          next.Reads levels later final) := by
  induction text with
  | nil =>
      obtain ⟨position, hresume⟩ := h
      rw [resume_nil] at hresume
      exact ⟨[], [], rfl, by simp [IsSpacing], Or.inl ⟨rfl, (conclude_eq_ok hresume).1⟩⟩
  | cons c more ih =>
      obtain ⟨position, hresume⟩ := h
      cases hspace : isSpace c with
      | true =>
          rw [resume_space hspace] at hresume
          obtain ⟨spacing, rest, rfl, hspacing, hrest⟩ := ih ⟨_, hresume⟩
          refine ⟨c :: spacing, rest, rfl, ?_, hrest⟩
          intro d hd
          cases hd with
          | head => exact (isSpace_iff c).mp hspace
          | tail _ hd => exact hspacing d hd
      | false =>
          refine ⟨[], c :: more, rfl, by simp [IsSpacing], Or.inr ?_⟩
          cases hread : readToken position c more with
          | error ending =>
              rw [resume_ending hspace hread] at hresume
              exact absurd (conclude_eq_ok hresume).2 (readToken_ne_finished hread)
          | ok result =>
              obtain ⟨token, length⟩ := result
              obtain ⟨spelling, hlexeme, hne, hsplit⟩ := lexeme_of_readToken hread
              rw [resume_token hspace hread] at hresume
              cases hstep : config.step levels position token with
              | error failure => simp [hstep] at hresume
              | ok next =>
                  simp only [hstep] at hresume
                  exact ⟨position, spelling, token, _, next, hsplit, hne, hlexeme, hstep,
                    ⟨_, hresume⟩⟩

/-- Unless the value is finished, a token follows the spacing. -/
theorem Config.Reads.exists_token {config : Config} {text : List Char} {final : Json}
    (h : config.Reads levels text final) (hopen : config ≠ ⟨[], .afterValue final⟩) :
    ∃ spacing spelling later position token next, text = spacing ++ (spelling ++ later) ∧
      IsSpacing spacing ∧ spelling ≠ [] ∧ Lexeme spelling token ∧
      config.step levels position token = .ok next ∧ next.Reads levels later final := by
  obtain ⟨spacing, rest, rfl, hspacing, hend | htoken⟩ := h.cases
  · exact absurd hend.2 hopen
  · obtain ⟨position, spelling, token, later, next, rfl, hne, hlexeme, hstep, hnext⟩ := htoken
    exact ⟨spacing, spelling, later, position, token, next, rfl, hspacing, hne, hlexeme, hstep,
      hnext⟩

theorem openContainer_cases {stack : List Frame} {container : Container}
    {expected : Expected} {next : Config}
    (h : openContainer levels stack container expected = .ok next) : next = ⟨stack, expected⟩ := by
  unfold openContainer at h
  split at h
  · exact (Except.ok.inj h).symm
  · contradiction

theorem firstItem_cases {stack : List Frame} {position : Nat} {token : Token} {next : Config}
    (h : Config.step levels ⟨stack, .firstItem⟩ position token = .ok next) :
    token = .closeArray ∧ next = ⟨stack, .afterValue (.array [])⟩ ∨
      stepValue levels (.array [] :: stack) position token = .ok next := by
  cases token with
  | closeArray => exact Or.inl ⟨rfl, (Except.ok.inj h).symm⟩
  | openArray => exact Or.inr h
  | openObject => exact Or.inr h
  | closeObject => exact Or.inr h
  | comma => exact Or.inr h
  | colon => exact Or.inr h
  | string value => exact Or.inr h
  | atom value => exact Or.inr h

theorem firstName_cases {stack : List Frame} {position : Nat} {token : Token} {next : Config}
    (h : Config.step levels ⟨stack, .firstName⟩ position token = .ok next) :
    token = .closeObject ∧ next = ⟨stack, .afterValue (.object [])⟩ ∨
      stepName stack [] position token = .ok next := by
  cases token with
  | closeObject => exact Or.inl ⟨rfl, (Except.ok.inj h).symm⟩
  | openArray => exact Or.inr h
  | closeArray => exact Or.inr h
  | openObject => exact Or.inr h
  | comma => exact Or.inr h
  | colon => exact Or.inr h
  | string value => exact Or.inr h
  | atom value => exact Or.inr h

/-! ## What follows a value -/

section

variable {outer : List Frame} {rest : List Char} {value final : Json}

theorem reads_afterItem {items : List Json}
    (h : Config.Reads levels ⟨.array items :: outer, .afterValue value⟩ rest final) :
    ∃ after more, IsSpacing after ∧
      (rest = after ++ ']' :: more ∧
          Config.Reads levels ⟨outer, .afterValue (.array (items.reverse ++ [value]))⟩ more final ∨
        rest = after ++ ',' :: more ∧
          Config.Reads levels ⟨.array (value :: items) :: outer, .value⟩ more final) := by
  obtain ⟨after, spelling, more, position, token, next, rfl, hafter, -, hlexeme, hstep,
    hnext⟩ := h.exists_token (by simp)
  refine ⟨after, more, hafter, ?_⟩
  cases hlexeme with
  | closeArray =>
      cases hstep
      rw [List.reverse_cons] at hnext
      exact Or.inl ⟨rfl, hnext⟩
  | comma =>
      cases hstep
      exact Or.inr ⟨rfl, hnext⟩
  | openArray => contradiction
  | openObject => contradiction
  | closeObject => contradiction
  | colon => contradiction
  | string _ => contradiction
  | atom _ => contradiction

theorem reads_afterMember {members : List (CodeText × Json)} {name : CodeText}
    (h : Config.Reads levels ⟨.object members name :: outer, .afterValue value⟩ rest final) :
    ∃ after more, IsSpacing after ∧
      (rest = after ++ '\x7d' :: more ∧
          Config.Reads levels ⟨outer, .afterValue (.object (members.reverse ++ [(name, value)]))⟩
            more final ∨
        rest = after ++ ',' :: more ∧
          Config.Reads levels ⟨outer, .name ((name, value) :: members)⟩ more final) := by
  obtain ⟨after, spelling, more, position, token, next, rfl, hafter, -, hlexeme, hstep,
    hnext⟩ := h.exists_token (by simp)
  refine ⟨after, more, hafter, ?_⟩
  cases hlexeme with
  | closeObject =>
      cases hstep
      rw [List.reverse_cons] at hnext
      exact Or.inl ⟨rfl, hnext⟩
  | comma =>
      cases hstep
      exact Or.inr ⟨rfl, hnext⟩
  | openArray => contradiction
  | closeArray => contradiction
  | openObject => contradiction
  | colon => contradiction
  | string _ => contradiction
  | atom _ => contradiction

theorem reads_colon {members : List (CodeText × Json)} {name : CodeText}
    (h : Config.Reads levels ⟨outer, .colon members name⟩ rest final) :
    ∃ after more, IsSpacing after ∧ rest = after ++ ':' :: more ∧
      Config.Reads levels ⟨.object members name :: outer, .value⟩ more final := by
  obtain ⟨after, spelling, more, position, token, next, rfl, hafter, -, hlexeme, hstep,
    hnext⟩ := h.exists_token (by simp)
  cases hlexeme with
  | colon =>
      cases hstep
      exact ⟨after, more, hafter, rfl, hnext⟩
  | openArray => contradiction
  | closeArray => contradiction
  | openObject => contradiction
  | closeObject => contradiction
  | comma => contradiction
  | string _ => contradiction
  | atom _ => contradiction

theorem stepName_eq_ok {members : List (CodeText × Json)} {position : Nat} {token : Token}
    {next : Config} (h : stepName outer members position token = .ok next) :
    ∃ name, token = .string name ∧ next = ⟨outer, .colon members name⟩ := by
  unfold stepName at h
  split at h
  · next name => exact ⟨name, rfl, (Except.ok.inj h).symm⟩
  · contradiction

theorem Lexeme.quotes {spelling : List Char} {name : CodeText}
    (h : Lexeme spelling (.string name)) :
    ∃ body, Quotes body name ∧ spelling = '"' :: body ++ ['"'] := by
  cases h with
  | @string body _ hbody => exact ⟨body, hbody, rfl⟩

theorem reads_name {members : List (CodeText × Json)}
    (h : Config.Reads levels ⟨outer, .name members⟩ rest final) :
    ∃ before key name later, rest = before ++ '"' :: key ++ '"' :: later ∧ IsSpacing before ∧
      Quotes key name ∧ Config.Reads levels ⟨outer, .colon members name⟩ later final := by
  obtain ⟨before, spelling, later, position, token, next, rfl, hbefore, -, hlexeme, hstep,
    hnext⟩ := h.exists_token (by simp)
  obtain ⟨name, rfl, rfl⟩ := stepName_eq_ok hstep
  obtain ⟨key, hkey, rfl⟩ := hlexeme.quotes
  exact ⟨before, key, name, later, by simp, hbefore, hkey, hnext⟩

end

/-! ## Values -/

/-- After the first token of a value, with less than `size` characters left, the text up
to the end of the value is written for it. -/
def ReadsValues (levels size : Nat) : Prop :=
  ∀ later : List Char, later.length < size →
    ∀ (stack : List Frame) (position : Nat) (spelling : List Char) (token : Token)
      (next : Config) (final : Json), Lexeme spelling token →
      stepValue levels stack position token = .ok next → next.Reads levels later final →
      ∃ body value rest, spelling ++ later = body ++ rest ∧ rest.length ≤ later.length ∧
        Written body value ∧ Config.Reads levels ⟨stack, .afterValue value⟩ rest final

section

variable {size : Nat} (hvalues : ReadsValues levels size) {outer : List Frame} {final : Json}
include hvalues

theorem reads_value {stack : List Frame} {text : List Char} (hlength : text.length ≤ size)
    (h : Config.Reads levels ⟨stack, .value⟩ text final) :
    ∃ before body value rest, text = before ++ body ++ rest ∧ rest.length < text.length ∧
      IsSpacing before ∧ Written body value ∧
      Config.Reads levels ⟨stack, .afterValue value⟩ rest final := by
  obtain ⟨before, spelling, later, position, token, next, rfl, hbefore, hne, hlexeme, hstep,
    hnext⟩ := h.exists_token (by simp)
  have hpos : 0 < spelling.length := List.length_pos_iff.mpr hne
  simp only [List.length_append] at hlength
  obtain ⟨body, value, rest, hsplit, hrest, hbody, hreads⟩ :=
    hvalues later (by omega) stack position spelling token next final hlexeme hstep hnext
  refine ⟨before, body, value, rest, ?_, ?_, hbefore, hbody, hreads⟩
  · rw [hsplit, List.append_assoc]
  · simp only [List.length_append]
    omega

theorem reads_items {rest : List Char} {items : List Json} {value : Json}
    (hlength : rest.length ≤ size)
    (h : Config.Reads levels ⟨.array items :: outer, .afterValue value⟩ rest final) :
    ∃ tail values more, rest = tail ++ ']' :: more ∧
      Config.Reads levels ⟨outer, .afterValue (.array (items.reverse ++ value :: values))⟩ more
        final ∧
      ∀ before body, IsSpacing before → Written body value →
        WrittenItems (before ++ body ++ tail) (value :: values) := by
  induction hn : rest.length using Nat.strongRecOn generalizing rest items value with
  | ind n ih =>
      obtain ⟨after, more, hafter, ⟨rfl, hclose⟩ | ⟨rfl, hcomma⟩⟩ := reads_afterItem h
      · refine ⟨after, [], more, rfl, hclose, ?_⟩
        intro before body hbefore hbody
        exact WrittenItems.last (Element.mk hbefore hbody hafter)
      · -- The next item takes characters off the rest, which is what the induction counts.
        simp only [List.length_append, List.length_cons] at hlength hn
        obtain ⟨before', body', value', rest', rfl, hshort, hbefore', hbody', hreads⟩ :=
          reads_value hvalues (by omega) hcomma
        simp only [List.length_append] at hlength hn
        obtain ⟨tail, values, more, rfl, hfinal, hwritten⟩ :=
          ih rest'.length (by omega) (by omega) hreads rfl
        refine ⟨after ++ ',' :: (before' ++ body' ++ tail), value' :: values, more, ?_, ?_, ?_⟩
        · simp
        · rwa [List.reverse_cons, List.append_assoc, List.singleton_append] at hfinal
        · intro before body hbefore hbody
          rw [← List.append_assoc]
          exact WrittenItems.more (Element.mk hbefore hbody hafter)
            (hwritten before' body' hbefore' hbody')

theorem reads_memberValue {members : List (CodeText × Json)} {name : CodeText} {text : List Char}
    (hlength : text.length ≤ size)
    (h : Config.Reads levels ⟨outer, .colon members name⟩ text final) :
    ∃ between inner body value rest, text = between ++ ':' :: (inner ++ body ++ rest) ∧
      rest.length < text.length ∧ IsSpacing between ∧ IsSpacing inner ∧ Written body value ∧
      Config.Reads levels ⟨.object members name :: outer, .afterValue value⟩ rest final := by
  obtain ⟨between, more, hbetween, rfl, hcolon⟩ := reads_colon h
  simp only [List.length_append, List.length_cons] at hlength
  obtain ⟨inner, body, value, rest, rfl, hrest, hinner, hbody, hreads⟩ :=
    reads_value hvalues (by omega) hcolon
  refine ⟨between, inner, body, value, rest, rfl, ?_, hbetween, hinner, hbody, hreads⟩
  simp only [List.length_append, List.length_cons]
  omega

theorem reads_members {rest : List Char} {members : List (CodeText × Json)} {name : CodeText}
    {value : Json} (hlength : rest.length ≤ size)
    (h : Config.Reads levels ⟨.object members name :: outer, .afterValue value⟩ rest final) :
    ∃ tail added more, rest = tail ++ '\x7d' :: more ∧
      Config.Reads levels
        ⟨outer, .afterValue (.object (members.reverse ++ (name, value) :: added))⟩ more final ∧
      ∀ before key between inner body, IsSpacing before → Quotes key name → IsSpacing between →
        IsSpacing inner → Written body value →
        WrittenMembers
          (before ++ '"' :: key ++ '"' :: between ++ ':' :: (inner ++ body ++ tail))
          ((name, value) :: added) := by
  induction hn : rest.length using Nat.strongRecOn generalizing rest members name value with
  | ind n ih =>
      obtain ⟨after, more, hafter, ⟨rfl, hclose⟩ | ⟨rfl, hcomma⟩⟩ := reads_afterMember h
      · refine ⟨after, [], more, rfl, hclose, ?_⟩
        intro before key between inner body hbefore hkey hbetween hinner hbody
        exact WrittenMembers.last hbefore hkey hbetween (Element.mk hinner hbody hafter)
      · obtain ⟨before', key', name', later, rfl, hbefore', hkey', hcolon⟩ := reads_name hcomma
        simp only [List.length_append, List.length_cons] at hlength hn
        obtain ⟨between', inner', body', value', rest', rfl, hshort, hbetween', hinner', hbody',
          hreads⟩ := reads_memberValue hvalues (by omega) hcolon
        obtain ⟨tail, added, more, rfl, hfinal, hwritten⟩ :=
          ih rest'.length (by omega) (by omega) hreads rfl
        have hlater := hwritten before' key' between' inner' body' hbefore' hkey' hbetween'
          hinner' hbody'
        refine ⟨after ++ ',' :: (before' ++ '"' :: key' ++ '"' :: between' ++
          ':' :: (inner' ++ body' ++ tail)), (name', value') :: added, more, ?_, ?_, ?_⟩
        · simp
        · rwa [List.reverse_cons, List.append_assoc, List.singleton_append] at hfinal
        · intro before key between inner body hbefore hkey hbetween hinner hbody
          have hwhole := WrittenMembers.more hbefore hkey hbetween
            (Element.mk hinner hbody hafter) hlater
          simpa only [List.append_assoc, List.cons_append] using hwhole

theorem reads_array {stack : List Frame} {text : List Char} (hlength : text.length ≤ size)
    (h : Config.Reads levels ⟨stack, .firstItem⟩ text final) :
    ∃ inside items rest, text = inside ++ ']' :: rest ∧
      Written ('[' :: inside ++ [']']) (.array items) ∧
      Config.Reads levels ⟨stack, .afterValue (.array items)⟩ rest final := by
  obtain ⟨before, spelling, later, position, token, next, rfl, hbefore, hne, hlexeme, hstep,
    hnext⟩ := h.exists_token (by simp)
  have hpos : 0 < spelling.length := List.length_pos_iff.mpr hne
  simp only [List.length_append] at hlength
  obtain ⟨rfl, rfl⟩ | hfirst := firstItem_cases hstep
  · cases hlexeme
    exact ⟨before, [], later, rfl, Written.emptyArray hbefore, hnext⟩
  · obtain ⟨body, value, rest, hsplit, hrest, hbody, hreads⟩ :=
      hvalues later (by omega) _ position spelling token next final hlexeme hfirst hnext
    obtain ⟨tail, values, more, rfl, hfinal, hwritten⟩ :=
      reads_items hvalues (by omega) hreads
    refine ⟨before ++ body ++ tail, value :: values, more, ?_, ?_, hfinal⟩
    · rw [hsplit]
      simp
    · exact Written.array (hwritten before body hbefore hbody)

theorem reads_object {stack : List Frame} {text : List Char} (hlength : text.length ≤ size)
    (h : Config.Reads levels ⟨stack, .firstName⟩ text final) :
    ∃ inside members rest, text = inside ++ '\x7d' :: rest ∧
      Written ('\x7b' :: inside ++ ['\x7d']) (.object members) ∧
      Config.Reads levels ⟨stack, .afterValue (.object members)⟩ rest final := by
  obtain ⟨before, spelling, later, position, token, next, rfl, hbefore, -, hlexeme, hstep,
    hnext⟩ := h.exists_token (by simp)
  simp only [List.length_append] at hlength
  obtain ⟨rfl, rfl⟩ | hfirst := firstName_cases hstep
  · cases hlexeme
    exact ⟨before, [], later, rfl, Written.emptyObject hbefore, hnext⟩
  · obtain ⟨name, rfl, rfl⟩ := stepName_eq_ok hfirst
    obtain ⟨key, hkey, rfl⟩ := hlexeme.quotes
    obtain ⟨between, inner, body, value, rest, rfl, hrest, hbetween, hinner, hbody, hreads⟩ :=
      reads_memberValue hvalues (by omega) hnext
    obtain ⟨tail, added, more, rfl, hfinal, hwritten⟩ :=
      reads_members hvalues (by omega) hreads
    refine ⟨before ++ '"' :: key ++ '"' :: between ++ ':' :: (inner ++ body ++ tail),
      (name, value) :: added, more, ?_, ?_, hfinal⟩
    · simp
    · exact Written.object (hwritten before key between inner body hbefore hkey hbetween
        hinner hbody)

end

theorem readsValues (size : Nat) : ReadsValues levels size := by
  induction size with
  | zero =>
      intro later hlater
      exact absurd hlater (Nat.not_lt_zero _)
  | succ size ih =>
      intro later hlater stack position spelling token next final hlexeme hstep hnext
      cases hlexeme with
      | @string body value hbody =>
          cases hstep
          exact ⟨_, _, later, rfl, le_rfl, Written.string hbody, hnext⟩
      | @atom spelling value hwritten =>
          cases hstep
          exact ⟨spelling, value, later, rfl, le_rfl, hwritten, hnext⟩
      | openArray =>
          -- What is inside begins behind the bracket, so the smaller bound covers it.
          obtain rfl := openContainer_cases hstep
          obtain ⟨inside, items, rest, rfl, hwritten, hreads⟩ :=
            reads_array ih (Nat.lt_succ_iff.mp hlater) hnext
          refine ⟨_, .array items, rest, (bracketed_append '[' ']' inside rest).symm, ?_,
            hwritten, hreads⟩
          simp only [List.length_append, List.length_cons]
          omega
      | openObject =>
          obtain rfl := openContainer_cases hstep
          obtain ⟨inside, members, rest, rfl, hwritten, hreads⟩ :=
            reads_object ih (Nat.lt_succ_iff.mp hlater) hnext
          refine ⟨_, .object members, rest, (bracketed_append '\x7b' '\x7d' inside rest).symm,
            ?_, hwritten, hreads⟩
          simp only [List.length_append, List.length_cons]
          omega
      | closeArray => contradiction
      | closeObject => contradiction
      | comma => contradiction
      | colon => contradiction

/-! ## Documents -/

/-- A text that is read as a value is an element of that value. -/
theorem element_of_parse {text : List Char} {value : Json} (h : parse levels text = .ok value) :
    Element text value := by
  rw [parse_eq_resume] at h
  split at h
  · contradiction
  · have hreads : Config.Reads levels ⟨[], .value⟩ text value := ⟨0, h⟩
    obtain ⟨before, body, found, rest, rfl, -, hbefore, hbody, hrest⟩ :=
      reads_value (readsValues text.length) le_rfl hreads
    obtain ⟨after, later, rfl, hafter, ⟨rfl, hend⟩ | htoken⟩ := hrest.cases
    · simp only [Config.mk.injEq, Expected.afterValue.injEq, true_and] at hend
      rw [List.append_nil, ← hend]
      exact Element.mk hbefore hbody hafter
    · obtain ⟨position, spelling, token, later, next, rfl, -, -, hstep, -⟩ := htoken
      contradiction

theorem Element.not_byteOrderMark {text : List Char} {value : Json} (h : Element text value) :
    text.head? ≠ some '\uFEFF' := by
  cases h with
  | @mk before body after _ hbefore hbody hafter =>
      intro hhead
      cases before with
      | cons c more =>
          have hc := hbefore c (by simp)
          simp only [List.cons_append, List.head?_cons, Option.some.injEq] at hhead
          rw [hhead] at hc
          revert hc
          decide
      | nil =>
          obtain ⟨c, more, rfl, hc⟩ := hbody.exists_head
          simp only [List.nil_append, List.cons_append, List.head?_cons, Option.some.injEq] at hhead
          rw [hhead] at hc
          revert hc
          decide

/-- An element of a value within the limits is read as that value. -/
theorem parse_of_element {text : List Char} {value : Json} (h : Element text value)
    (hlimits : value.IsWithin levels maxDigits) : parse levels text = .ok value := by
  rw [parse_eq_resume, if_neg h.not_byteOrderMark]
  have hleads : Config.initial.Leads levels (text ++ []) ⟨[], .afterValue value⟩ [] :=
    h.leads (awaits_value []) (by simp [IsBoundary]) (by simpa using hlimits.depth_le)
      hlimits.integers_lt
  rw [List.append_nil] at hleads
  obtain ⟨later, heq⟩ := hleads 0
  rw [heq, resume_nil]
  rfl

/-! ## Values of short texts -/

theorem Numeral.depth_value (numeral : Numeral) : numeral.value.depth = 0 := by
  unfold Numeral.value
  split <;> rfl

theorem Numeral.IsProper.natAbs_lt {numeral : Numeral} (h : numeral.IsProper) {n : Int}
    (hn : n ∈ numeral.value.integers) :
    numeral.isWhole = true ∧ n.natAbs < 10 ^ numeral.whole.length := by
  cases hwhole : numeral.isWhole with
  | false => simp [Numeral.value, hwhole, integers] at hn
  | true =>
      obtain ⟨m, hvalue, hm⟩ := Numeral.value_of_isWhole hwhole
      rw [hvalue, integers, List.mem_singleton] at hn
      have hdigits : ∀ digit ∈ numeral.whole.map digitValue, digit < 10 := by
        intro digit hdigit
        obtain ⟨c, hc, rfl⟩ := List.mem_map.mp hdigit
        cases h.whole with
        | inl hzero =>
            rw [hzero, List.mem_singleton] at hc
            rw [hc]
            decide
        | inr hproper => exact (digitValue_of_isDigit (hproper.1.2 c hc)).1
      have hlt := ofDigits_lt hdigits
      rw [List.length_map] at hlt
      exact ⟨rfl, by rwa [hn, hm]⟩

theorem Numeral.IsProper.integers_lt {numeral : Numeral} (h : numeral.IsProper) :
    ∀ n ∈ numeral.value.integers, n.natAbs < 10 ^ numeral.spelling.length := by
  intro n hn
  have hlength : numeral.whole.length ≤ numeral.spelling.length := by
    simp only [Numeral.spelling, List.length_append]
    omega
  exact Nat.lt_of_lt_of_le (h.natAbs_lt hn).2 (Nat.pow_le_pow_right (by decide) hlength)

/-- What is written in a text is within the limits given by its length. -/
def LengthLimits (length depth : Nat) (integers : List Int) : Prop :=
  depth ≤ length ∧ ∀ n ∈ integers, n.natAbs < 10 ^ length

theorem LengthLimits.mono {length longer depth : Nat} {integers : List Int}
    (h : LengthLimits length depth integers) (hle : length ≤ longer) :
    LengthLimits longer depth integers := by
  refine ⟨h.1.trans hle, ?_⟩
  intro n hn
  exact Nat.lt_of_lt_of_le (h.2 n hn) (Nat.pow_le_pow_right (by decide) hle)

theorem LengthLimits.append {length depth more : Nat} {integers others : List Int}
    (h : LengthLimits length depth integers) (hmore : LengthLimits length more others) :
    LengthLimits length (max depth more) (integers ++ others) := by
  refine ⟨max_le h.1 hmore.1, ?_⟩
  intro n hn
  rw [List.mem_append] at hn
  cases hn with
  | inl hleft => exact h.2 n hleft
  | inr hright => exact hmore.2 n hright

theorem LengthLimits.bracketed {inside : List Char} {depth : Nat} {integers : List Int}
    (h : LengthLimits inside.length depth integers) (first last : Char) :
    LengthLimits (first :: inside ++ [last]).length (depth + 1) integers := by
  have hlength : (first :: inside ++ [last]).length = inside.length + 2 := by simp
  rw [hlength]
  exact ⟨(Nat.succ_le_succ h.1).trans (Nat.le_succ _), (h.mono (Nat.le_add_right _ 2)).2⟩

mutual

theorem Written.lengthLimits : ∀ {body value}, Written body value →
    LengthLimits body.length value.depth value.integers
  | _, _, .word hword => by
      simp only [words, List.mem_cons, List.not_mem_nil, or_false, Prod.mk.injEq] at hword
      rcases hword with ⟨rfl, rfl⟩ | ⟨rfl, rfl⟩ | ⟨rfl, rfl⟩ | ⟨rfl, rfl⟩ | ⟨rfl, rfl⟩ | ⟨rfl, rfl⟩
      all_goals exact ⟨Nat.zero_le _, by simp [integers]⟩
  | _, _, @Written.number numeral hproper => by
      refine ⟨?_, hproper.integers_lt⟩
      rw [numeral.depth_value]
      exact Nat.zero_le _
  | _, _, .string _ => ⟨Nat.zero_le _, by simp [integers]⟩
  | _, _, .emptyArray _ => ⟨by simp [depth, depthOfItems], by simp [integers, integersOfItems]⟩
  | _, _, .array hitems => by
      rw [depth, integers]
      exact hitems.lengthLimits.bracketed '[' ']'
  | _, _, .emptyObject _ =>
      ⟨by simp [depth, depthOfMembers], by simp [integers, integersOfMembers]⟩
  | _, _, .object hmembers => by
      rw [depth, integers]
      exact hmembers.lengthLimits.bracketed '\x7b' '\x7d'

theorem Element.lengthLimits : ∀ {text value}, Element text value →
    LengthLimits text.length value.depth value.integers
  | _, _, .mk _ hbody _ => by
      refine hbody.lengthLimits.mono ?_
      simp only [List.length_append]
      omega

theorem WrittenItems.lengthLimits : ∀ {text values}, WrittenItems text values →
    LengthLimits text.length (depthOfItems values) (integersOfItems values)
  | _, _, .last hvalue => by
      rw [depthOfItems, depthOfItems, integersOfItems, integersOfItems, List.append_nil,
        Nat.max_zero]
      exact hvalue.lengthLimits
  | _, _, .more hvalue hvalues => by
      rw [depthOfItems, integersOfItems]
      refine LengthLimits.append (hvalue.lengthLimits.mono ?_) (hvalues.lengthLimits.mono ?_)
      · simp
      · simp only [List.length_append, List.length_cons]
        omega

theorem WrittenMembers.lengthLimits : ∀ {text members}, WrittenMembers text members →
    LengthLimits text.length (depthOfMembers members) (integersOfMembers members)
  | _, _, .last _ _ _ hvalue => by
      rw [depthOfMembers, depthOfMembers, integersOfMembers, integersOfMembers, List.append_nil,
        Nat.max_zero]
      refine hvalue.lengthLimits.mono ?_
      simp only [List.length_append, List.length_cons]
      omega
  | _, _, .more _ _ _ hvalue hmembers => by
      rw [depthOfMembers, integersOfMembers]
      refine LengthLimits.append (hvalue.lengthLimits.mono ?_) (hmembers.lengthLimits.mono ?_)
      · simp only [List.length_append, List.length_cons]
        omega
      · simp only [List.length_append, List.length_cons]
        omega

end

theorem Element.isWithin_length {text : List Char} {value : Json} (h : Element text value) :
    value.IsWithin text.length text.length :=
  ⟨h.lengthLimits.1, h.lengthLimits.2⟩

theorem IsWithin.mono {levels more digits longer : Nat} {value : Json}
    (h : value.IsWithin levels digits) (hlevels : levels ≤ more) (hdigits : digits ≤ longer) :
    value.IsWithin more longer := by
  refine ⟨h.depth_le.trans hlevels, ?_⟩
  intro n hn
  exact Nat.lt_of_lt_of_le (h.integers_lt n hn) (Nat.pow_le_pow_right (by decide) hdigits)

end DependencyAudit.Json
