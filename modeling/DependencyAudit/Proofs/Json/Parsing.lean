import DependencyAudit.Json.Reader
import DependencyAudit.Proofs.Json.Lexemes
import Mathlib.Tactic.Ring

/-!
# Reading what is written

The reader is a machine over tokens, the grammar a relation between texts and values.
They meet in what the machine makes of the text still before it.  A value that is
written at the start of that text leads the machine to the same stack with the value
completed, as long as no limit is passed; and whenever the machine ends well, what it
took off the text is written for the value it completed.
-/

namespace DependencyAudit.Json

open DependencyAudit.Text

variable {levels : Nat}

/-! ## The machine before a text -/

/-- The outcome of reading a text on from a configuration. -/
def Config.resume (levels : Nat) (config : Config) (position : Nat) (text : List Char) :
    Except Failure Json :=
  match config.run levels (lex position text).1 with
  | .error failure => .error failure
  | .ok next => next.conclude (lex position text).2.1 (lex position text).2.2

theorem parse_eq_resume (text : List Char) :
    parse levels text =
      if text.head? = some '\uFEFF' then .error (.malformed .byteOrderMark 0)
      else Config.initial.resume levels 0 text := rfl

theorem resume_nil (config : Config) (position : Nat) :
    config.resume levels position [] = config.conclude position .finished := by
  rw [Config.resume, lex]
  rfl

theorem resume_space {c : Char} (h : isSpace c = true) (config : Config) (position : Nat)
    (rest : List Char) :
    config.resume levels position (c :: rest) = config.resume levels (position + 1) rest := by
  rw [Config.resume, lex, if_pos h]
  rfl

theorem resume_token {c : Char} {rest : List Char} {position length : Nat} {token : Token}
    (hspace : isSpace c = false) (hread : readToken position c rest = .ok (token, length))
    (config : Config) :
    config.resume levels position (c :: rest) =
      match config.step levels position token with
      | .error failure => .error failure
      | .ok next => next.resume levels (position + length) (rest.drop (length - 1)) := by
  rw [Config.resume, lex, if_neg (by simp [hspace])]
  simp only [hread, Config.run]
  cases config.step levels position token with
  | error failure => rfl
  | ok next => rfl

theorem resume_ending {c : Char} {rest : List Char} {position : Nat} {ending : Ending}
    (hspace : isSpace c = false) (hread : readToken position c rest = .error ending)
    (config : Config) :
    config.resume levels position (c :: rest) = config.conclude position ending := by
  rw [Config.resume, lex, if_neg (by simp [hspace])]
  simp only [hread, Config.run]

/-- Reading on from a configuration comes to another one with less of the text. -/
def Config.Leads (levels : Nat) (config : Config) (text : List Char) (next : Config)
    (rest : List Char) : Prop :=
  ∀ position, ∃ later, config.resume levels position text = next.resume levels later rest

theorem Config.Leads.refl (config : Config) (text : List Char) :
    config.Leads levels text config text := by
  intro position
  exact ⟨position, rfl⟩

theorem Config.Leads.trans {first second third : Config} {text middle rest : List Char}
    (h : first.Leads levels text second middle) (hnext : second.Leads levels middle third rest) :
    first.Leads levels text third rest := by
  intro position
  obtain ⟨later, heq⟩ := h position
  obtain ⟨last, hlast⟩ := hnext later
  exact ⟨last, heq.trans hlast⟩

theorem isSpace_iff (c : Char) :
    isSpace c = true ↔ c = ' ' ∨ c = '\t' ∨ c = '\n' ∨ c = '\r' := by
  simp [isSpace, or_assoc]

theorem leads_spacing {spacing : List Char} (h : IsSpacing spacing) (config : Config)
    (rest : List Char) : config.Leads levels (spacing ++ rest) config rest := by
  induction spacing with
  | nil => exact Config.Leads.refl config rest
  | cons c more ih =>
      intro position
      have hc : isSpace c = true := (isSpace_iff c).mpr (h c (by simp))
      obtain ⟨later, heq⟩ := ih (fun d hd => h d (List.mem_cons_of_mem c hd)) (position + 1)
      exact ⟨later, (resume_space hc config position _).trans heq⟩

theorem leads_token {c : Char} {more rest : List Char} {token : Token} {config next : Config}
    (hspace : isSpace c = false)
    (hread : ∀ position,
      readToken position c (more ++ rest) = .ok (token, (c :: more).length))
    (hstep : ∀ position, config.step levels position token = .ok next) :
    config.Leads levels (c :: more ++ rest) next rest := by
  intro position
  refine ⟨position + (c :: more).length, ?_⟩
  rw [List.cons_append, resume_token hspace (hread position), hstep position]
  simp only [List.length_cons, Nat.add_sub_cancel, List.drop_left]

/-! ## What the lexer takes off whole -/

theorem leads_punctuation {c : Char} {token : Token} {config next : Config}
    (hc : punctuation? c = some token) (hspace : isSpace c = false)
    (hstep : ∀ position, config.step levels position token = .ok next) (rest : List Char) :
    config.Leads levels (c :: rest) next rest := by
  have hleads : config.Leads levels ([c] ++ rest) next rest := by
    refine leads_token hspace ?_ hstep
    intro position
    rw [readToken, hc]
    rfl
  exact hleads

theorem leads_string {body : List Char} {value : CodeText} {config next : Config}
    (h : Quotes body value)
    (hstep : ∀ position, config.step levels position (.string value) = .ok next)
    (rest : List Char) : config.Leads levels ('"' :: body ++ '"' :: rest) next rest := by
  obtain ⟨codes, hcodes, hvalue⟩ := quotes_iff.mp h
  have hleads : config.Leads levels ('"' :: (body ++ ['"']) ++ rest) next rest := by
    refine leads_token (by decide) ?_ hstep
    intro position
    have hquote : punctuation? '"' = none := by decide
    rw [readToken, hquote]
    simp only [if_true, List.append_assoc, List.singleton_append]
    rw [readCodes_of_spelled hcodes, hvalue]
    simp only [Except.map, List.length_cons, List.length_append, List.length_nil]
    congr 2
    omega
  simpa using hleads

theorem punctuation?_of_atom {c : Char}
    (h : c.isDigit = true ∨ c ∈ ['n', 't', 'f', 'N', 'I', '-']) :
    punctuation? c = none ∧ c ≠ '"' ∧ isSpace c = false := by
  cases h with
  | inl hdigit =>
      have hne : ∀ mark : Char, mark.isDigit = false → c ≠ mark := by
        intro mark hmark heq
        rw [heq, hmark] at hdigit
        contradiction
      refine ⟨?_, hne '"' (by decide), ?_⟩
      · simp [punctuation?, hne '[', hne ']', hne '\x7b', hne '\x7d', hne ',', hne ':']
      · simp [isSpace, hne ' ', hne '\t', hne '\n', hne '\r']
  | inr hletter =>
      simp only [List.mem_cons, List.not_mem_nil, or_false] at hletter
      rcases hletter with rfl | rfl | rfl | rfl | rfl | rfl <;> decide

theorem leads_atom {spelling rest : List Char} {value : Json} {config next : Config}
    (hhead : ∃ c more, spelling = c :: more ∧
      (c.isDigit = true ∨ c ∈ ['n', 't', 'f', 'N', 'I', '-']))
    (hread : readAtom (spelling ++ rest) = .ok (.atom value, spelling.length))
    (hstep : ∀ position, config.step levels position (.atom value) = .ok next) :
    config.Leads levels (spelling ++ rest) next rest := by
  obtain ⟨c, more, rfl, hc⟩ := hhead
  obtain ⟨hmark, hquote, hspace⟩ := punctuation?_of_atom hc
  refine leads_token hspace ?_ hstep
  intro position
  rw [readToken, hmark]
  simp only [if_neg hquote]
  exact hread

/-! ## The size of whole numbers -/

theorem foldl_digits (digits : List Nat) (start : Nat) :
    digits.foldl (fun total digit => 10 * total + digit) start =
      start * 10 ^ digits.length + ofDigits digits := by
  induction digits generalizing start with
  | nil => simp [ofDigits]
  | cons digit rest ih =>
      have hdigits : ofDigits (digit :: rest) = digit * 10 ^ rest.length + ofDigits rest := by
        rw [ofDigits, List.foldl_cons, Nat.mul_zero, Nat.zero_add, ih]
      rw [List.foldl_cons, ih, hdigits, List.length_cons, Nat.pow_succ]
      ring

theorem ofDigits_cons (digit : Nat) (rest : List Nat) :
    ofDigits (digit :: rest) = digit * 10 ^ rest.length + ofDigits rest := by
  rw [ofDigits, List.foldl_cons, Nat.mul_zero, Nat.zero_add, foldl_digits]

theorem ofDigits_lt {digits : List Nat} (h : ∀ digit ∈ digits, digit < 10) :
    ofDigits digits < 10 ^ digits.length := by
  induction digits with
  | nil => decide
  | cons digit rest ih =>
      have hrest := ih fun other hother => h other (List.mem_cons_of_mem digit hother)
      have hdigit := h digit (by simp)
      rw [ofDigits_cons, List.length_cons, Nat.pow_succ]
      have hproduct : digit * 10 ^ rest.length ≤ 9 * 10 ^ rest.length :=
        Nat.mul_le_mul_right _ (by omega)
      omega

theorem digitValue_of_isDigit {c : Char} (h : c.isDigit = true) :
    digitValue c < 10 ∧ (c ≠ '0' → 0 < digitValue c) := by
  have hbounds : 48 ≤ c.toNat ∧ c.toNat ≤ 57 := by
    simpa [Char.isDigit, UInt32.le_iff_toNat_le] using h
  constructor
  · simp only [digitValue, Char.reduceToNat]
    omega
  · intro hzero
    have hne : c.toNat ≠ 48 := by
      intro heq
      exact hzero (Char.toNat_inj.mp heq)
    simp only [digitValue, Char.reduceToNat]
    omega

theorem pow_le_ofDigits {whole : List Char} (h : IsDigits whole) (hzero : whole.head? ≠ some '0') :
    10 ^ (whole.length - 1) ≤ ofDigits (whole.map digitValue) := by
  obtain ⟨hne, hall⟩ := h
  cases whole with
  | nil => contradiction
  | cons c rest =>
      have hc : c ≠ '0' := by
        intro heq
        exact hzero (by rw [heq]; rfl)
      have hpos := (digitValue_of_isDigit (hall c (by simp))).2 hc
      rw [List.map_cons, ofDigits_cons, List.length_map, List.length_cons, Nat.add_sub_cancel]
      have hproduct : 1 * 10 ^ rest.length ≤ digitValue c * 10 ^ rest.length :=
        Nat.mul_le_mul_right _ hpos
      omega

theorem Numeral.value_of_isWhole {numeral : Numeral} (h : numeral.isWhole = true) :
    ∃ n : Int, numeral.value = .integer n ∧
      n.natAbs = ofDigits (numeral.whole.map digitValue) := by
  unfold Numeral.value
  rw [if_pos h]
  by_cases hsign : numeral.sign.isEmpty = true
  · exact ⟨_, rfl, by simp [hsign]⟩
  · exact ⟨_, rfl, by simp [hsign]⟩

theorem Numeral.IsProper.whole_length_le {numeral : Numeral} (h : numeral.IsProper)
    {digits : Nat} (hpos : 0 < digits) (hwhole : numeral.isWhole = true)
    (hsize : ∀ n ∈ numeral.value.integers, n.natAbs < 10 ^ digits) :
    numeral.whole.length ≤ digits := by
  obtain ⟨n, hvalue, hn⟩ := Numeral.value_of_isWhole hwhole
  have hlt := hsize n (by rw [hvalue]; simp [integers])
  cases h.whole with
  | inl hzero =>
      rw [hzero]
      exact hpos
  | inr hdigits =>
      -- Without a leading zero the first digit alone stands for the power of its place.
      have hpow := pow_le_ofDigits hdigits.1 hdigits.2
      rw [← hn] at hpow
      have hexponent : numeral.whole.length - 1 < digits :=
        (Nat.pow_lt_pow_iff_right (by decide)).mp (Nat.lt_of_le_of_lt hpow hlt)
      omega

/-! ## Written values are read -/

/-- What may follow a value: spacing, a comma, or a closing bracket. -/
def IsBoundary (rest : List Char) : Prop :=
  ∀ c ∈ rest.head?, isSpace c = true ∨ c = ',' ∨ c = ']' ∨ c = '\x7d'

theorem IsBoundary.endsNumber {rest : List Char} (h : IsBoundary rest) : EndsNumber rest := by
  intro c hc
  have hcases := h c hc
  rw [isSpace_iff] at hcases
  rcases hcases with (rfl | rfl | rfl | rfl) | rfl | rfl | rfl <;> decide

theorem IsBoundary.append {spacing rest : List Char} (hspacing : IsSpacing spacing)
    (hrest : IsBoundary rest) : IsBoundary (spacing ++ rest) := by
  cases spacing with
  | nil => exact hrest
  | cons c more =>
      intro d hd
      rw [List.cons_append, List.head?_cons, Option.mem_some_iff] at hd
      exact Or.inl (hd ▸ (isSpace_iff c).mpr (hspacing c (by simp)))

/-- The configuration takes the first token of a value as one for the stack. -/
def Config.Awaits (levels : Nat) (config : Config) (stack : List Frame) : Prop :=
  ∀ position token, token ≠ .closeArray →
    config.step levels position token = stepValue levels stack position token

def Config.AwaitsName (levels : Nat) (config : Config) (outer : List Frame)
    (members : List (CodeText × Json)) : Prop :=
  ∀ position name, config.step levels position (.string name) = .ok ⟨outer, .colon members name⟩

theorem awaits_value (stack : List Frame) : Config.Awaits levels ⟨stack, .value⟩ stack := by
  intro position token _
  rfl

theorem awaits_firstItem (stack : List Frame) :
    Config.Awaits levels ⟨stack, .firstItem⟩ (.array [] :: stack) := by
  intro position token htoken
  cases token with
  | closeArray => contradiction
  | openArray => rfl
  | openObject => rfl
  | closeObject => rfl
  | comma => rfl
  | colon => rfl
  | string value => rfl
  | atom value => rfl

theorem awaitsName_firstName (stack : List Frame) :
    Config.AwaitsName levels ⟨stack, .firstName⟩ stack [] := by
  intro position name
  rfl

theorem awaitsName_name (stack : List Frame) (members : List (CodeText × Json)) :
    Config.AwaitsName levels ⟨stack, .name members⟩ stack members := by
  intro position name
  rfl

theorem openContainer_eq_ok {stack : List Frame} (h : stack.length < levels)
    (container : Container) (expected : Expected) :
    openContainer levels stack container expected = .ok ⟨stack, expected⟩ := by
  rw [openContainer, if_pos h]

section

variable {config : Config} {stack : List Frame} {rest : List Char}

theorem leads_word {spelling : List Char} {value : Json} (h : (spelling, value) ∈ words)
    (hconfig : config.Awaits levels stack) :
    config.Leads levels (spelling ++ rest) ⟨stack, .afterValue value⟩ rest := by
  refine leads_atom ?_ (readAtom_word h rest) fun position => hconfig position _ (by simp)
  simp only [words, List.mem_cons, List.not_mem_nil, or_false, Prod.mk.injEq] at h
  rcases h with ⟨rfl, rfl⟩ | ⟨rfl, rfl⟩ | ⟨rfl, rfl⟩ | ⟨rfl, rfl⟩ | ⟨rfl, rfl⟩ | ⟨rfl, rfl⟩
  all_goals exact ⟨_, _, rfl, Or.inr (by decide)⟩

theorem leads_number {numeral : Numeral} (h : numeral.IsProper)
    (hconfig : config.Awaits levels stack) (hrest : IsBoundary rest)
    (hsize : ∀ n ∈ numeral.value.integers, n.natAbs < 10 ^ maxDigits) :
    config.Leads levels (numeral.spelling ++ rest) ⟨stack, .afterValue numeral.value⟩ rest := by
  have hlength : numeral.isWhole = true → numeral.whole.length ≤ maxDigits := by
    intro hwhole
    exact h.whole_length_le (by decide) hwhole hsize
  refine leads_atom ?_ (readAtom_number h hrest.endsNumber hlength) fun position =>
    hconfig position _ (by simp)
  obtain ⟨c, more, hc, heq | heq⟩ := h.spelling_eq
  · exact ⟨c, more, heq, Or.inl hc⟩
  · exact ⟨'-', c :: more, heq, Or.inr (by decide)⟩

theorem leads_openArray (hconfig : config.Awaits levels stack) (hdepth : stack.length < levels) :
    config.Leads levels ('[' :: rest) ⟨stack, .firstItem⟩ rest := by
  refine leads_punctuation (by rfl) (by decide) ?_ rest
  intro position
  rw [hconfig position .openArray (by simp), stepValue, openContainer_eq_ok hdepth]

theorem leads_openObject (hconfig : config.Awaits levels stack) (hdepth : stack.length < levels) :
    config.Leads levels ('\x7b' :: rest) ⟨stack, .firstName⟩ rest := by
  refine leads_punctuation (by rfl) (by decide) ?_ rest
  intro position
  rw [hconfig position .openObject (by simp), stepValue, openContainer_eq_ok hdepth]

theorem leads_comma {items : List Json} {value : Json} :
    Config.Leads levels ⟨.array items :: stack, .afterValue value⟩ (',' :: rest)
      ⟨.array (value :: items) :: stack, .value⟩ rest :=
  leads_punctuation (by rfl) (by decide) (fun _ => rfl) rest

theorem leads_closeArray {items : List Json} {value : Json} :
    Config.Leads levels ⟨.array items :: stack, .afterValue value⟩ (']' :: rest)
      ⟨stack, .afterValue (.array (value :: items).reverse)⟩ rest :=
  leads_punctuation (by rfl) (by decide) (fun _ => rfl) rest

theorem leads_memberComma {members : List (CodeText × Json)} {name : CodeText} {value : Json} :
    Config.Leads levels ⟨.object members name :: stack, .afterValue value⟩ (',' :: rest)
      ⟨stack, .name ((name, value) :: members)⟩ rest :=
  leads_punctuation (by rfl) (by decide) (fun _ => rfl) rest

theorem leads_closeObject {members : List (CodeText × Json)} {name : CodeText} {value : Json} :
    Config.Leads levels ⟨.object members name :: stack, .afterValue value⟩ ('\x7d' :: rest)
      ⟨stack, .afterValue (.object ((name, value) :: members).reverse)⟩ rest :=
  leads_punctuation (by rfl) (by decide) (fun _ => rfl) rest

theorem leads_name {before body after : List Char} {members : List (CodeText × Json)}
    {name : CodeText} (hbefore : IsSpacing before) (hname : Quotes body name)
    (hafter : IsSpacing after) (hconfig : config.AwaitsName levels stack members) :
    config.Leads levels (before ++ '"' :: body ++ '"' :: after ++ ':' :: rest)
      ⟨.object members name :: stack, .value⟩ rest := by
  have hspelled : before ++ '"' :: body ++ '"' :: after ++ ':' :: rest =
      before ++ ('"' :: body ++ '"' :: (after ++ ':' :: rest)) := by simp
  rw [hspelled]
  apply (leads_spacing hbefore config _).trans
  apply (leads_string hname (fun position => hconfig position name) _).trans
  apply (leads_spacing hafter _ _).trans
  exact leads_punctuation (by rfl) (by decide) (fun _ => rfl) rest

end

theorem bracketed_append (first last : Char) (inside rest : List Char) :
    (first :: inside ++ [last]) ++ rest = first :: (inside ++ last :: rest) := by
  simp

theorem leads_emptyObject {config : Config} {stack : List Frame} {inside rest : List Char}
    (hinside : IsSpacing inside) (hconfig : config.Awaits levels stack)
    (hdepth : stack.length < levels) :
    config.Leads levels (('\x7b' :: inside ++ ['\x7d']) ++ rest) ⟨stack, .afterValue (.object [])⟩
      rest := by
  rw [bracketed_append]
  apply (leads_openObject hconfig hdepth).trans
  apply (leads_spacing hinside _ _).trans
  exact leads_punctuation (by rfl) (by decide) (fun _ => rfl) rest

mutual

/-- A written value, with a boundary after it, is read as that value. -/
theorem Written.leads {body : List Char} {value : Json} (h : Written body value)
    {config : Config} {stack : List Frame} {rest : List Char} (hconfig : config.Awaits levels stack)
    (hrest : IsBoundary rest) (hdepth : stack.length + value.depth ≤ levels)
    (hsize : ∀ n ∈ value.integers, n.natAbs < 10 ^ maxDigits) :
    config.Leads levels (body ++ rest) ⟨stack, .afterValue value⟩ rest := by
  cases h with
  | word hword => exact leads_word hword hconfig
  | number hproper => exact leads_number hproper hconfig hrest hsize
  | string hquotes =>
      rw [List.append_assoc, List.singleton_append]
      exact leads_string hquotes (fun position => hconfig position _ (by simp)) rest
  | emptyArray hspacing =>
      rw [depth, depthOfItems] at hdepth
      rw [bracketed_append]
      apply (leads_openArray hconfig (by omega)).trans
      apply (leads_spacing hspacing _ _).trans
      exact leads_punctuation (by rfl) (by decide) (fun _ => rfl) rest
  | array hitems =>
      rw [depth] at hdepth
      rw [integers] at hsize
      rw [bracketed_append]
      apply (leads_openArray hconfig (by omega)).trans
      exact hitems.leads (awaits_firstItem stack) (by omega) hsize
  | emptyObject hspacing =>
      rw [depth, depthOfMembers] at hdepth
      exact leads_emptyObject hspacing hconfig (by omega)
  | object hmembers =>
      rw [depth] at hdepth
      rw [integers] at hsize
      rw [bracketed_append]
      apply (leads_openObject hconfig (by omega)).trans
      exact hmembers.leads (awaitsName_firstName stack) (by omega) hsize

theorem Element.leads {text : List Char} {value : Json} (h : Element text value)
    {config : Config} {stack : List Frame} {rest : List Char} (hconfig : config.Awaits levels stack)
    (hrest : IsBoundary rest) (hdepth : stack.length + value.depth ≤ levels)
    (hsize : ∀ n ∈ value.integers, n.natAbs < 10 ^ maxDigits) :
    config.Leads levels (text ++ rest) ⟨stack, .afterValue value⟩ rest := by
  cases h with
  | mk hbefore hbody hafter =>
      rw [List.append_assoc, List.append_assoc]
      apply (leads_spacing hbefore config _).trans
      apply (hbody.leads hconfig (hrest.append hafter) hdepth hsize).trans
      exact leads_spacing hafter _ rest

theorem WrittenItems.leads {text : List Char} {values : List Json} (h : WrittenItems text values)
    {config : Config} {items : List Json} {outer : List Frame} {rest : List Char}
    (hconfig : config.Awaits levels (.array items :: outer))
    (hdepth : outer.length + 1 + depthOfItems values ≤ levels)
    (hsize : ∀ n ∈ integersOfItems values, n.natAbs < 10 ^ maxDigits) :
    config.Leads levels (text ++ ']' :: rest)
      ⟨outer, .afterValue (.array (items.reverse ++ values))⟩ rest := by
  cases h with
  | @last text value hvalue =>
      rw [depthOfItems, depthOfItems] at hdepth
      rw [integersOfItems, integersOfItems, List.append_nil] at hsize
      have hinner : (Frame.array items :: outer).length + value.depth ≤ levels := by
        rw [List.length_cons]
        omega
      apply (hvalue.leads hconfig (by simp [IsBoundary]) hinner hsize).trans
      rw [← List.reverse_cons]
      exact leads_closeArray
  | @more text value later values hvalue hvalues =>
      rw [depthOfItems] at hdepth
      rw [integersOfItems] at hsize
      have hinner : (Frame.array items :: outer).length + value.depth ≤ levels := by
        rw [List.length_cons]
        omega
      rw [List.append_assoc, List.cons_append]
      refine (hvalue.leads hconfig (by simp [IsBoundary]) hinner fun n hn =>
        hsize n (List.mem_append_left _ hn)).trans ?_
      -- A frame holds its items newest first, and the value just read joins them.
      apply leads_comma.trans
      rw [List.append_cons items.reverse, ← List.reverse_cons]
      exact hvalues.leads (awaits_value _) (by omega) fun n hn =>
        hsize n (List.mem_append_right _ hn)

theorem WrittenMembers.leads {text : List Char} {added : List (CodeText × Json)}
    (h : WrittenMembers text added) {config : Config} {members : List (CodeText × Json)}
    {outer : List Frame} {rest : List Char} (hconfig : config.AwaitsName levels outer members)
    (hdepth : outer.length + 1 + depthOfMembers added ≤ levels)
    (hsize : ∀ n ∈ integersOfMembers added, n.natAbs < 10 ^ maxDigits) :
    config.Leads levels (text ++ '\x7d' :: rest)
      ⟨outer, .afterValue (.object (members.reverse ++ added))⟩ rest := by
  cases h with
  | @last before body after text name value hbefore hname hafter hvalue =>
      rw [depthOfMembers, depthOfMembers] at hdepth
      rw [integersOfMembers, integersOfMembers, List.append_nil] at hsize
      have hinner : (Frame.object members name :: outer).length + value.depth ≤ levels := by
        rw [List.length_cons]
        omega
      rw [List.append_assoc, List.cons_append]
      apply (leads_name hbefore hname hafter hconfig).trans
      apply (hvalue.leads (awaits_value _) (by simp [IsBoundary]) hinner hsize).trans
      rw [← List.reverse_cons]
      exact leads_closeObject
  | @more before body after text name value later added hbefore hname hafter hvalue hmembers =>
      rw [depthOfMembers] at hdepth
      rw [integersOfMembers] at hsize
      have hinner : (Frame.object members name :: outer).length + value.depth ≤ levels := by
        rw [List.length_cons]
        omega
      have hspelled : before ++ '"' :: body ++ '"' :: after ++ ':' :: text ++ ',' :: later ++
          '\x7d' :: rest =
          before ++ '"' :: body ++ '"' :: after ++
            ':' :: (text ++ ',' :: (later ++ '\x7d' :: rest)) := by
        simp
      rw [hspelled]
      apply (leads_name hbefore hname hafter hconfig).trans
      refine (hvalue.leads (awaits_value _) (by simp [IsBoundary]) hinner fun n hn =>
        hsize n (List.mem_append_left _ hn)).trans ?_
      apply leads_memberComma.trans
      rw [List.append_cons members.reverse, ← List.reverse_cons]
      exact hmembers.leads (awaitsName_name outer _) (by omega) fun n hn =>
        hsize n (List.mem_append_right _ hn)

end

end DependencyAudit.Json
