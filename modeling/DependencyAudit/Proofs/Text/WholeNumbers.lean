import DependencyAudit.Text.Integer

/-!
# Whole numbers read back

A number written in decimal is read as that number, with its sign, as long as it has no
more digits than a number may have.  Its text has no blanks to take off and no underscores
between its digits.
-/

namespace DependencyAudit.Text

variable {c : Char} {text : List Char}

theorem isDigit_iff_toNat : c.isDigit = true ↔ 48 ≤ c.toNat ∧ c.toNat ≤ 57 := by
  simp only [Char.isDigit, Bool.and_eq_true, decide_eq_true_eq]
  exact Iff.rfl

theorem decimalDigit?_of_isDigit (h : c.isDigit = true) :
    decimalDigit? c = some (c.toNat - '0'.toNat) := by
  have hrange := isDigit_iff_toNat.mp h
  have hzero : (0x30 ≤ c.toNat && c.toNat < 0x30 + 10) = true := by
    rw [Bool.and_eq_true, decide_eq_true_eq, decide_eq_true_eq]
    omega
  have hfound : decimalZeros.find? (fun first => first ≤ c.toNat && c.toNat < first + 10) =
      some 0x30 :=
    List.find?_cons_of_pos hzero
  rw [decimalDigit?, hfound]
  rfl

theorem not_isNumberBlank_of_isDigit (h : c.isDigit = true) : isNumberBlank c = false := by
  have hrange := isDigit_iff_toNat.mp h
  have hblank : isBlank c = false := by
    simp only [isBlank, inRanges, blankRanges, List.any_cons, List.any_nil, Bool.or_false,
      Bool.or_eq_false_iff, Bool.and_eq_false_iff, decide_eq_false_iff_not]
    omega
  rw [isNumberBlank, hblank, Bool.false_and]

theorem groupedDigits?_of_isDigit (hsome : text ≠ []) (h : ∀ c ∈ text, c.isDigit = true) :
    groupedDigits? text = some (text.map fun c => c.toNat - '0'.toNat) := by
  induction text with
  | nil => contradiction
  | cons c rest ih =>
      rw [List.forall_mem_cons] at h
      rw [groupedDigits?.eq_def]
      simp only [decimalDigit?_of_isDigit h.1]
      cases rest with
      | nil => rfl
      | cons next more =>
          have hnext : next ≠ '_' := by
            intro heq
            have hdigit := h.2 next (List.mem_cons_self ..)
            rw [heq] at hdigit
            exact absurd hdigit (by decide)
          simp only [if_neg hnext, ih (by simp) h.2]
          rfl

theorem isDigit_of_mem_toDigits {n : Nat} (h : c ∈ Nat.toDigits 10 n) : c.isDigit = true :=
  Nat.isDigit_of_mem_toDigits (by decide) (by decide) h

theorem not_mem_toDigits (h : c.isDigit = false) (n : Nat) : c ∉ Nat.toDigits 10 n := by
  intro hmem
  rw [isDigit_of_mem_toDigits hmem] at h
  contradiction

theorem ofDigits_toDigits (n : Nat) :
    ofDigits ((Nat.toDigits 10 n).map fun c => c.toNat - '0'.toNat) = n := by
  have hdigits : Nat.ofDigitChars 10 (Nat.toDigits 10 n) 0 = n :=
    Nat.ofDigitChars_ten_toDigits
  rwa [Nat.ofDigitChars_eq_foldl, ← List.foldl_map] at hdigits

theorem eq_of_toString_eq {n m : Nat} (h : toString n = toString m) : n = m := by
  rw [Nat.toString_eq_repr, Nat.toString_eq_repr, ← String.toList_inj, Nat.toList_repr,
    Nat.toList_repr] at h
  rw [← ofDigits_toDigits n, h, ofDigits_toDigits]

theorem natural?_toDigits {n : Nat} (h : (Nat.toDigits 10 n).length ≤ maxDigits) :
    natural? (Nat.toDigits 10 n) = some n := by
  rw [natural?, groupedDigits?_of_isDigit Nat.toDigits_ne_nil fun c => isDigit_of_mem_toDigits]
  simp only [List.length_map, if_pos h, ofDigits_toDigits]

theorem trimBy_sign_toDigits {sign : List Char} (hsign : sign = [] ∨ sign = ['-']) (n : Nat) :
    trimBy isNumberBlank (sign ++ Nat.toDigits 10 n) = sign ++ Nat.toDigits 10 n := by
  have hplain : ∀ c ∈ sign ++ Nat.toDigits 10 n, isNumberBlank c = false := by
    intro c hc
    rcases List.mem_append.mp hc with hmem | hmem
    · rcases hsign with rfl | rfl
      · contradiction
      · rw [List.mem_singleton.mp hmem]
        decide
    · exact not_isNumberBlank_of_isDigit (isDigit_of_mem_toDigits hmem)
  exact trimBy_eq_self (fun c hc => hplain c (List.mem_of_head? hc))
    (fun c hc => hplain c (List.mem_of_getLast? hc))

theorem toList_toString_ofNat (n : Nat) :
    (toString (Int.ofNat n)).toList = Nat.toDigits 10 n :=
  Nat.toList_repr

theorem toList_toString_negSucc (n : Nat) :
    (toString (Int.negSucc n)).toList = '-' :: Nat.toDigits 10 (n + 1) := by
  rw [← Nat.toList_repr]
  exact String.toList_append

/-- A decimal number is read as itself. -/
theorem integer?_toString {n : Int} (h : (Nat.toDigits 10 n.natAbs).length ≤ maxDigits) :
    integer? (toString n) = some n := by
  cases n with
  | ofNat m =>
      have hread : natural? (Nat.toDigits 10 m) = some m := natural?_toDigits h
      have htrim := trimBy_sign_toDigits (Or.inl rfl) m
      rw [List.nil_append] at htrim
      rw [integer?, toList_toString_ofNat, htrim]
      cases hdigits : Nat.toDigits 10 m with
      | nil => exact absurd hdigits Nat.toDigits_ne_nil
      | cons first rest =>
          -- The first character is a digit, so it is neither sign.
          have hfirst : first.isDigit = true :=
            isDigit_of_mem_toDigits (hdigits ▸ List.mem_cons_self ..)
          have hminus : first ≠ '-' := fun heq => absurd (heq ▸ hfirst) (by decide)
          have hplus : first ≠ '+' := fun heq => absurd (heq ▸ hfirst) (by decide)
          rw [hdigits] at hread
          simp only [if_neg hminus, if_neg hplus, hread]
          rfl
  | negSucc m =>
      have hread : natural? (Nat.toDigits 10 (m + 1)) = some (m + 1) := natural?_toDigits h
      have htrim := trimBy_sign_toDigits (Or.inr rfl) (m + 1)
      rw [List.singleton_append] at htrim
      rw [integer?, toList_toString_negSucc, htrim]
      simp only [if_true, hread]
      rfl

end DependencyAudit.Text
