import ComplianceIntake.Json.Number
import ComplianceIntake.Proofs.Json.Grammar

/-!
# The numerals of integers

An integer is written with its digits alone, the first of which is no zero
unless it is the only one. The digits are those of a number in the grammar, and
the number is read from them as it was, as long as it fits sixty-four bits.
-/

set_option autoImplicit false

namespace ComplianceIntake.Number

open ComplianceIntake.Json (IsDigit IsDigits IsWhole)

section Digits

variable {n : Nat}

theorem to_digits_of_lt (h : n < 10) : toDigits n = [Nat.digitChar n] :=
  Nat.toDigits_of_lt_base h

theorem to_digits_of_le (h : 10 ≤ n) :
    toDigits n = toDigits (n / 10) ++ [Nat.digitChar (n % 10)] :=
  Nat.toDigits_of_base_le (by decide) h

theorem digit_char_spec (h : n < 10) :
    IsDigit (Nat.digitChar n) ∧ digitValue (Nat.digitChar n) = n := by
  have hall : ∀ d < 10, IsDigit (Nat.digitChar d) ∧ digitValue (Nat.digitChar d) = d := by decide
  exact hall n h

theorem of_digits_append_digit (ds : List Char) (d : Char) :
    ofDigits (ds ++ [d]) = 10 * ofDigits ds + digitValue d := by
  simp [ofDigits]

theorem of_digits_to_digits (n : Nat) : ofDigits (toDigits n) = n := by
  induction n using Nat.strongRecOn with
  | ind n ih =>
    by_cases h : n < 10
    · simp [to_digits_of_lt h, ofDigits, (digit_char_spec h).2]
    · have hlast : n % 10 < 10 := Nat.mod_lt n (by decide)
      rw [to_digits_of_le (by omega), of_digits_append_digit, ih (n / 10) (by omega),
        (digit_char_spec hlast).2]
      omega

theorem to_digits_head (h : n ≠ 0) :
    ∃ c ds, toDigits n = c :: ds ∧ c ≠ '0' ∧ ∀ d ∈ c :: ds, IsDigit d := by
  induction n using Nat.strongRecOn with
  | ind n ih =>
    by_cases hn : n < 10
    · have hne : ∀ d < 10, d ≠ 0 → Nat.digitChar d ≠ '0' := by decide
      have hdigit := (digit_char_spec hn).1
      exact ⟨_,[],to_digits_of_lt hn,hne n hn h,List.forall_mem_singleton.mpr hdigit⟩
    · obtain ⟨c,ds,hds,hc,hdigits⟩ := ih (n / 10) (by omega) (by omega)
      have hlast := (digit_char_spec (Nat.mod_lt n (by decide : 0 < 10))).1
      have hn' : toDigits n = c :: (ds ++ [Nat.digitChar (n % 10)]) := by
        rw [to_digits_of_le (by omega), hds, List.cons_append]
      have hall : ∀ d ∈ (c :: ds) ++ [Nat.digitChar (n % 10)], IsDigit d :=
        List.forall_mem_append.mpr ⟨hdigits,List.forall_mem_singleton.mpr hlast⟩
      exact ⟨c,_,hn',hc,hall⟩

theorem is_whole_to_digits (n : Nat) : IsWhole (toDigits n) := by
  by_cases h : n = 0
  · subst h
    exact .zero
  · obtain ⟨c,ds,hds,hc,hdigits⟩ := to_digits_head h
    rw [hds]
    exact .digits hc ⟨List.cons_ne_nil c ds,hdigits⟩

end Digits

end ComplianceIntake.Number

namespace ComplianceIntake.Json

open ComplianceIntake.Number

section Significands

theorem le_foldl_digits (ds : List Char) (n : Nat) :
    n ≤ ds.foldl (fun n d => 10 * n + digitValue d) n := by
  induction ds generalizing n with
  | nil => exact Nat.le_refl n
  | cons d ds ih =>
    have hnext := ih (10 * n + digitValue d)
    rw [List.foldl_cons]
    omega

theorem take_significant_of_le (ds : List Char) (n : Nat)
    (h : ds.foldl (fun n d => 10 * n + digitValue d) n ≤ largestSignificand) :
    takeSignificant n ds = (ds.foldl (fun n d => 10 * n + digitValue d) n, []) := by
  induction ds generalizing n with
  | nil => rfl
  | cons d ds ih =>
    have hnext : 10 * n + digitValue d ≤ largestSignificand :=
      Nat.le_trans (le_foldl_digits ds _) h
    rw [takeSignificant]
    simp only [if_pos hnext, List.foldl_cons]
    exact ih _ h

theorem take_significant_to_digits {n : Nat} (h : n ≤ largestSignificand) :
    takeSignificant 0 (toDigits n) = (n, []) := by
  have hn : (toDigits n).foldl (fun n d => 10 * n + digitValue d) 0 = n := of_digits_to_digits n
  rw [take_significant_of_le _ _ (hn.symm ▸ h), hn]

end Significands

namespace Number

/-- The integers that are kept as such: those of sixty-four bits, with or without sign. -/
def InRange (i : Int) : Prop := -(twoTo 63 : Nat) ≤ i ∧ i ≤ (largestSignificand : Nat)

instance (i : Int) : Decidable (InRange i) := inferInstanceAs (Decidable (_ ∧ _))

theorem of_numeral?_of_int {i : Int} (h : InRange i) :
    ofNumeral? (.ofInt i) = some (.integer i) := by
  obtain ⟨hlow,hhigh⟩ := h
  have hbounds : twoTo 63 = 9223372036854775808 ∧ largestSignificand = 18446744073709551615 := by
    decide
  have htaken : takeSignificant 0 (toDigits i.natAbs) = (i.natAbs, []) :=
    take_significant_to_digits (by omega)
  have hread : ofNumeral? (.ofInt i) = some (ofSignificand (decide (i < 0)) i.natAbs) := by
    simp [ofNumeral?, Numeral.ofInt, htaken]
  rw [hread, ofSignificand]
  by_cases hi : i < 0
  · have hfits : ¬ (i.natAbs = 0 ∨ twoTo 63 < i.natAbs) := by omega
    have hval : -(i.natAbs : Int) = i := by omega
    simp only [hi, decide_true, if_true, if_neg hfits, hval]
  · have hval : (i.natAbs : Int) = i := by omega
    simp [hi, hval]

theorem take_significant_le (ds : List Char) {n : Nat} (h : n ≤ largestSignificand) :
    (takeSignificant n ds).1 ≤ largestSignificand := by
  induction ds generalizing n with
  | nil => exact h
  | cons d ds ih =>
    rw [takeSignificant]
    by_cases hnext : 10 * n + digitValue d ≤ largestSignificand
    · simp only [if_pos hnext]
      exact ih hnext
    · simp only [if_neg hnext]
      exact h

/-- A number that is read as an integer is in range. -/
theorem in_range_of_of_numeral? {n : Numeral} {i : Int} (h : ofNumeral? n = some (.integer i)) :
    InRange i := by
  have hbounds : twoTo 63 = 9223372036854775808 ∧ largestSignificand = 18446744073709551615 := by
    decide
  have hle : (takeSignificant 0 n.whole).1 ≤ largestSignificand :=
    take_significant_le _ (Nat.zero_le _)
  have hdouble : ∀ (b : Bool) (m : Nat) (e : Int), ofScaled? b m e ≠ some (.integer i) := by
    intro b m e he
    simp [ofScaled?, ofFloat] at he
  rw [ofNumeral?] at h
  split at h
  · have hsig := Option.some.inj h
    rw [ofSignificand] at hsig
    split at hsig
    · split at hsig
      · simp [ofFloat] at hsig
      · next hfits =>
        cases hsig
        rw [not_or, Nat.not_lt] at hfits
        exact ⟨by omega,by omega⟩
    · cases hsig
      exact ⟨by omega,by omega⟩
  · rw [ofParts?.eq_def] at h
    split at h
    · exact absurd h (hdouble _ _ _)
    · split at h
      · split at h
        · contradiction
        · simp [ofFloat] at h
      · exact absurd h (hdouble _ _ _)

end Number

end ComplianceIntake.Json
