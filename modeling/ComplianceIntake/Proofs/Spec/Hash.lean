import Mathlib.Tactic.IntervalCases
import ComplianceIntake.Spec.Canonical
import ComplianceIntake.Proofs.Text.Trimming

/-!
# The shape of hashes

The hash of a specification has the shape of a hash, and a text of that shape
has no blanks to trim. A supplied hash that passes for one is therefore the
hash as it was sent without the blanks around it. Equal hashes say that the
canonical texts are the same as far as SHA-1 has no collision among them.
-/

set_option autoImplicit false

namespace ComplianceIntake.Spec

open ComplianceIntake.Digest
open ComplianceIntake.Text

theorem is_lower_hex_digit_char (n : Nat) (h : n < 16) : isLowerHex (Nat.digitChar n) = true := by
  interval_cases n <;> decide

theorem is_lower_hex_hex_digits (n x : Nat) : ∀ c ∈ hexDigits n x, isLowerHex c = true := by
  induction n generalizing x with
  | zero => simp [hexDigits]
  | succ n ih =>
    intro c hc
    rw [hexDigits, List.mem_append, List.mem_singleton] at hc
    rcases hc with hc | rfl
    · exact ih (x / 16) c hc
    · exact is_lower_hex_digit_char _ (Nat.mod_lt _ (by decide))

theorem is_hash_sha1 (message : List UInt8) : isHash (sha1 message) = true := by
  have hall : (digest message).hex.all isLowerHex = true := by
    rw [List.all_eq_true]
    intro c hc
    obtain ⟨w,_,hw⟩ := List.mem_flatMap.mp hc
    exact is_lower_hex_hex_digits 8 w.toNat c hw
  simp [isHash, sha1, length_hex, hall]

theorem canonical_of_hash (spec h : String) (hs : hash spec = .ok h) :
    ∃ text, canonical spec = .ok text ∧ sha1 (octets text) = h := by
  unfold hash at hs
  cases hc : canonical spec with
  | error m => simp [hc, Except.map] at hs
  | ok text =>
    simp only [hc, Except.map, Except.ok.injEq] at hs
    exact ⟨text,rfl,hs⟩

/-- SHA-1 tells the canonical texts of these specifications apart. -/
def CollisionFree (specs : String → Prop) : Prop :=
  ∀ spec spec' text text', specs spec → specs spec' → canonical spec = .ok text →
    canonical spec' = .ok text' → sha1 (octets text) = sha1 (octets text') → text = text'

theorem is_hash_of_hash (spec h : String) (hs : hash spec = .ok h) : isHash h = true := by
  obtain ⟨text,_,rfl⟩ := canonical_of_hash spec h hs
  exact is_hash_sha1 _

theorem is_blank_of_is_lower_hex (c : Char) (h : isLowerHex c = true) : isBlank c = false := by
  have hr : ('0'.toNat ≤ c.toNat ∧ c.toNat ≤ '9'.toNat) ∨
      ('a'.toNat ≤ c.toNat ∧ c.toNat ≤ 'f'.toNat) := by
    simpa [isLowerHex, Char.le_def, UInt32.le_iff_toNat_le] using h
  simp only [isBlank, blankRanges, List.any_cons, List.any_nil, Bool.or_false, Bool.or_eq_false_iff,
    Bool.and_eq_false_iff, decide_eq_false_iff_not]
  simp only [Char.reduceToNat] at hr
  omega

theorem trim_of_is_hash (s : String) (h : isHash s = true) : trim s = s := by
  have hblank : ∀ c ∈ s.toList, isBlank c = false := by
    intro c hc
    simp only [isHash, Bool.and_eq_true, List.all_eq_true] at h
    exact is_blank_of_is_lower_hex c (h.2 c hc)
  have hends : trimChars s.toList = s.toList :=
    trim_chars_of_ends (fun c hc => hblank c (List.mem_of_mem_head? hc))
      fun c hc => hblank c (List.mem_of_mem_getLast? hc)
  rw [trim, hends, String.ofList_toList]

theorem supplied?_of_is_hash (s : String) (h : isHash s = true) : supplied? s = some s := by
  have hne : s ≠ "" := by
    rintro rfl
    simp [isHash] at h
  rw [supplied?, trim_of_is_hash s h, if_neg hne]

end ComplianceIntake.Spec
