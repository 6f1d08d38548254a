import ComplianceIntake.Text.Glyph
import Mathlib.Data.List.Basic

/-!
# The octets of a text

A text that is written as octets and read again is the same text, with no stray
octet in it: the octets of a character are read as this character, whatever
follows them.
-/

set_option autoImplicit false

namespace ComplianceIntake.Text

namespace Glyph

theorem continuation?_of_nat (x : Nat) (h : x < 0x40) :
    continuation? (UInt8.ofNat x + 0x80) = some x := by
  have hval : (UInt8.ofNat x + 0x80).toNat = x + 0x80 := by
    rw [UInt8.toNat_add, UInt8.toNat_ofNat']
    show (x % 256 + 128) % 256 = x + 128
    omega
  rw [continuation?, hval, if_pos (by omega), Nat.add_sub_cancel]

theorem scalar?_to_nat (c : Char) (least : Nat) (h : least ≤ c.toNat) :
    scalar? least c.toNat = some c := by
  have hvalid : c.toNat.isValidChar := c.valid
  have hval : c.toNat.toUInt32 = c.val := UInt32.ofNat_toNat
  rw [scalar?, dif_pos hvalid, if_pos h]
  exact congrArg some (Char.ext hval)

/-- The first octet of a character tells it, together with those that follow. -/
theorem lead?_utf8_encode_char (c : Char) :
    ∃ a bs, String.utf8EncodeChar c = a :: bs ∧
      ∀ rest, lead? a (bs ++ rest) = some (c, bs.length) := by
  have hmax : c.toNat < 0x110000 := by
    rcases c.valid with h | ⟨_,h⟩
    · exact Nat.lt_trans h (by decide)
    · exact h
  have hsix : ∀ n, continuation? (UInt8.ofNat (n % 64) + 128) = some (n % 64) :=
    fun n => continuation?_of_nat _ (Nat.mod_lt _ (by decide))
  unfold String.utf8EncodeChar
  simp only [show c.val.toNat = c.toNat from rfl]
  split
  · next h =>
    have ha : (UInt8.ofNat c.toNat).toNat = c.toNat := by
      rw [UInt8.toNat_ofNat']
      omega
    refine ⟨_,[],rfl,?_⟩
    intro rest
    unfold lead?
    rw [ha, if_pos (by omega), scalar?_to_nat c 0 (Nat.zero_le _)]
    rfl
  split
  · next h h' =>
    have ha : (UInt8.ofNat (c.toNat / 64 % 32 + 192)).toNat = c.toNat / 64 + 0xC0 := by
      rw [UInt8.toNat_ofNat']
      omega
    have hn : c.toNat / 64 * 64 + c.toNat % 64 = c.toNat := by omega
    refine ⟨_,[_],rfl,?_⟩
    intro rest
    unfold lead?
    rw [ha, if_neg (by omega), if_neg (by omega), if_pos (by omega)]
    simp [hsix, hn, scalar?_to_nat c 0x80 (by omega)]
  split
  · next h h' h'' =>
    have ha : (UInt8.ofNat (c.toNat / 4096 % 16 + 224)).toNat = c.toNat / 4096 + 0xE0 := by
      rw [UInt8.toNat_ofNat']
      omega
    have hn : (c.toNat / 4096 * 64 + c.toNat / 64 % 64) * 64 + c.toNat % 64 = c.toNat := by omega
    refine ⟨_,[_, _],rfl,?_⟩
    intro rest
    unfold lead?
    rw [ha, if_neg (by omega), if_neg (by omega), if_neg (by omega), if_pos (by omega)]
    simp [hsix, hn, scalar?_to_nat c 0x800 (by omega)]
  · next h h' h'' =>
    have ha : (UInt8.ofNat (c.toNat / 262144 % 8 + 240)).toNat = c.toNat / 262144 + 0xF0 := by
      rw [UInt8.toNat_ofNat']
      omega
    have hn : ((c.toNat / 262144 * 64 + c.toNat / 4096 % 64) * 64 + c.toNat / 64 % 64) * 64 +
        c.toNat % 64 = c.toNat := by omega
    refine ⟨_,[_, _, _],rfl,?_⟩
    intro rest
    unfold lead?
    rw [ha, if_neg (by omega), if_neg (by omega), if_neg (by omega), if_neg (by omega),
      if_pos (by omega)]
    simp [hsix, hn, scalar?_to_nat c 0x10000 (by omega)]

theorem read_octets_flat_map (done : List Glyph) (cs : List Char) :
    readOctets done (cs.flatMap String.utf8EncodeChar) = done.reverse ++ cs.map .char := by
  induction cs generalizing done with
  | nil => simp [readOctets]
  | cons c cs ih =>
    obtain ⟨a,bs,henc,hlead⟩ := lead?_utf8_encode_char c
    rw [List.flatMap_cons, henc, List.cons_append, readOctets, hlead]
    simp [ih]

end Glyph

theorem octets_eq_flat_map (s : String) : octets s = s.toList.flatMap String.utf8EncodeChar := by
  rw [octets, String.toUTF8, ← String.utf8Encode_toList, List.utf8Encode]
  simp

theorem octets_append (s t : String) : octets (s ++ t) = octets s ++ octets t := by
  simp only [octets_eq_flat_map, String.toList_append, List.flatMap_append]

theorem length_octets (s : String) : (octets s).length = s.utf8ByteSize := rfl

section Ascii

variable {c q : Char}

/-- An octet below the eighth bit is a character of its own, and no part of another. -/
theorem utf8_encode_char_cases (c : Char) :
    c.toNat < 0x80 ∧ String.utf8EncodeChar c = [UInt8.ofNat c.toNat] ∨
      0x80 ≤ c.toNat ∧ ∀ o ∈ String.utf8EncodeChar c, 0x80 ≤ o.toNat := by
  have hhigh : ∀ n, 0x80 ≤ n → n < 0x100 → 0x80 ≤ (UInt8.ofNat n).toNat := by
    intro n h h'
    rw [UInt8.toNat_ofNat', Nat.mod_eq_of_lt h']
    exact h
  unfold String.utf8EncodeChar
  simp only [show c.val.toNat = c.toNat from rfl]
  split
  · next h => exact .inl ⟨by omega,rfl⟩
  · next h =>
    refine .inr ⟨by omega,?_⟩
    split
    · simp only [List.forall_mem_cons]
      exact ⟨hhigh _ (by omega) (by omega),hhigh _ (by omega) (by omega),by simp⟩
    split
    · simp only [List.forall_mem_cons]
      exact ⟨hhigh _ (by omega) (by omega),hhigh _ (by omega) (by omega),
        hhigh _ (by omega) (by omega),by simp⟩
    · simp only [List.forall_mem_cons]
      exact ⟨hhigh _ (by omega) (by omega),hhigh _ (by omega) (by omega),
        hhigh _ (by omega) (by omega),hhigh _ (by omega) (by omega),by simp⟩

theorem utf8_encode_char_ascii (hq : q.toNat < 0x80) :
    String.utf8EncodeChar q = [UInt8.ofNat q.toNat] := by
  rcases utf8_encode_char_cases q with ⟨_,henc⟩ | ⟨hhigh,_⟩
  · exact henc
  · omega

theorem octet_mem_utf8_encode_char_iff (hq : q.toNat < 0x80) :
    UInt8.ofNat q.toNat ∈ String.utf8EncodeChar c ↔ c = q := by
  have hval : ∀ n < 0x80, (UInt8.ofNat n).toNat = n := by
    intro n h
    rw [UInt8.toNat_ofNat', Nat.mod_eq_of_lt (Nat.lt_trans h (by decide))]
  constructor
  · intro h
    rcases utf8_encode_char_cases c with ⟨hc,henc⟩ | ⟨_,hall⟩
    · rw [henc, List.mem_singleton] at h
      have hnat := congrArg UInt8.toNat h
      rw [hval _ hq, hval _ hc] at hnat
      exact Char.toNat_inj.mp hnat.symm
    · have hhigh := hall _ h
      rw [hval _ hq] at hhigh
      omega
  · rintro rfl
    rw [utf8_encode_char_ascii hq]
    exact List.mem_singleton_self _

theorem head?_octets_iff (hq : q.toNat < 0x80) (s : String) :
    (octets s).head? = some (UInt8.ofNat q.toNat) ↔ s.toList.head? = some q := by
  rw [octets_eq_flat_map]
  cases s.toList with
  | nil => simp
  | cons c cs =>
    rw [List.flatMap_cons, List.head?_append_of_ne_nil _ (String.utf8EncodeChar_ne_nil),
      List.head?_cons, Option.some_inj]
    constructor
    · exact fun h => (octet_mem_utf8_encode_char_iff hq).mp (List.mem_of_mem_head? h)
    · rintro rfl
      rw [utf8_encode_char_ascii hq]
      rfl

theorem get_last?_octets_iff (hq : q.toNat < 0x80) (s : String) :
    (octets s).getLast? = some (UInt8.ofNat q.toNat) ↔ s.toList.getLast? = some q := by
  rw [octets_eq_flat_map]
  rcases List.eq_nil_or_concat s.toList with hs | ⟨cs,c,hs⟩
  · simp [hs]
  · rw [hs, List.concat_eq_append, List.flatMap_append, List.flatMap_singleton,
      List.getLast?_append_of_ne_nil _ (String.utf8EncodeChar_ne_nil), List.getLast?_concat,
      Option.some_inj]
    constructor
    · exact fun h => (octet_mem_utf8_encode_char_iff hq).mp (List.mem_of_getLast? h)
    · rintro rfl
      rw [utf8_encode_char_ascii hq]
      rfl

end Ascii

theorem of_octets_octets (s : String) : Glyph.ofOctets (octets s) = Glyph.ofString s := by
  rw [Glyph.ofOctets, octets_eq_flat_map, Glyph.read_octets_flat_map]
  rfl

end ComplianceIntake.Text
