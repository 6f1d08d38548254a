import Mathlib.Data.List.TakeWhile
import ComplianceIntake.Text.Blank

/-!
# What trimming leaves

A text is white space, then what trimming leaves of it, then white space again,
and what is left has no white space at either end. No other text stands in this
relation to it, so this says all there is to say about trimming. White space is
given here by its list of code points.
-/

set_option autoImplicit false

namespace ComplianceIntake.Text

/-- The code points with the Unicode property White_Space. -/
def whiteSpace : List Nat :=
  [0x0009, 0x000A, 0x000B, 0x000C, 0x000D, 0x0020, 0x0085, 0x00A0, 0x1680, 0x2000, 0x2001, 0x2002,
    0x2003, 0x2004, 0x2005, 0x2006, 0x2007, 0x2008, 0x2009, 0x200A, 0x2028, 0x2029, 0x202F, 0x205F,
    0x3000]

def IsWhiteSpace (c : Char) : Prop := c.toNat ∈ whiteSpace

/-- Taking all white space away from both ends of the one text leaves the other. -/
structure Trims (s t : String) : Prop where
  around : ∃ before after, s.toList = before ++ t.toList ++ after ∧
    ∀ c ∈ before ++ after, IsWhiteSpace c
  first : ∀ c, t.toList.head? = some c → ¬ IsWhiteSpace c
  last : ∀ c, t.toList.getLast? = some c → ¬ IsWhiteSpace c

theorem is_blank_iff (c : Char) : isBlank c = true ↔ IsWhiteSpace c := by
  simp only [isBlank, blankRanges, List.any_cons, List.any_nil, Bool.or_false, Bool.or_eq_true,
    Bool.and_eq_true, decide_eq_true_eq, IsWhiteSpace, whiteSpace, List.mem_cons, List.not_mem_nil,
    or_false]
  omega

theorem is_blank_eq_false_iff (c : Char) : isBlank c = false ↔ ¬ IsWhiteSpace c := by
  rw [← is_blank_iff, Bool.not_eq_true]

section Ends

variable {c : Char} {cs : List Char}

theorem trim_chars_of_ends (hhead : ∀ c, cs.head? = some c → isBlank c = false)
    (hlast : ∀ c, cs.getLast? = some c → isBlank c = false) : trimChars cs = cs := by
  have hreverse : ∀ c, cs.reverse.head? = some c → isBlank c = false := by
    intro c hc
    exact hlast c (by rwa [List.head?_reverse] at hc)
  rw [trimChars, trim_start_of_head? cs hhead, trimEnd, trim_start_of_head? _ hreverse,
    List.reverse_reverse]

theorem trim_chars_get_last? (h : (trimChars cs).getLast? = some c) : isBlank c = false := by
  rw [trimChars, trimEnd, List.getLast?_reverse] at h
  exact trim_start_head? _ c h

theorem trim_start_append_of_blank {bs : List Char} (h : ∀ c ∈ bs, isBlank c = true) :
    trimStart (bs ++ cs) = trimStart cs :=
  List.dropWhile_append_of_pos h

theorem trim_end_append_of_blank {bs : List Char} (h : ∀ c ∈ bs, isBlank c = true) :
    trimEnd (cs ++ bs) = trimEnd cs := by
  have hreverse : ∀ c ∈ bs.reverse, isBlank c = true := fun c hc => h c (List.mem_reverse.mp hc)
  rw [trimEnd, List.reverse_append, trim_start_append_of_blank hreverse, ← trimEnd]

theorem trim_chars_of_blank_around {before after : List Char}
    (h : ∀ c ∈ before ++ after, isBlank c = true) :
    trimChars (before ++ cs ++ after) = trimChars cs := by
  have hbefore : ∀ c ∈ before, isBlank c = true := fun c hc => h c (List.mem_append_left _ hc)
  have hafter : ∀ c ∈ after, isBlank c = true := fun c hc => h c (List.mem_append_right _ hc)
  rw [trimChars, List.append_assoc, trim_start_append_of_blank hbefore]
  cases hcs : trimStart cs with
  | nil =>
    have hblank : ∀ c ∈ cs, isBlank c = true := List.dropWhile_eq_nil_iff.mp hcs
    rw [trim_start_append_of_blank hblank, trimChars, hcs, trimStart,
      List.dropWhile_eq_nil_iff.mpr hafter]
  | cons c rest =>
    have hstart : trimStart (cs ++ after) = trimStart cs ++ after := by
      rw [trimStart, List.dropWhile_append, ← trimStart, hcs]
      rfl
    rw [hstart, trim_end_append_of_blank hafter, trimChars]

theorem trim_chars_of_blank_before {before : List Char} (h : ∀ c ∈ before, isBlank c = true) :
    trimChars (before ++ cs) = trimChars cs := by
  rw [trimChars, trim_start_append_of_blank h, trimChars]

theorem trim_chars_of_blank_after {after : List Char} (h : ∀ c ∈ after, isBlank c = true) :
    trimChars (cs ++ after) = trimChars cs := by
  have hcut : trimChars ([] ++ cs ++ after) = trimChars cs := trim_chars_of_blank_around h
  rwa [List.nil_append] at hcut

theorem exists_blank_around (cs : List Char) : ∃ before after,
    cs = before ++ trimChars cs ++ after ∧ ∀ c ∈ before ++ after, isBlank c = true := by
  refine ⟨cs.takeWhile isBlank,((trimStart cs).reverse.takeWhile isBlank).reverse,?_,?_⟩
  · have hend : trimChars cs ++ ((trimStart cs).reverse.takeWhile isBlank).reverse =
        trimStart cs := by
      rw [trimChars, trimEnd, trimStart, ← List.reverse_append, List.takeWhile_append_dropWhile,
        List.reverse_reverse]
    rw [List.append_assoc, hend, trimStart, List.takeWhile_append_dropWhile]
  · intro c hc
    rcases List.mem_append.mp hc with hc | hc
    · exact List.mem_takeWhile_imp hc
    · exact List.mem_takeWhile_imp (List.mem_reverse.mp hc)

theorem trim_chars_eq_nil_iff : trimChars cs = [] ↔ ∀ c ∈ cs, isBlank c = true := by
  constructor
  · intro h
    obtain ⟨before,after,hcs,hblank⟩ := exists_blank_around cs
    rw [h, List.append_nil] at hcs
    rwa [hcs]
  · intro h
    have hcut : trimChars (cs ++ []) = trimChars [] := trim_chars_of_blank_before h
    rwa [List.append_nil] at hcut

theorem head?_trim_chars_cons (hc : isBlank c = false) : (trimChars (c :: cs)).head? = some c := by
  obtain ⟨before,after,hcs,hblank⟩ := exists_blank_around (c :: cs)
  have hfirst : ∀ rest, before ++ after ≠ c :: rest := by
    intro rest h
    have hmem : c ∈ before ++ after := by
      rw [h]
      exact List.mem_cons_self
    rw [hblank c hmem] at hc
    contradiction
  cases before with
  | cons b before =>
    obtain ⟨rfl,_⟩ := List.cons.inj hcs
    exact absurd rfl (hfirst _)
  | nil =>
    cases htrim : trimChars (c :: cs) with
    | nil =>
      rw [htrim] at hcs
      exact absurd hcs.symm (hfirst cs)
    | cons d ds =>
      rw [htrim] at hcs
      rw [(List.cons.inj hcs).1]
      rfl

theorem head?_trim_chars_iff (hc : isBlank c = false) : (trimChars cs).head? = some c ↔
    ∃ before rest, cs = before ++ c :: rest ∧ ∀ b ∈ before, isBlank b = true := by
  constructor
  · intro h
    obtain ⟨before,after,hcs,hblank⟩ := exists_blank_around cs
    obtain ⟨rest,htrim⟩ := List.head?_eq_some_iff.mp h
    rw [htrim, List.append_assoc] at hcs
    exact ⟨before,rest ++ after,hcs,fun b hb => hblank b (List.mem_append_left _ hb)⟩
  · rintro ⟨before,rest,rfl,hblank⟩
    rw [trim_chars_of_blank_before hblank, head?_trim_chars_cons hc]

theorem mem_trim_start_of_not_blank (hc : isBlank c = false) (h : c ∈ cs) : c ∈ trimStart cs := by
  rw [← List.takeWhile_append_dropWhile (p := isBlank) (l := cs), List.mem_append] at h
  rcases h with h | h
  · rw [List.mem_takeWhile_imp h] at hc
    contradiction
  · exact h

end Ends

theorem mem_trim_of_not_blank {c : Char} {s : String} (hc : isBlank c = false)
    (h : c ∈ s.toList) : c ∈ (trim s).toList := by
  rw [to_list_trim, trimChars, trimEnd, List.mem_reverse]
  exact mem_trim_start_of_not_blank hc
    (List.mem_reverse.mpr (mem_trim_start_of_not_blank hc h))

theorem mem_of_mem_trim {c : Char} {s : String} (h : c ∈ (trim s).toList) : c ∈ s.toList := by
  rw [to_list_trim, trimChars, trimEnd, List.mem_reverse] at h
  have hstart := List.mem_reverse.mp ((List.dropWhile_suffix isBlank).mem h)
  exact (List.dropWhile_suffix isBlank).mem hstart

theorem trims_trim (s : String) : Trims s (trim s) := by
  obtain ⟨before,after,hs,hblank⟩ := exists_blank_around s.toList
  refine ⟨⟨before,after,?_,fun c hc => (is_blank_iff c).mp (hblank c hc)⟩,?_,?_⟩
  · rw [to_list_trim]
    exact hs
  · intro c hc
    rw [to_list_trim] at hc
    exact (is_blank_eq_false_iff c).mp (trim_chars_head? _ c hc)
  · intro c hc
    rw [to_list_trim] at hc
    exact (is_blank_eq_false_iff c).mp (trim_chars_get_last? hc)

theorem Trims.eq {s t : String} (h : Trims s t) : trim s = t := by
  obtain ⟨before,after,hs,hblank⟩ := h.around
  have hends : trimChars t.toList = t.toList :=
    trim_chars_of_ends (fun c hc => (is_blank_eq_false_iff c).mpr (h.first c hc))
      fun c hc => (is_blank_eq_false_iff c).mpr (h.last c hc)
  have hmiddle : trimChars s.toList = trimChars t.toList := by
    rw [hs]
    exact trim_chars_of_blank_around fun c hc => (is_blank_iff c).mpr (hblank c hc)
  rw [trim, hmiddle, hends, String.ofList_toList]

theorem trim_eq_iff (s t : String) : trim s = t ↔ Trims s t :=
  ⟨fun h => h ▸ trims_trim s,Trims.eq⟩

def Blank (s : String) : Prop := ∀ c ∈ s.toList, isBlank c = true

instance (s : String) : Decidable (Blank s) :=
  decidable_of_iff (s.toList.all isBlank = true) List.all_eq_true

theorem trim_eq_empty_iff (s : String) : trim s = "" ↔ Blank s := by
  rw [trim, String.ofList_eq_empty_iff, trim_chars_eq_nil_iff]
  rfl

theorem supplied?_eq_some_iff (s t : String) : supplied? s = some t ↔ t ≠ "" ∧ trim s = t := by
  constructor
  · intro h
    obtain ⟨ht,hne⟩ := supplied?_eq_some h
    exact ⟨hne,ht.symm⟩
  · rintro ⟨hne,rfl⟩
    rw [supplied?, if_neg hne]

theorem supplied?_eq_none_iff (s : String) : supplied? s = none ↔ Blank s := by
  rw [← trim_eq_empty_iff]
  simp [supplied?]

end ComplianceIntake.Text
