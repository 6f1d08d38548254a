/-!
# Blank characters and trimming

A character is blank when Unicode gives it the property White_Space. Required
text counts as supplied when something is left after blanks are trimmed from
both ends, and natural keys are built from trimmed text only. Trimming twice
is trimming once, and a trimmed text neither starts nor ends with a blank.
-/

set_option autoImplicit false

namespace ComplianceIntake.Text

/-- The Unicode property White_Space, as ranges of code points. -/
def blankRanges : List (Nat × Nat) :=
  [(0x0009, 0x000D), (0x0020, 0x0020), (0x0085, 0x0085), (0x00A0, 0x00A0), (0x1680, 0x1680),
   (0x2000, 0x200A), (0x2028, 0x2029), (0x202F, 0x202F), (0x205F, 0x205F), (0x3000, 0x3000)]

def isBlank (c : Char) : Bool :=
  blankRanges.any fun r => r.1 ≤ c.toNat && c.toNat ≤ r.2

def trimStart (cs : List Char) : List Char := cs.dropWhile isBlank

def trimEnd (cs : List Char) : List Char := (trimStart cs.reverse).reverse

def trimChars (cs : List Char) : List Char := trimEnd (trimStart cs)

def trim (s : String) : String := String.ofList (trimChars s.toList)

def supplied? (s : String) : Option String :=
  if trim s = "" then none else some (trim s)

@[simp] theorem to_list_trim (s : String) : (trim s).toList = trimChars s.toList := by
  simp [trim]

theorem trim_start_head? (cs : List Char) (c : Char) (h : (trimStart cs).head? = some c) :
    isBlank c = false := by
  induction cs with
  | nil => simp [trimStart] at h
  | cons a cs ih =>
    by_cases ha : isBlank a = true
    · exact ih (by simpa [trimStart, List.dropWhile_cons, ha] using h)
    · simp only [trimStart, List.dropWhile_cons, ha] at h
      simp at h
      simpa [h] using ha

theorem trim_start_of_head? (cs : List Char) (h : ∀ c, cs.head? = some c → isBlank c = false) :
    trimStart cs = cs := by
  cases cs with
  | nil => rfl
  | cons a cs => simp [trimStart, h a rfl]

theorem trim_start_trim_start (cs : List Char) : trimStart (trimStart cs) = trimStart cs :=
  trim_start_of_head? _ (trim_start_head? cs)

theorem trim_end_trim_end (cs : List Char) : trimEnd (trimEnd cs) = trimEnd cs := by
  simp [trimEnd, trim_start_trim_start]

theorem trim_end_append_blank (cs : List Char) : ∃ bs, cs = trimEnd cs ++ bs := by
  refine ⟨(cs.reverse.takeWhile isBlank).reverse, ?_⟩
  rw [trimEnd, trimStart, ← List.reverse_append, List.takeWhile_append_dropWhile,
    List.reverse_reverse]

theorem trim_chars_head? (cs : List Char) (c : Char) (h : (trimChars cs).head? = some c) :
    isBlank c = false := by
  obtain ⟨bs, hb⟩ := trim_end_append_blank (trimStart cs)
  refine trim_start_head? cs c ?_
  rw [hb, List.head?_append]
  simp only [trimChars] at h
  simp [h]

theorem trim_chars_trim_chars (cs : List Char) : trimChars (trimChars cs) = trimChars cs := by
  rw [trimChars, trim_start_of_head? _ (trim_chars_head? cs), trimChars, trim_end_trim_end]

theorem trim_trim (s : String) : trim (trim s) = trim s := by
  rw [trim, to_list_trim, trim_chars_trim_chars, ← trim]

theorem supplied?_eq_some {s t : String} (h : supplied? s = some t) : t = trim s ∧ t ≠ "" := by
  simp only [supplied?] at h
  split at h
  · contradiction
  · cases h
    exact ⟨rfl, by assumption⟩

end ComplianceIntake.Text
