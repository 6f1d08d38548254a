import ComplianceIntake.Json.Tree
import Mathlib.Data.Bool.AllAny

/-!
# The grammar of JSON

The grammar of RFC 8259, stated over tokens. A token is a structural character,
one of the three literal names, a number or a string with its quotes; blanks may
stand around every token and belong to none. Nesting and the magnitude of
numbers have no limit, and any four hexadecimal digits make an escaped unit. A
stray octet, which no text of characters has, counts as an unescaped character.
-/

set_option autoImplicit false

namespace ComplianceIntake.Json

open ComplianceIntake.Text
open ComplianceIntake.Number

abbrev Token := List Glyph

def IsDigit (c : Char) : Prop := '0' ≤ c ∧ c ≤ '9'

instance (c : Char) : Decidable (IsDigit c) := inferInstanceAs (Decidable (_ ∧ _))

def IsHexDigit (c : Char) : Prop := IsDigit c ∨ 'a' ≤ c ∧ c ≤ 'f' ∨ 'A' ≤ c ∧ c ≤ 'F'

instance (c : Char) : Decidable (IsHexDigit c) := inferInstanceAs (Decidable (_ ∨ _))

structure IsDigits (cs : List Char) : Prop where
  nonempty : cs ≠ []
  digits : ∀ c ∈ cs, IsDigit c

inductive IsWhole : List Char → Prop
  | zero : IsWhole ['0']
  | digits {c : Char} {cs : List Char} (hz : c ≠ '0') (h : IsDigits (c :: cs)) : IsWhole (c :: cs)

inductive IsFraction : List Char → Prop
  | absent : IsFraction []
  | digits {cs : List Char} (h : IsDigits cs) : IsFraction ('.' :: cs)

inductive IsExponent : List Char → Prop
  | absent : IsExponent []
  | digits {marker : Char} {sign cs : List Char} (hm : marker ∈ ['e', 'E'])
      (hs : sign ∈ [[], ['+'], ['-']]) (h : IsDigits cs) : IsExponent (marker :: (sign ++ cs))

inductive IsUnsigned : List Char → Prop
  | parts {whole fraction exponent : List Char} (hw : IsWhole whole) (hf : IsFraction fraction)
      (he : IsExponent exponent) : IsUnsigned (whole ++ (fraction ++ exponent))

inductive IsNumber : List Char → Prop
  | unsigned {cs : List Char} (h : IsUnsigned cs) : IsNumber cs
  | minus {cs : List Char} (h : IsUnsigned cs) : IsNumber ('-' :: cs)

def Unescaped (g : Glyph) : Prop := ∀ c, g = .char c → 0x20 ≤ c.toNat ∧ c ≠ '"' ∧ c ≠ '\\'

inductive IsEscape : List Glyph → Prop
  | letter {c : Char} (hc : c ∈ ['"', '\\', '/', 'b', 'f', 'n', 'r', 't']) : IsEscape (word [c])
  | unit {a b c d : Char} (h : ∀ x ∈ [a, b, c, d], IsHexDigit x) : IsEscape (word ['u', a, b, c, d])

inductive IsInner : List Glyph → Prop
  | nil : IsInner []
  | unescaped {g : Glyph} {gs : List Glyph} (hg : Unescaped g) (h : IsInner gs) : IsInner (g :: gs)
  | escaped {esc gs : List Glyph} (he : IsEscape esc) (h : IsInner gs) :
      IsInner (.char '\\' :: (esc ++ gs))

inductive IsString : Token → Prop
  | quoted {gs : List Glyph} (h : IsInner gs) : IsString (.char '"' :: (gs ++ [.char '"']))

inductive Part where
  | value
  | items
  | members

/-- The tokens, in order, of a value, of the items of a list or of the members of an object. -/
inductive Derives : Part → List Token → Prop
  | name {cs : List Char}
      (h : cs ∈ [['n', 'u', 'l', 'l'], ['t', 'r', 'u', 'e'], ['f', 'a', 'l', 's', 'e']]) :
      Derives .value [word cs]
  | number {cs : List Char} (h : IsNumber cs) : Derives .value [word cs]
  | string {t : Token} (h : IsString t) : Derives .value [t]
  | emptyList : Derives .value [word ['['], word [']']]
  | list {ts : List Token} (h : Derives .items ts) :
      Derives .value (word ['['] :: (ts ++ [word [']']]))
  | emptyObject : Derives .value [word ['{'], word ['}']]
  | object {ts : List Token} (h : Derives .members ts) :
      Derives .value (word ['{'] :: (ts ++ [word ['}']]))
  | item {ts : List Token} (h : Derives .value ts) : Derives .items ts
  | items {ts us : List Token} (h : Derives .value ts) (hs : Derives .items us) :
      Derives .items (ts ++ word [','] :: us)
  | member {k : Token} {ts : List Token} (hk : IsString k) (h : Derives .value ts) :
      Derives .members (k :: word [':'] :: ts)
  | members {k : Token} {ts us : List Token} (hk : IsString k) (h : Derives .value ts)
      (hs : Derives .members us) : Derives .members (k :: word [':'] :: (ts ++ word [','] :: us))

section Classes

theorem is_digit_iff (c : Char) : isDigit c = true ↔ IsDigit c := by
  simp [isDigit, IsDigit, Char.le_def, UInt32.le_iff_toNat_le]

theorem is_digits_iff {cs : List Char} : IsDigits cs ↔ cs ≠ [] ∧ ∀ c ∈ cs, isDigit c = true := by
  simp only [is_digit_iff]
  exact ⟨fun h => ⟨h.nonempty,h.digits⟩,fun h => ⟨h.1,h.2⟩⟩

theorem is_some_hex_value?_iff (c : Char) : (hexValue? c).isSome = true ↔ IsHexDigit c := by
  rw [IsHexDigit, ← is_digit_iff, hexValue?]
  split
  · next h => simp [h]
  · next h =>
    rw [Bool.not_eq_true] at h
    rw [h]
    split
    · next ha => simp [ha]
    · next ha =>
      split
      · next hA => simp [hA]
      · next hA => simp [ha, hA]

end Classes

section Numbers

def IsNumberChar (c : Char) : Prop := IsDigit c ∨ c ∈ ['-', '+', '.', 'e', 'E']

instance (c : Char) : Decidable (IsNumberChar c) := inferInstanceAs (Decidable (_ ∨ _))

variable {cs : List Char}

theorem IsWhole.is_digits (h : IsWhole cs) : IsDigits cs := by
  cases h with
  | zero => exact ⟨by simp,fun c hc => List.mem_singleton.mp hc ▸ by decide⟩
  | digits hz h => exact h

theorem is_whole_iff : IsWhole cs ↔ IsDigits cs ∧ ¬ (cs.head? = some '0' ∧ 1 < cs.length) := by
  constructor
  · intro h
    refine ⟨h.is_digits,?_⟩
    cases h with
    | zero => decide
    | digits hz _ => simp [hz]
  · rintro ⟨h,hzero⟩
    obtain ⟨c,rest,rfl⟩ := List.exists_cons_of_ne_nil h.nonempty
    by_cases hc : c = '0'
    · subst hc
      have hnil : rest = [] := by simpa using hzero
      rw [hnil]
      exact .zero
    · exact .digits hc h

theorem IsWhole.number_chars (h : IsWhole cs) : ∀ c ∈ cs, IsNumberChar c :=
  fun c hc => Or.inl (h.is_digits.digits c hc)

theorem IsFraction.number_chars (h : IsFraction cs) : ∀ c ∈ cs, IsNumberChar c := by
  cases h with
  | absent => exact fun c hc => absurd hc List.not_mem_nil
  | digits h =>
    intro c hc
    rcases List.mem_cons.mp hc with rfl | hc
    · exact Or.inr (by decide)
    · exact Or.inl (h.digits c hc)

theorem IsExponent.number_chars (h : IsExponent cs) : ∀ c ∈ cs, IsNumberChar c := by
  cases h with
  | absent => exact fun c hc => absurd hc List.not_mem_nil
  | digits hm hs h =>
    have hmarker : ∀ c ∈ ['e', 'E'], IsNumberChar c := List.all_iff_forall_prop.mp (by decide)
    have hsign : ∀ sign ∈ [[], ['+'], ['-']], sign.all (fun c => IsNumberChar c) = true := by decide
    have hdigits : ∀ c ∈ _, IsNumberChar c := fun c hc => Or.inl (h.digits c hc)
    exact List.forall_mem_cons.mpr ⟨hmarker _ hm,
      List.forall_mem_append.mpr ⟨List.all_iff_forall_prop.mp (hsign _ hs),hdigits⟩⟩

theorem IsUnsigned.number_chars (h : IsUnsigned cs) : ∀ c ∈ cs, IsNumberChar c := by
  cases h with
  | parts hw hf he =>
    exact List.forall_mem_append.mpr
      ⟨hw.number_chars,List.forall_mem_append.mpr ⟨hf.number_chars,he.number_chars⟩⟩

theorem IsNumber.number_chars (h : IsNumber cs) : ∀ c ∈ cs, IsNumberChar c := by
  cases h with
  | unsigned h => exact h.number_chars
  | minus h => exact List.forall_mem_cons.mpr ⟨Or.inr (by decide),h.number_chars⟩

theorem IsUnsigned.head (h : IsUnsigned cs) : ∃ c ds, cs = c :: ds ∧ IsDigit c := by
  cases h with
  | parts hw hf he =>
    obtain ⟨c,ds,rfl⟩ := List.exists_cons_of_ne_nil hw.is_digits.nonempty
    exact ⟨c,_,rfl,hw.is_digits.digits c List.mem_cons_self⟩

theorem IsNumber.ne_nil (h : IsNumber cs) : cs ≠ [] := by
  cases h with
  | unsigned h =>
    obtain ⟨c,ds,rfl,_⟩ := h.head
    exact List.cons_ne_nil c ds
  | minus h => exact List.cons_ne_nil _ _

end Numbers

section Tokens

def Bare (g : Glyph) : Prop := isSpace g = false ∧ g ≠ .char '"'

def blanksAndQuote : List Char := [' ', '\t', '\n', '\r', '"']

theorem bare_char_iff (c : Char) : Bare (.char c) ↔ c ∉ blanksAndQuote := by
  simp [Bare, isSpace, blanksAndQuote, and_assoc]

theorem IsNumberChar.bare {c : Char} (h : IsNumberChar c) : Bare (.char c) := by
  rw [bare_char_iff]
  intro hc
  have hnone : ∀ d ∈ blanksAndQuote, ¬ IsNumberChar d := List.all_iff_forall_prop.mp (by decide)
  exact hnone c hc h

inductive IsToken : Token → Prop
  | string {t : Token} (h : IsString t) : IsToken t
  | bare {t : Token} (hne : t ≠ []) (h : ∀ g ∈ t, Bare g) : IsToken t

theorem is_token_word {cs : List Char} (hne : cs ≠ []) (h : ∀ c ∈ cs, Bare (.char c)) :
    IsToken (word cs) := by
  apply IsToken.bare
  · simpa [word] using hne
  · exact List.forall_mem_map.mpr h

theorem is_token_mark : ∀ c ∈ [',', ':', '[', ']', '{', '}'], IsToken (word [c]) := by
  intro c hc
  have hnone : ∀ d ∈ [',', ':', '[', ']', '{', '}'], d ∉ blanksAndQuote :=
    List.all_iff_forall_prop.mp (by decide)
  apply is_token_word (List.cons_ne_nil _ _)
  exact List.forall_mem_singleton.mpr ((bare_char_iff c).mpr (hnone c hc))

theorem Derives.is_token {part : Part} {ts : List Token} (h : Derives part ts) :
    ∀ t ∈ ts, IsToken t := by
  have hmark := is_token_mark
  simp only [List.forall_mem_cons] at hmark
  obtain ⟨hcomma,hcolon,hlist,hlistEnd,hobject,hobjectEnd,_⟩ := hmark
  induction h with
  | name h =>
    have hnames : ∀ cs ∈ [['n', 'u', 'l', 'l'], ['t', 'r', 'u', 'e'], ['f', 'a', 'l', 's', 'e']],
        cs ≠ [] ∧ cs.all (fun c => c ∉ blanksAndQuote) = true := by decide
    obtain ⟨hne,hcs⟩ := hnames _ h
    have hbare := List.all_iff_forall_prop.mp hcs
    exact List.forall_mem_singleton.mpr
      (is_token_word hne fun c hc => (bare_char_iff c).mpr (hbare c hc))
  | number h =>
    exact List.forall_mem_singleton.mpr
      (is_token_word h.ne_nil fun c hc => (h.number_chars c hc).bare)
  | string h => exact List.forall_mem_singleton.mpr (.string h)
  | emptyList => exact List.forall_mem_cons.mpr ⟨hlist,List.forall_mem_singleton.mpr hlistEnd⟩
  | list _ ih =>
    exact List.forall_mem_cons.mpr
      ⟨hlist,List.forall_mem_append.mpr ⟨ih,List.forall_mem_singleton.mpr hlistEnd⟩⟩
  | emptyObject => exact List.forall_mem_cons.mpr ⟨hobject,List.forall_mem_singleton.mpr hobjectEnd⟩
  | object _ ih =>
    exact List.forall_mem_cons.mpr
      ⟨hobject,List.forall_mem_append.mpr ⟨ih,List.forall_mem_singleton.mpr hobjectEnd⟩⟩
  | item _ ih => exact ih
  | items _ _ ih ih' =>
    exact List.forall_mem_append.mpr ⟨ih,List.forall_mem_cons.mpr ⟨hcomma,ih'⟩⟩
  | member hk _ ih =>
    exact List.forall_mem_cons.mpr ⟨.string hk,List.forall_mem_cons.mpr ⟨hcolon,ih⟩⟩
  | members hk _ _ ih ih' =>
    have hrest := List.forall_mem_append.mpr ⟨ih,List.forall_mem_cons.mpr ⟨hcomma,ih'⟩⟩
    exact List.forall_mem_cons.mpr ⟨.string hk,List.forall_mem_cons.mpr ⟨hcolon,hrest⟩⟩

def Opens (g : Glyph) : Prop := isSpace g = false ∧ g ≠ .char ']'

theorem opens_char {c : Char} (h : c ∉ [' ', '\t', '\n', '\r', ']']) : Opens (.char c) := by
  simpa [Opens, isSpace, and_assoc] using h

theorem IsNumberChar.opens {c : Char} (h : IsNumberChar c) : Opens (.char c) := by
  apply opens_char
  intro hc
  have hnone : ∀ d ∈ [' ', '\t', '\n', '\r', ']'], ¬ IsNumberChar d :=
    List.all_iff_forall_prop.mp (by decide)
  exact hnone c hc h

/-- The glyph that values, items and members begin with tells them from the end of a list. -/
theorem Derives.opens {part : Part} {ts : List Token} (h : Derives part ts) :
    ∃ g t us, ts = (g :: t) :: us ∧ Opens g := by
  have hstring : ∀ {t : Token} (us : List Token), IsString t →
      ∃ g t' us', t :: us = (g :: t') :: us' ∧ Opens g := by
    rintro _ us ⟨_⟩
    exact ⟨_,_,us,rfl,opens_char (by decide)⟩
  induction h with
  | name h =>
    simp only [List.mem_cons, List.not_mem_nil, or_false] at h
    rcases h with rfl | rfl | rfl <;> exact ⟨_,_,_,rfl,opens_char (by decide)⟩
  | @number cs h =>
    obtain ⟨c,cs,rfl⟩ := List.exists_cons_of_ne_nil h.ne_nil
    exact ⟨_,_,_,rfl,(h.number_chars c List.mem_cons_self).opens⟩
  | string h => exact hstring [] h
  | emptyList => exact ⟨_,_,_,rfl,opens_char (by decide)⟩
  | list _ _ => exact ⟨_,_,_,rfl,opens_char (by decide)⟩
  | emptyObject => exact ⟨_,_,_,rfl,opens_char (by decide)⟩
  | object _ _ => exact ⟨_,_,_,rfl,opens_char (by decide)⟩
  | item _ ih => exact ih
  | items _ _ ih _ =>
    obtain ⟨g,t,us,rfl,hg⟩ := ih
    exact ⟨g,t,_,rfl,hg⟩
  | member hk _ _ => exact hstring _ hk
  | members hk _ _ _ _ => exact hstring _ hk

theorem Derives.quote_of_members {ts : List Token} (h : Derives .members ts) :
    ∃ t us, ts = (.char '"' :: t) :: us := by
  cases h with
  | member hk _ =>
    cases hk
    exact ⟨_,_,rfl⟩
  | members hk _ _ =>
    cases hk
    exact ⟨_,_,rfl⟩

end Tokens

end ComplianceIntake.Json
