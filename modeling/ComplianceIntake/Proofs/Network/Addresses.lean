import ComplianceIntake.Network.SocketAddress
import ComplianceIntake.Proofs.Json.Grammar
import Mathlib.Data.List.TakeWhile

/-!
# The grammar of socket addresses

An address with its port, stated without the reader. The octets of an IPv4
address are written without leading zeros. An IPv6 address has eight groups of up
to four hexadecimal digits, the last two of which may be written as an IPv4
address; one run of zero groups may be left out. It stands in brackets, where it
may have the number of a scope. The reader takes what the grammar derives and
nothing else.
-/

set_option autoImplicit false

namespace ComplianceIntake.Network

open ComplianceIntake.Json (IsDigit IsDigits IsHexDigit IsWhole is_digit_iff is_digits_iff
  is_some_hex_value?_iff is_whole_iff)
open ComplianceIntake.Number

structure IsOctet (n : Nat) (ds : List Char) : Prop where
  whole : IsWhole ds
  length : ds.length ≤ 3
  value : ofDigits ds = n
  bound : n < 256

inductive IsV4 : List Nat → List Char → Prop
  | dotted {a b c d : Nat} {as bs cs ds : List Char} (ha : IsOctet a as) (hb : IsOctet b bs)
      (hc : IsOctet c cs) (hd : IsOctet d ds) :
      IsV4 [a, b, c, d] (as ++ '.' :: (bs ++ '.' :: (cs ++ '.' :: ds)))

def ofHexDigits (hs : List Char) : Nat :=
  (hs.filterMap hexValue?).foldl (fun n d => 16 * n + d) 0

structure IsGroup (n : Nat) (hs : List Char) : Prop where
  nonempty : hs ≠ []
  length : hs.length ≤ 4
  digits : ∀ c ∈ hs, IsHexDigit c
  value : ofHexDigits hs = n

/-- Groups with colons between them; the flag tells whether an IPv4 address ends them. -/
inductive IsGroups : Bool → List Nat → List Char → Prop
  | last {n : Nat} {hs : List Char} (h : IsGroup n hs) : IsGroups false [n] hs
  | v4 {a b c d : Nat} {cs : List Char} (h : IsV4 [a, b, c, d] cs) :
      IsGroups true [256 * a + b, 256 * c + d] cs
  | more {v4 : Bool} {n : Nat} {ns : List Nat} {hs cs : List Char} (h : IsGroup n hs)
      (hrest : IsGroups v4 ns cs) : IsGroups v4 (n :: ns) (hs ++ ':' :: cs)

inductive IsSide : Bool → List Nat → List Char → Prop
  | none : IsSide false [] []
  | some {v4 : Bool} {ns : List Nat} {cs : List Char} (h : IsGroups v4 ns cs) : IsSide v4 ns cs

inductive IsV6 : List Nat → List Char → Prop
  | full {v4 : Bool} {ns : List Nat} {cs : List Char} (h : IsGroups v4 ns cs)
      (hlength : ns.length = 8) : IsV6 ns cs
  | shortened {v4 : Bool} {front back : List Nat} {fs bs : List Char}
      (hf : IsSide false front fs) (hb : IsSide v4 back bs)
      (hlength : front.length + back.length ≤ 7) :
      IsV6 (front ++ List.replicate (8 - front.length - back.length) 0 ++ back)
        (fs ++ ':' :: ':' :: bs)

inductive IsMarked (mark : Char) (bound n : Nat) : List Char → Prop
  | digits {ds : List Char} (h : IsDigits ds) (hvalue : ofDigits ds = n) (hbound : n < bound) :
      IsMarked mark bound n (mark :: ds)

inductive IsScope : Nat → List Char → Prop
  | absent : IsScope 0 []
  | given {n : Nat} {cs : List Char} (h : IsMarked '%' (twoTo 32) n cs) : IsScope n cs

inductive IsSocketAddress : SocketAddress → List Char → Prop
  | v4 {octets : List Nat} {port : Nat} {cs ps : List Char} (h : IsV4 octets cs)
      (hp : IsMarked ':' (twoTo 16) port ps) : IsSocketAddress ⟨.v4 octets, port⟩ (cs ++ ps)
  | v6 {groups : List Nat} {scope port : Nat} {cs ss ps : List Char} (h : IsV6 groups cs)
      (hs : IsScope scope ss) (hp : IsMarked ':' (twoTo 16) port ps) :
      IsSocketAddress ⟨.v6 groups scope, port⟩ ('[' :: (cs ++ ss ++ ']' :: ps))

section Runs

variable {p : Char → Bool} {run rest : List Char}

theorem take_while_run (hin : ∀ c ∈ run, p c = true) (hout : ∀ c ∈ rest.head?, p c = false) :
    (run ++ rest).takeWhile p = run := by
  rw [List.takeWhile_append_of_pos hin]
  cases rest with
  | nil => simp
  | cons c rest => simp [hout c rfl]

theorem drop_while_run (hin : ∀ c ∈ run, p c = true) (hout : ∀ c ∈ rest.head?, p c = false) :
    (run ++ rest).dropWhile p = rest := by
  rw [List.dropWhile_append_of_pos hin]
  cases rest with
  | nil => rfl
  | cons c rest => simp [hout c rfl]

theorem head?_drop_while (cs : List Char) : ∀ c ∈ (cs.dropWhile p).head?, p c = false := by
  intro c hc
  have h := List.head?_dropWhile_not p cs
  rw [Option.mem_def.mp hc] at h
  simpa using h

end Runs

def DigitFree (rest : List Char) : Prop := ∀ c ∈ rest.head?, ¬ IsDigit c

section Decimals

variable {bound n : Nat} {cs ds rest : List Char}

theorem digit_free_iff : DigitFree rest ↔ ∀ c ∈ rest.head?, isDigit c = false := by
  simp only [DigitFree, ← is_digit_iff, Bool.not_eq_true]

theorem take_decimal_eq_some_iff : takeDecimal bound cs = some (n, rest) ↔
    ∃ ds, IsDigits ds ∧ ofDigits ds = n ∧ n < bound ∧ cs = ds ++ rest ∧ DigitFree rest := by
  simp only [takeDecimal, Option.ite_none_left_eq_some, not_or, List.isEmpty_iff, Nat.not_le,
    Option.some_inj, Prod.mk.injEq]
  constructor
  · rintro ⟨⟨hne,hbound⟩,rfl,rfl⟩
    exact ⟨_,is_digits_iff.mpr ⟨hne,fun c hc => List.mem_takeWhile_imp hc⟩,rfl,hbound,
      List.takeWhile_append_dropWhile.symm,digit_free_iff.mpr (head?_drop_while cs)⟩
  · rintro ⟨ds,hds,rfl,hbound,rfl,hrest⟩
    obtain ⟨hne,hall⟩ := is_digits_iff.mp hds
    have hstop := digit_free_iff.mp hrest
    rw [take_while_run hall hstop, drop_while_run hall hstop]
    exact ⟨⟨hne,hbound⟩,rfl,rfl⟩

theorem take_octet_eq_some_iff : takeOctet cs = some (n, rest) ↔
    ∃ ds, IsOctet n ds ∧ cs = ds ++ rest ∧ DigitFree rest := by
  simp only [takeOctet, Option.ite_none_left_eq_some, not_or, Nat.not_lt, take_decimal_eq_some_iff]
  constructor
  · rintro ⟨⟨hlength,hzero⟩,ds,hds,hvalue,hbound,rfl,hrest⟩
    rw [take_while_run (is_digits_iff.mp hds).2 (digit_free_iff.mp hrest)] at hlength hzero
    exact ⟨ds,⟨is_whole_iff.mpr ⟨hds,hzero⟩,hlength,hvalue,hbound⟩,rfl,hrest⟩
  · rintro ⟨ds,h,rfl,hrest⟩
    obtain ⟨hds,hzero⟩ := is_whole_iff.mp h.whole
    rw [take_while_run (is_digits_iff.mp hds).2 (digit_free_iff.mp hrest)]
    exact ⟨⟨h.length,hzero⟩,ds,hds,h.value,h.bound,rfl,hrest⟩

theorem take_char_eq_some_iff {c : Char} : takeChar c cs = some rest ↔ cs = c :: rest := by
  cases cs with
  | nil => simp [takeChar]
  | cons d ds => simp [takeChar]

end Decimals

section V4

variable {octets : List Nat} {cs rest : List Char}

theorem digit_free_cons {c : Char} (h : ¬ IsDigit c) : DigitFree (c :: rest) := by
  simpa [DigitFree] using h

theorem take_v4_eq_some_iff : takeV4 cs = some (octets, rest) ↔
    ∃ text, IsV4 octets text ∧ cs = text ++ rest ∧ DigitFree rest := by
  have hdot : ∀ tail, DigitFree ('.' :: tail) := fun _ => digit_free_cons (by decide)
  constructor
  · intro h
    obtain ⟨⟨a,_⟩,ha,h⟩ := Option.bind_eq_some_iff.mp h
    obtain ⟨_,hab,h⟩ := Option.bind_eq_some_iff.mp h
    obtain ⟨⟨b,_⟩,hb,h⟩ := Option.bind_eq_some_iff.mp h
    obtain ⟨_,hbc,h⟩ := Option.bind_eq_some_iff.mp h
    obtain ⟨⟨c,_⟩,hc,h⟩ := Option.bind_eq_some_iff.mp h
    obtain ⟨_,hcd,h⟩ := Option.bind_eq_some_iff.mp h
    obtain ⟨⟨d,_⟩,hd,h⟩ := Option.bind_eq_some_iff.mp h
    obtain ⟨rfl,rfl⟩ := Prod.mk.inj (Option.some.inj h)
    rw [take_octet_eq_some_iff] at ha hb hc hd
    rw [take_char_eq_some_iff] at hab hbc hcd
    obtain ⟨as,ha,rfl,_⟩ := ha
    obtain ⟨bs,hb,rfl,_⟩ := hb
    obtain ⟨cs,hc,rfl,_⟩ := hc
    obtain ⟨ds,hd,rfl,hrest⟩ := hd
    subst hab hbc hcd
    exact ⟨_,.dotted ha hb hc hd,by simp only [List.append_assoc, List.cons_append],hrest⟩
  · rintro ⟨_,⟨ha,hb,hc,hd⟩,rfl,hrest⟩
    rw [List.append_assoc, List.cons_append, List.append_assoc, List.cons_append,
      List.append_assoc, List.cons_append]
    refine Option.bind_eq_some_iff.mpr ⟨_,take_octet_eq_some_iff.mpr ⟨_,ha,rfl,hdot _⟩,?_⟩
    refine Option.bind_eq_some_iff.mpr ⟨_,take_char_eq_some_iff.mpr rfl,?_⟩
    refine Option.bind_eq_some_iff.mpr ⟨_,take_octet_eq_some_iff.mpr ⟨_,hb,rfl,hdot _⟩,?_⟩
    refine Option.bind_eq_some_iff.mpr ⟨_,take_char_eq_some_iff.mpr rfl,?_⟩
    refine Option.bind_eq_some_iff.mpr ⟨_,take_octet_eq_some_iff.mpr ⟨_,hc,rfl,hdot _⟩,?_⟩
    refine Option.bind_eq_some_iff.mpr ⟨_,take_char_eq_some_iff.mpr rfl,?_⟩
    exact Option.bind_eq_some_iff.mpr ⟨_,take_octet_eq_some_iff.mpr ⟨_,hd,rfl,hrest⟩,rfl⟩

/-- A group is no octet, unless a full stop follows it. -/
theorem take_v4_eq_none {n : Nat} {hs : List Char} (h : IsGroup n hs)
    (hrest : ∀ c ∈ rest.head?, ¬ IsHexDigit c ∧ c ≠ '.') : takeV4 (hs ++ rest) = none := by
  rw [Option.eq_none_iff_forall_ne_some]
  rintro ⟨octets,rest'⟩ hread
  obtain ⟨_,⟨ha,_,_,_⟩,htext,_⟩ := take_v4_eq_some_iff.mp hread
  rw [List.append_assoc, List.append_eq_append_iff] at htext
  rcases htext with ⟨more,hoctet,hrest'⟩ | ⟨more,hgroup,hrest'⟩
  · cases more with
    | nil => exact (hrest '.' (by rw [hrest']; rfl)).2 rfl
    | cons d more =>
      have hdigit : IsDigit d := ha.whole.is_digits.digits d (by rw [hoctet]; simp)
      exact (hrest d (by rw [hrest']; rfl)).1 (.inl hdigit)
  · cases more with
    | nil => exact (hrest '.' (by rw [← List.nil_append rest, ← hrest']; rfl)).2 rfl
    | cons d more =>
      obtain ⟨rfl,_⟩ := List.cons.inj hrest'
      exact absurd (h.digits '.' (by rw [hgroup]; simp)) (by decide)

end V4

section Groups

variable {n : Nat} {cs hs rest : List Char}

def HexFree (rest : List Char) : Prop := ∀ c ∈ rest.head?, ¬ IsHexDigit c

theorem HexFree.digit_free (h : HexFree rest) : DigitFree rest :=
  fun c hc hdigit => h c hc (.inl hdigit)

theorem hex_free_iff : HexFree rest ↔ ∀ c ∈ rest.head?, (hexValue? c).isSome = false := by
  simp only [HexFree, ← is_some_hex_value?_iff, Bool.not_eq_true]

theorem take_group_eq_some_iff : takeGroup cs = some (n, rest) ↔
    ∃ hs, IsGroup n hs ∧ cs = hs ++ rest ∧ HexFree rest := by
  simp only [takeGroup, Option.ite_none_left_eq_some, not_or, List.isEmpty_iff, Nat.not_lt,
    Option.some_inj, Prod.mk.injEq]
  constructor
  · rintro ⟨⟨hne,hlength⟩,hvalue,rfl⟩
    have hdigits : ∀ c ∈ cs.takeWhile (fun c => (hexValue? c).isSome), IsHexDigit c :=
      fun c hc => (is_some_hex_value?_iff c).mp
        (List.mem_takeWhile_imp (p := fun c => (hexValue? c).isSome) hc)
    exact ⟨_,⟨hne,hlength,hdigits,hvalue⟩,List.takeWhile_append_dropWhile.symm,
      hex_free_iff.mpr (head?_drop_while cs)⟩
  · rintro ⟨hs,h,rfl,hrest⟩
    have hall : ∀ c ∈ hs, (hexValue? c).isSome = true :=
      fun c hc => (is_some_hex_value?_iff c).mpr (h.digits c hc)
    rw [take_while_run hall (hex_free_iff.mp hrest), drop_while_run hall (hex_free_iff.mp hrest)]
    exact ⟨⟨h.nonempty,h.length⟩,h.value,rfl⟩

theorem not_hex_free_append (hne : hs ≠ []) (h : ∀ c ∈ hs, IsHexDigit c) :
    ¬ HexFree (hs ++ rest) := by
  obtain ⟨c,hs,rfl⟩ := List.exists_cons_of_ne_nil hne
  exact fun hfree => hfree c rfl (h c List.mem_cons_self)

theorem HexFree.take_group (h : HexFree cs) : takeGroup cs = none := by
  rw [Option.eq_none_iff_forall_ne_some]
  rintro ⟨n,rest⟩ hread
  obtain ⟨hs,hgroup,rfl,_⟩ := take_group_eq_some_iff.mp hread
  exact not_hex_free_append hgroup.nonempty hgroup.digits h

theorem HexFree.take_v4 (h : HexFree cs) : takeV4 cs = none := by
  rw [Option.eq_none_iff_forall_ne_some]
  rintro ⟨octets,rest⟩ hread
  obtain ⟨_,⟨ha,_,_,_⟩,rfl,_⟩ := take_v4_eq_some_iff.mp hread
  have hdigits := ha.whole.is_digits
  rw [List.append_assoc] at h
  exact not_hex_free_append hdigits.nonempty (fun c hc => .inl (hdigits.digits c hc)) h

end Groups

section Sides

variable {n : Nat} {isFirst v4 : Bool} {ns : List Nat} {cs text rest : List Char}

theorem after_colon_eq_some_iff : afterColon isFirst cs = some rest ↔
    cs = if isFirst then rest else ':' :: rest := by
  cases isFirst <;> simp [afterColon, take_char_eq_some_iff]

theorem take_groups_of_v4 {octets : List Nat} (hn : 0 < n)
    (h : (afterColon isFirst cs).bind takeV4 = some (octets, rest)) :
    takeGroups isFirst (n + 1) cs = ⟨groupsOfV4 octets, true, rest⟩ := by
  simp [takeGroups, hn, h]

theorem take_groups_of_group {g : Nat} (hv4 : 0 < n → (afterColon isFirst cs).bind takeV4 = none)
    (h : (afterColon isFirst cs).bind takeGroup = some (g, rest)) :
    takeGroups isFirst (n + 1) cs =
      { takeGroups false n rest with groups := g :: (takeGroups false n rest).groups } := by
  have hnone : (if 0 < n then (afterColon isFirst cs).bind takeV4 else none) = none := by
    split_ifs with hn
    · exact hv4 hn
    · rfl
  rw [takeGroups, hnone, h]

theorem take_groups_of_none (h : ∀ rest, afterColon isFirst cs = some rest → HexFree rest) :
    takeGroups isFirst n cs = ⟨[], false, cs⟩ := by
  cases n with
  | zero => rfl
  | succ n =>
    have hv4 : (afterColon isFirst cs).bind takeV4 = none :=
      Option.bind_eq_none_iff.mpr fun rest hrest => (h rest hrest).take_v4
    have hgroup : (afterColon isFirst cs).bind takeGroup = none :=
      Option.bind_eq_none_iff.mpr fun rest hrest => (h rest hrest).take_group
    simp [takeGroups, hv4, hgroup]

/-- What is taken is as many groups as stand there, up to the given number. -/
theorem take_groups_sound (isFirst : Bool) (n : Nat) (cs : List Char) :
    (takeGroups isFirst n cs).groups.length ≤ n ∧
      (takeGroups isFirst n cs = ⟨[], false, cs⟩ ∨
        ∃ text, IsGroups (takeGroups isFirst n cs).endsInV4 (takeGroups isFirst n cs).groups text ∧
          afterColon isFirst cs = some (text ++ (takeGroups isFirst n cs).rest)) := by
  induction n generalizing isFirst cs with
  | zero => exact ⟨Nat.le_refl 0,.inl rfl⟩
  | succ n ih =>
    cases hv4 : if 0 < n then (afterColon isFirst cs).bind takeV4 else none with
    | some found =>
      obtain ⟨octets,rest⟩ := found
      obtain ⟨hn,hread⟩ := Option.ite_none_right_eq_some.mp hv4
      obtain ⟨_,hcolon,htake⟩ := Option.bind_eq_some_iff.mp hread
      obtain ⟨text,h,rfl,_⟩ := take_v4_eq_some_iff.mp htake
      rw [take_groups_of_v4 hn hread]
      cases h with
      | dotted ha hb hc hd =>
        exact ⟨Nat.succ_le_succ hn,.inr ⟨_,.v4 (.dotted ha hb hc hd),hcolon⟩⟩
    | none =>
      have hnone : 0 < n → (afterColon isFirst cs).bind takeV4 = none := by
        intro hn
        rwa [if_pos hn] at hv4
      cases hgroup : (afterColon isFirst cs).bind takeGroup with
      | none =>
        have hempty : takeGroups isFirst (n + 1) cs = ⟨[], false, cs⟩ := by
          rw [takeGroups, hv4, hgroup]
        rw [hempty]
        exact ⟨Nat.zero_le _,.inl rfl⟩
      | some found =>
        obtain ⟨g,rest⟩ := found
        obtain ⟨_,hcolon,htake⟩ := Option.bind_eq_some_iff.mp hgroup
        obtain ⟨hs,h,rfl,_⟩ := take_group_eq_some_iff.mp htake
        obtain ⟨hlength,hmore⟩ := ih false rest
        rw [take_groups_of_group hnone hgroup]
        refine ⟨Nat.succ_le_succ hlength,.inr ?_⟩
        rcases hmore with hempty | ⟨text,hgroups,hrest⟩
        · rw [hempty]
          exact ⟨hs,.last h,hcolon⟩
        · refine ⟨hs ++ ':' :: text,.more h hgroups,?_⟩
          rw [hcolon, List.append_assoc, List.cons_append]
          exact congrArg (fun tail => some (hs ++ tail)) (after_colon_eq_some_iff.mp hrest)

theorem colon_no_digit (tail : List Char) :
    ∀ c ∈ (':' :: tail).head?, ¬ IsHexDigit c ∧ c ≠ '.' := by
  simp only [List.head?_cons, Option.mem_some_iff, forall_eq']
  decide

structure Ends (rest : List Char) : Prop where
  noDigit : ∀ c ∈ rest.head?, ¬ IsHexDigit c ∧ c ≠ '.'
  noGroup : ∀ tail, rest = ':' :: tail → HexFree tail

theorem ends_colons (tail : List Char) : Ends (':' :: ':' :: tail) where
  noDigit := colon_no_digit _
  noGroup tail' h := by
    rw [← (List.cons.inj h).2]
    exact fun c hc => (colon_no_digit tail c hc).1

theorem Ends.hex_free (h : Ends rest) : HexFree rest := fun c hc => (h.noDigit c hc).1

theorem IsGroups.taken (h : IsGroups v4 ns text) (hlength : ns.length ≤ n) (hrest : Ends rest)
    (hcs : afterColon isFirst cs = some (text ++ rest)) :
    takeGroups isFirst n cs = ⟨ns, v4, rest⟩ := by
  induction h generalizing n isFirst cs with
  | @last g hs h =>
    obtain ⟨n,rfl⟩ := Nat.exists_eq_succ_of_ne_zero (Nat.ne_of_gt hlength)
    have hv4 : (afterColon isFirst cs).bind takeV4 = none := by
      rw [hcs]
      exact take_v4_eq_none h hrest.noDigit
    have hgroup : (afterColon isFirst cs).bind takeGroup = some (g, rest) := by
      rw [hcs]
      exact take_group_eq_some_iff.mpr ⟨hs,h,rfl,hrest.hex_free⟩
    have hstop : takeGroups false n rest = ⟨[], false, rest⟩ :=
      take_groups_of_none fun tail htail => hrest.noGroup tail (after_colon_eq_some_iff.mp htail)
    rw [take_groups_of_group (fun _ => hv4) hgroup, hstop]
  | @v4 a b c d text h =>
    have hread : (afterColon isFirst cs).bind takeV4 = some ([a, b, c, d], rest) := by
      rw [hcs]
      exact take_v4_eq_some_iff.mpr ⟨text,h,rfl,hrest.hex_free.digit_free⟩
    obtain ⟨n,rfl⟩ := Nat.exists_eq_add_of_le' hlength
    exact take_groups_of_v4 (Nat.succ_pos _) hread
  | @more v4 g ns hs text h hmore ih =>
    have hcolon := colon_no_digit (text ++ rest)
    obtain ⟨n,rfl⟩ := Nat.exists_eq_succ_of_ne_zero (Nat.ne_of_gt (Nat.zero_lt_of_lt hlength))
    rw [List.append_assoc, List.cons_append] at hcs
    have hv4 : (afterColon isFirst cs).bind takeV4 = none := by
      rw [hcs]
      exact take_v4_eq_none h hcolon
    have hgroup : (afterColon isFirst cs).bind takeGroup = some (g, ':' :: (text ++ rest)) := by
      rw [hcs]
      exact take_group_eq_some_iff.mpr ⟨hs,h,rfl,fun c hc => (hcolon c hc).1⟩
    have hnext : takeGroups false n (':' :: (text ++ rest)) = ⟨ns, v4, rest⟩ :=
      ih (Nat.le_of_succ_le_succ hlength) (after_colon_eq_some_iff.mpr rfl)
    rw [take_groups_of_group (fun _ => hv4) hgroup, hnext]

theorem IsSide.taken (h : IsSide v4 ns text) (hlength : ns.length ≤ n) (hrest : Ends rest) :
    takeGroups true n (text ++ rest) = ⟨ns, v4, rest⟩ := by
  cases h with
  | none => exact take_groups_of_none fun tail htail => Option.some.inj htail ▸ hrest.hex_free
  | some h => exact h.taken hlength hrest rfl

theorem IsSide.groups (h : IsSide v4 ns text) (hne : ns ≠ []) : IsGroups v4 ns text := by
  cases h with
  | none => exact absurd rfl hne
  | some h => exact h

theorem is_side_take_groups (n : Nat) (cs : List Char) : ∃ text,
    IsSide (takeGroups true n cs).endsInV4 (takeGroups true n cs).groups text ∧
      cs = text ++ (takeGroups true n cs).rest := by
  rcases (take_groups_sound true n cs).2 with hempty | ⟨text,h,hcs⟩
  · rw [hempty]
    exact ⟨[],.none,rfl⟩
  · exact ⟨text,.some h,Option.some.inj hcs⟩

def Closes (rest : List Char) : Prop := ∀ c ∈ rest.head?, c ∈ ['%', ']']

theorem Closes.ends (h : Closes rest) : Ends rest := by
  have hmarks : ∀ c ∈ ['%', ']'], (¬ IsHexDigit c ∧ c ≠ '.') ∧ c ≠ ':' :=
    List.all_iff_forall_prop.mp (by decide)
  refine ⟨fun c hc => (hmarks c (h c hc)).1,?_⟩
  rintro tail rfl
  exact absurd rfl (hmarks ':' (h ':' rfl)).2

theorem is_v6_of_take_v6 (h : takeV6 cs = some (ns, rest)) :
    ∃ text, IsV6 ns text ∧ cs = text ++ rest := by
  obtain ⟨fs,hfront,hcs⟩ := is_side_take_groups 8 cs
  have hlength := (take_groups_sound true 8 cs).1
  rw [takeV6] at h
  generalize takeGroups true 8 cs = front at h hfront hcs hlength
  dsimp only at h
  split_ifs at h with hfull hv4
  · obtain ⟨rfl,rfl⟩ := Prod.mk.inj (Option.some.inj h)
    have hne : front.groups ≠ [] := fun hnil => nomatch hnil ▸ hfull
    exact ⟨fs,.full (hfront.groups hne) hfull,hcs⟩
  · obtain ⟨_,hcolon,h⟩ := Option.bind_eq_some_iff.mp h
    obtain ⟨tail,hcolon',h⟩ := Option.bind_eq_some_iff.mp h
    obtain ⟨bs,hback,htail⟩ := is_side_take_groups (7 - front.groups.length) tail
    have hlength' := (take_groups_sound true (7 - front.groups.length) tail).1
    generalize takeGroups true (7 - front.groups.length) tail = back at h hback htail hlength'
    obtain ⟨rfl,rfl⟩ := Prod.mk.inj (Option.some.inj h)
    rw [take_char_eq_some_iff] at hcolon hcolon'
    rw [Bool.not_eq_true] at hv4
    rw [hv4] at hfront
    refine ⟨_,.shortened hfront hback (by omega),?_⟩
    rw [hcs, hcolon, hcolon', htail, List.append_assoc, List.cons_append, List.cons_append]

theorem take_v6_of_is_v6 (h : IsV6 ns text) (hrest : Closes rest) :
    takeV6 (text ++ rest) = some (ns, rest) := by
  cases h with
  | full h hlength =>
    have hall := (IsSide.some h).taken (Nat.le_of_eq hlength) hrest.ends
    simp only [takeV6, hall, hlength, if_true]
  | @shortened v4 front back fs bs hf hb hlength =>
    have hfront : takeGroups true 8 (fs ++ ':' :: ':' :: (bs ++ rest)) =
        ⟨front, false, ':' :: ':' :: (bs ++ rest)⟩ := hf.taken (by omega) (ends_colons _)
    have hback : takeGroups true (7 - front.length) (bs ++ rest) = ⟨back, v4, rest⟩ :=
      hb.taken (by omega) hrest.ends
    have hfull : front.length ≠ 8 := by omega
    rw [List.append_assoc, List.cons_append, List.cons_append]
    simp [takeV6, hfront, hback, hfull, takeChar]

end Sides

section Ports

variable {mark : Char} {bound n : Nat} {cs ss rest : List Char}

theorem take_marked_eq_some_iff : (takeChar mark cs).bind (takeDecimal bound) = some (n, rest) ↔
    ∃ ms, IsMarked mark bound n ms ∧ cs = ms ++ rest ∧ DigitFree rest := by
  simp only [Option.bind_eq_some_iff, take_char_eq_some_iff, take_decimal_eq_some_iff]
  constructor
  · rintro ⟨_,rfl,ds,hds,hvalue,hbound,rfl,hrest⟩
    exact ⟨_,.digits hds hvalue hbound,rfl,hrest⟩
  · rintro ⟨_,⟨hds,hvalue,hbound⟩,rfl,hrest⟩
    exact ⟨_,rfl,_,hds,hvalue,hbound,rfl,hrest⟩

namespace SocketAddress

theorem is_scope_take_scope (cs : List Char) :
    ∃ ss, IsScope (takeScope cs).1 ss ∧ cs = ss ++ (takeScope cs).2 := by
  unfold takeScope
  split
  · next found h =>
    obtain ⟨ss,hs,hcs,_⟩ := take_marked_eq_some_iff.mp h
    exact ⟨ss,.given hs,hcs⟩
  · exact ⟨[],.absent,rfl⟩

theorem take_scope_of_is_scope (h : IsScope n ss) :
    takeScope (ss ++ ']' :: rest) = (n, ']' :: rest) := by
  unfold takeScope
  cases h with
  | absent => rfl
  | given h =>
    have hbracket : DigitFree (']' :: rest) := digit_free_cons (by decide)
    have hread := take_marked_eq_some_iff.mpr ⟨ss,h,rfl,hbracket⟩
    rw [hread]

theorem take_port_eq_some_iff : takePort cs = some (n, []) ↔ IsMarked ':' (twoTo 16) n cs := by
  have hnil : DigitFree [] := fun c hc => nomatch hc
  refine take_marked_eq_some_iff.trans ?_
  simp [hnil]

variable {a : SocketAddress}

theorem read_v4?_sound (h : readV4? cs = some a) : IsSocketAddress a cs := by
  obtain ⟨⟨octets,_⟩,hoctets,h⟩ := Option.bind_eq_some_iff.mp h
  obtain ⟨⟨port,_⟩,hport,h⟩ := Option.bind_eq_some_iff.mp h
  obtain ⟨hend,ha⟩ := Option.ite_none_right_eq_some.mp h
  rw [← Option.some.inj ha]
  rw [List.isEmpty_iff.mp hend, take_port_eq_some_iff] at hport
  obtain ⟨text,htext,rfl,_⟩ := take_v4_eq_some_iff.mp hoctets
  exact .v4 htext hport

theorem read_v6?_sound (h : readV6? cs = some a) : IsSocketAddress a cs := by
  obtain ⟨_,hopen,h⟩ := Option.bind_eq_some_iff.mp h
  obtain ⟨⟨groups,afterGroups⟩,hgroups,h⟩ := Option.bind_eq_some_iff.mp h
  obtain ⟨ss,hs,hss⟩ := is_scope_take_scope afterGroups
  dsimp only at h
  generalize takeScope afterGroups = found at h hs hss
  obtain ⟨_,hclose,h⟩ := Option.bind_eq_some_iff.mp h
  obtain ⟨⟨port,afterPort⟩,hport,h⟩ := Option.bind_eq_some_iff.mp h
  obtain ⟨hend,ha⟩ := Option.ite_none_right_eq_some.mp h
  rw [← Option.some.inj ha]
  have hnil : afterPort = [] := List.isEmpty_iff.mp hend
  rw [hnil, take_port_eq_some_iff] at hport
  rw [take_char_eq_some_iff] at hopen hclose
  obtain ⟨text,htext,htext'⟩ := is_v6_of_take_v6 hgroups
  rw [hopen, htext', hss, hclose, ← List.append_assoc]
  exact .v6 htext hs hport

theorem read_v4?_complete {octets : List Nat} {port : Nat} {ps : List Char} (h : IsV4 octets cs)
    (hp : IsMarked ':' (twoTo 16) port ps) :
    readV4? (cs ++ ps) = some ⟨.v4 octets, port⟩ := by
  have hcolon : DigitFree ps := by
    cases hp with
    | digits => exact digit_free_cons (by decide)
  refine Option.bind_eq_some_iff.mpr ⟨_,take_v4_eq_some_iff.mpr ⟨cs,h,rfl,hcolon⟩,?_⟩
  exact Option.bind_eq_some_iff.mpr ⟨_,take_port_eq_some_iff.mpr hp,rfl⟩

theorem read_v6?_complete {groups : List Nat} {scope port : Nat} {ps : List Char}
    (h : IsV6 groups cs) (hs : IsScope scope ss) (hp : IsMarked ':' (twoTo 16) port ps) :
    readV6? ('[' :: (cs ++ ss ++ ']' :: ps)) = some ⟨.v6 groups scope, port⟩ := by
  have hcloses : Closes (ss ++ ']' :: ps) := by
    cases hs with
    | absent => simp [Closes]
    | given h =>
      cases h with
      | digits => simp [Closes]
  have hmark : ∀ (c : Char) (tail : List Char), takeChar c (c :: tail) = some tail :=
    fun _ _ => take_char_eq_some_iff.mpr rfl
  rw [List.append_assoc]
  simp only [readV6?, hmark, take_v6_of_is_v6 h hcloses, take_scope_of_is_scope hs,
    take_port_eq_some_iff.mpr hp, Option.bind_eq_bind, Option.bind_some]
  rfl

theorem read_v4?_bracket : readV4? ('[' :: cs) = none := by
  have hfree : HexFree ('[' :: cs) := by
    simp only [HexFree, List.head?_cons, Option.mem_some_iff, forall_eq']
    decide
  rw [readV4?, hfree.take_v4]
  rfl

/-- The reader takes exactly the socket addresses of the grammar. -/
theorem read?_eq_some_iff (s : String) : read? s = some a ↔ IsSocketAddress a s.toList := by
  rw [read?]
  generalize s.toList = cs
  constructor
  · intro h
    cases hv4 : readV4? cs with
    | some b =>
      rw [hv4] at h
      exact read_v4?_sound (hv4.trans h)
    | none =>
      rw [hv4] at h
      exact read_v6?_sound h
  · intro h
    cases h with
    | v4 h hp =>
      rw [read_v4?_complete h hp]
      rfl
    | v6 h hs hp =>
      rw [read_v4?_bracket]
      exact read_v6?_complete h hs hp

end SocketAddress

end Ports

end ComplianceIntake.Network
