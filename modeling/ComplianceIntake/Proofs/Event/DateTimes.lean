import ComplianceIntake.Proofs.Event.Echoes
import ComplianceIntake.Proofs.Json.Grammar

/-!
# The grammar of date-times

The grammar of RFC 3339, stated without the reader: every number has its fixed
count of digits, the letters may be lower case, and a blank may stand for the
`T`. The calendar lists the months of a year with their lengths. The reader takes
what the grammar derives if its date is in the calendar, and nothing else, but
for one thing: an offset may have the minus sign proper where the grammar has a
hyphen. No date-time has a blank at either end.
-/

set_option autoImplicit false

namespace ComplianceIntake.Event

open ComplianceIntake.Json (IsDigit IsDigits is_digit_iff)
open ComplianceIntake.Number
open ComplianceIntake.Text

structure Padded (width n : Nat) (cs : List Char) : Prop where
  length : cs.length = width
  digits : ∀ c ∈ cs, IsDigit c
  value : ofDigits cs = n

theorem is_blank_of_is_digit {c : Char} (h : IsDigit c) : isBlank c = false :=
  Spec.is_blank_of_is_lower_hex c (by simp [Spec.isLowerHex, h.1, h.2])

namespace Padded

variable {width n : Nat} {cs : List Char}

theorem ne_nil (h : Padded (width + 1) n cs) : cs ≠ [] :=
  fun hnil => nomatch (hnil ▸ h.length : ([] : List Char).length = width + 1)

theorem exists_cons (h : Padded (width + 1) n cs) : ∃ c ds, cs = c :: ds ∧ IsDigit c := by
  obtain ⟨c,ds,rfl⟩ := List.exists_cons_of_ne_nil h.ne_nil
  exact ⟨c,ds,rfl,h.digits c List.mem_cons_self⟩

theorem exists_concat (h : Padded (width + 1) n cs) : ∃ ds c, cs = ds ++ [c] ∧ IsDigit c :=
  ⟨_,_,(List.dropLast_append_getLast h.ne_nil).symm,h.digits _ (List.getLast_mem h.ne_nil)⟩

end Padded

namespace Timestamp

inductive IsDate (year month day : Nat) : List Char → Prop
  | parts {ys ms ds : List Char} (hy : Padded 4 year ys) (hm : Padded 2 month ms)
      (hd : Padded 2 day ds) : IsDate year month day (ys ++ '-' :: (ms ++ '-' :: ds))

inductive IsFraction : List Char → List Char → Prop
  | absent : IsFraction [] []
  | digits {ds : List Char} (h : IsDigits ds) : IsFraction ds ('.' :: ds)

inductive IsClock (hour minute second : Nat) (fraction : List Char) : List Char → Prop
  | parts {hs ms ss fs : List Char} (hh : Padded 2 hour hs) (hm : Padded 2 minute ms)
      (hsec : Padded 2 second ss) (hf : IsFraction fraction fs) :
      IsClock hour minute second fraction (hs ++ ':' :: (ms ++ ':' :: (ss ++ fs)))

/-- An offset in minutes, where `minus` lists the signs that a negative one may have. -/
inductive IsOffset (minus : List Char) : Int → List Char → Prop
  | utc {c : Char} (hc : c ∈ ['Z', 'z']) : IsOffset minus 0 [c]
  | east {hours minutes : Nat} {hs ms : List Char} (hh : Padded 2 hours hs)
      (hm : Padded 2 minutes ms) (hhour : hours ≤ 23) (hminute : minutes ≤ 59) :
      IsOffset minus (60 * hours + minutes) ('+' :: (hs ++ ':' :: ms))
  | west {sign : Char} {hours minutes : Nat} {hs ms : List Char} (hsign : sign ∈ minus)
      (hh : Padded 2 hours hs) (hm : Padded 2 minutes ms) (hhour : hours ≤ 23)
      (hminute : minutes ≤ 59) :
      IsOffset minus (-(60 * hours + minutes)) (sign :: (hs ++ ':' :: ms))

inductive IsDateTime (minus : List Char) (t : Timestamp) : List Char → Prop
  | parts {date clock offset : List Char} {sep : Char} (hd : IsDate t.year t.month t.day date)
      (hsep : sep ∈ ['T', 't', ' ']) (hc : IsClock t.hour t.minute t.second t.fraction clock)
      (ho : IsOffset minus t.offset offset) :
      IsDateTime minus t (date ++ sep :: (clock ++ offset))

def IsLeap (year : Nat) : Prop := 4 ∣ year ∧ (100 ∣ year → 400 ∣ year)

instance (year : Nat) : Decidable (IsLeap year) := inferInstanceAs (Decidable (_ ∧ _))

def months (year : Nat) : List (Nat × Nat) :=
  [(1, 31), (2, if IsLeap year then 29 else 28), (3, 31), (4, 30), (5, 31), (6, 30), (7, 31),
    (8, 31), (9, 30), (10, 31), (11, 30), (12, 31)]

/-- The date is in the calendar and the time is on the clock, which may show a leap second. -/
structure Exists (t : Timestamp) : Prop where
  date : ∃ length, (t.month, length) ∈ months t.year ∧ 1 ≤ t.day ∧ t.day ≤ length
  hour : t.hour ≤ 23
  minute : t.minute ≤ 59
  second : t.second ≤ 60

theorem is_leap_year_iff (year : Nat) : isLeapYear year = true ↔ IsLeap year := by
  simp [isLeapYear, IsLeap, Nat.dvd_iff_mod_eq_zero, imp_iff_not_or]

theorem mem_months_iff (year month length : Nat) :
    (month, length) ∈ months year ↔ 1 ≤ month ∧ month ≤ 12 ∧ length = daysInMonth year month := by
  have hfebruary : (if IsLeap year then 29 else 28) = if isLeapYear year then 29 else 28 :=
    if_congr (is_leap_year_iff year).symm rfl rfl
  constructor
  · intro h
    simp only [months, List.mem_cons, Prod.mk.injEq, List.not_mem_nil, or_false, hfebruary] at h
    rcases h with ⟨rfl,rfl⟩ | ⟨rfl,rfl⟩ | ⟨rfl,rfl⟩ | ⟨rfl,rfl⟩ | ⟨rfl,rfl⟩ | ⟨rfl,rfl⟩ |
      ⟨rfl,rfl⟩ | ⟨rfl,rfl⟩ | ⟨rfl,rfl⟩ | ⟨rfl,rfl⟩ | ⟨rfl,rfl⟩ | ⟨rfl,rfl⟩ <;> simp [daysInMonth]
  · rintro ⟨hlow,hhigh,rfl⟩
    interval_cases month <;> simp [months, daysInMonth, hfebruary]

theorem is_real_iff (t : Timestamp) : t.isReal = true ↔ t.Exists := by
  simp only [isReal, Bool.and_eq_true, decide_eq_true_eq]
  constructor
  · rintro ⟨⟨⟨⟨⟨⟨hlow,hhigh⟩,hday⟩,hlast⟩,hhour⟩,hminute⟩,hsecond⟩
    exact ⟨⟨_,(mem_months_iff _ _ _).mpr ⟨hlow,hhigh,rfl⟩,hday,hlast⟩,hhour,hminute,hsecond⟩
  · rintro ⟨⟨length,hmonth,hday,hlast⟩,hhour,hminute,hsecond⟩
    obtain ⟨hlow,hhigh,rfl⟩ := (mem_months_iff _ _ _).mp hmonth
    exact ⟨⟨⟨⟨⟨⟨hlow,hhigh⟩,hday⟩,hlast⟩,hhour⟩,hminute⟩,hsecond⟩

section Reader

variable {cs rest : List Char}

theorem take_number_eq_some_iff {width n : Nat} :
    takeNumber width cs = some (n, rest) ↔ ∃ ds, Padded width n ds ∧ cs = ds ++ rest := by
  simp only [takeNumber, Option.ite_none_right_eq_some, Option.some.injEq, Prod.mk.injEq,
    List.all_eq_true, is_digit_iff]
  constructor
  · rintro ⟨⟨hlength,hdigits⟩,hvalue,rfl⟩
    exact ⟨_,⟨hlength,hdigits,hvalue⟩,(List.take_append_drop width cs).symm⟩
  · rintro ⟨ds,⟨rfl,hdigits,hvalue⟩,rfl⟩
    rw [List.take_left' rfl, List.drop_left' rfl]
    exact ⟨⟨rfl,hdigits⟩,hvalue,rfl⟩

theorem take_one_of_eq_some_iff {allowed : List Char} {c : Char} :
    takeOneOf allowed cs = some (c, rest) ↔ c ∈ allowed ∧ cs = c :: rest := by
  cases cs with
  | nil => simp [takeOneOf]
  | cons d ds =>
    simp only [takeOneOf, Option.ite_none_right_eq_some, Option.some.injEq, Prod.mk.injEq,
      List.contains_iff_mem, List.cons.injEq]
    constructor
    · rintro ⟨hd,rfl,rfl⟩
      exact ⟨hd,rfl,rfl⟩
    · rintro ⟨hc,rfl,rfl⟩
      exact ⟨hc,rfl,rfl⟩

theorem take_number_append {width n : Nat} {ds : List Char} (h : Padded width n ds) :
    takeNumber width (ds ++ rest) = some (n, rest) :=
  take_number_eq_some_iff.mpr ⟨ds,h,rfl⟩

theorem take_one_of_cons {allowed : List Char} {c : Char} (h : c ∈ allowed) :
    takeOneOf allowed (c :: rest) = some (c, rest) :=
  take_one_of_eq_some_iff.mpr ⟨h,rfl⟩

theorem is_fraction_of_take_fraction {ds : List Char} (h : takeFraction cs = some (ds, rest)) :
    ∃ fs, IsFraction ds fs ∧ cs = fs ++ rest := by
  unfold takeFraction at h
  split at h
  · next after =>
    simp only [Option.ite_none_left_eq_some, Option.some.injEq, Prod.mk.injEq] at h
    obtain ⟨hne,rfl,rfl⟩ := h
    have hdigits : IsDigits (after.takeWhile isDigit) :=
      ⟨by simpa using hne,fun c hc => (is_digit_iff c).mp (List.mem_takeWhile_imp hc)⟩
    exact ⟨_,.digits hdigits,by simp⟩
  · cases h
    exact ⟨[],.absent,rfl⟩

theorem take_fraction_of_is_fraction {ds fs : List Char} (h : IsFraction ds fs)
    (hrest : ∀ c ∈ rest.head?, ¬ IsDigit c ∧ c ≠ '.') :
    takeFraction (fs ++ rest) = some (ds, rest) := by
  cases h with
  | absent =>
    rw [List.nil_append]
    unfold takeFraction
    split
    · exact absurd rfl (hrest '.' rfl).2
    · rfl
  | digits h =>
    have hdigits : ∀ c ∈ ds, isDigit c = true := fun c hc => (is_digit_iff c).mpr (h.digits c hc)
    have hnone : rest.takeWhile isDigit = [] := by
      cases rest with
      | nil => rfl
      | cons c cs =>
        have hc : isDigit c = false := by
          rw [← Bool.not_eq_true, is_digit_iff]
          exact (hrest c rfl).1
        simp [hc]
    have htake : (ds ++ rest).takeWhile isDigit = ds := by
      rw [List.takeWhile_append_of_pos hdigits, hnone, List.append_nil]
    have hdrop : (ds ++ rest).dropWhile isDigit = rest := by
      have hsplit := List.takeWhile_append_dropWhile (p := isDigit) (l := ds ++ rest)
      rw [htake] at hsplit
      exact List.append_cancel_left hsplit
    rw [List.cons_append, takeFraction, htake, hdrop, if_neg (by simpa using h.nonempty)]

/-- What holds of all marks is decided over the marks alone, and not over all characters. -/
theorem forall_marks {p : Char → Prop} [DecidablePred p] {marks : List Char}
    (h : marks.all (fun c => p c) = true) : ∀ c ∈ marks, p c :=
  fun c hc => of_decide_eq_true (List.all_eq_true.mp h c hc)

theorem read_offset_numeric {sign : Char} (hsign : sign ∈ ['+', '-', minusSign])
    {hours minutes : Nat} {hs ms : List Char} (hh : Padded 2 hours hs) (hm : Padded 2 minutes ms)
    (hhour : hours ≤ 23) (hminute : minutes ≤ 59) :
    readOffset (sign :: (hs ++ ':' :: ms)) =
      some (if sign = '+' then (60 * hours + minutes : Int) else -(60 * hours + minutes)) := by
  have hmarks : ∀ c ∈ ['+', '-', minusSign], ¬ (c = 'Z' ∨ c = 'z') ∧
      c ∈ ['Z', 'z', '+', '-', minusSign] := forall_marks (by decide)
  obtain ⟨hutc,hallowed⟩ := hmarks sign hsign
  have hminutes : takeNumber 2 ms = some (minutes, []) :=
    take_number_eq_some_iff.mpr ⟨ms,hm,(List.append_nil ms).symm⟩
  refine Option.bind_eq_some_iff.mpr ⟨_,take_one_of_cons hallowed,(if_neg hutc).trans ?_⟩
  refine Option.bind_eq_some_iff.mpr ⟨_,take_number_append hh,?_⟩
  refine Option.bind_eq_some_iff.mpr ⟨_,take_one_of_cons (List.mem_singleton_self ':'),?_⟩
  refine Option.bind_eq_some_iff.mpr ⟨_,hminutes,?_⟩
  exact if_pos ⟨rfl,hhour,hminute⟩

theorem read_offset_eq_some_iff {offset : Int} :
    readOffset cs = some offset ↔ IsOffset ['-', minusSign] offset cs := by
  constructor
  · intro h
    obtain ⟨⟨sign,rest⟩,hread,hrest⟩ := Option.bind_eq_some_iff.mp h
    obtain ⟨hsign,rfl⟩ := take_one_of_eq_some_iff.mp hread
    dsimp only at hrest
    split at hrest
    · next hutc =>
      simp only [Option.ite_none_right_eq_some, List.isEmpty_iff, Option.some.injEq] at hrest
      obtain ⟨rfl,rfl⟩ := hrest
      exact .utc (by simpa using hutc)
    · next hutc =>
      obtain ⟨⟨hours,_⟩,hhours,hrest⟩ := Option.bind_eq_some_iff.mp hrest
      obtain ⟨⟨_,_⟩,hcolon,hrest⟩ := Option.bind_eq_some_iff.mp hrest
      obtain ⟨⟨minutes,after⟩,hminutes,hrest⟩ := Option.bind_eq_some_iff.mp hrest
      obtain ⟨⟨hend,hhour,hminute⟩,hoffset⟩ := Option.ite_none_right_eq_some.mp hrest
      rw [Option.some.injEq] at hoffset
      subst hoffset
      obtain ⟨hs,hh,rfl⟩ := take_number_eq_some_iff.mp hhours
      obtain ⟨hmark,rfl⟩ := take_one_of_eq_some_iff.mp hcolon
      obtain ⟨ms,hm,rfl⟩ := take_number_eq_some_iff.mp hminutes
      have hnil : after = [] := List.isEmpty_iff.mp hend
      rw [List.mem_singleton.mp hmark, hnil, List.append_nil]
      split
      · next heast =>
        rw [heast]
        exact .east hh hm hhour hminute
      · next heast =>
        refine .west ?_ hh hm hhour hminute
        simp only [List.mem_cons] at hsign ⊢
        tauto
  · intro h
    cases h with
    | utc hc =>
      have hallowed : _ ∈ ['Z', 'z', '+', '-', minusSign] := List.mem_append_left _ hc
      refine Option.bind_eq_some_iff.mpr ⟨_,take_one_of_cons hallowed,?_⟩
      exact if_pos (by simpa using hc)
    | east hh hm hhour hminute =>
      exact read_offset_numeric (by decide) hh hm hhour hminute
    | @west sign _ _ _ _ hsign hh hm hhour hminute =>
      have hmarks : ∀ c ∈ ['-', minusSign], c ≠ '+' := forall_marks (by decide)
      rw [read_offset_numeric (List.mem_cons_of_mem '+' hsign) hh hm hhour hminute,
        if_neg (hmarks sign hsign)]

theorem IsOffset.head {minus : List Char} {offset : Int} (h : IsOffset minus offset cs)
    (hminus : ∀ c ∈ minus, ¬ IsDigit c ∧ c ≠ '.') : ∀ c ∈ cs.head?, ¬ IsDigit c ∧ c ≠ '.' := by
  cases h with
  | @utc c hc =>
    have hmarks : ∀ c ∈ ['Z', 'z'], ¬ IsDigit c ∧ c ≠ '.' := forall_marks (by decide)
    simpa using hmarks c hc
  | east _ _ _ _ =>
    have hmark : ¬ IsDigit '+' ∧ '+' ≠ '.' := by decide
    simpa using hmark
  | @west sign _ _ _ _ hsign _ _ _ _ => simpa using hminus sign hsign

theorem is_date_time_of_read? {text : String} {t : Timestamp} (h : read? text = some t) :
    IsDateTime ['-', minusSign] t text.toList ∧ t.Exists := by
  obtain ⟨⟨year,_⟩,hyear,h⟩ := Option.bind_eq_some_iff.mp h
  obtain ⟨⟨_,_⟩,hdash,h⟩ := Option.bind_eq_some_iff.mp h
  obtain ⟨⟨month,_⟩,hmonth,h⟩ := Option.bind_eq_some_iff.mp h
  obtain ⟨⟨_,_⟩,hdash',h⟩ := Option.bind_eq_some_iff.mp h
  obtain ⟨⟨day,_⟩,hday,h⟩ := Option.bind_eq_some_iff.mp h
  obtain ⟨⟨sep,_⟩,hsep,h⟩ := Option.bind_eq_some_iff.mp h
  obtain ⟨⟨hour,_⟩,hhour,h⟩ := Option.bind_eq_some_iff.mp h
  obtain ⟨⟨_,_⟩,hcolon,h⟩ := Option.bind_eq_some_iff.mp h
  obtain ⟨⟨minute,_⟩,hminute,h⟩ := Option.bind_eq_some_iff.mp h
  obtain ⟨⟨_,_⟩,hcolon',h⟩ := Option.bind_eq_some_iff.mp h
  obtain ⟨⟨second,_⟩,hsecond,h⟩ := Option.bind_eq_some_iff.mp h
  obtain ⟨⟨fraction,_⟩,hfraction,h⟩ := Option.bind_eq_some_iff.mp h
  obtain ⟨offset,hoffset,h⟩ := Option.bind_eq_some_iff.mp h
  obtain ⟨hreal,ht⟩ := Option.ite_none_right_eq_some.mp h
  rw [Option.some.injEq] at ht
  subst ht
  rw [take_number_eq_some_iff] at hyear hmonth hday hhour hminute hsecond
  simp only [take_one_of_eq_some_iff, List.mem_singleton] at hdash hdash' hsep hcolon hcolon'
  obtain ⟨ys,hy,htext⟩ := hyear
  obtain ⟨rfl,rfl⟩ := hdash
  obtain ⟨ms,hm,rfl⟩ := hmonth
  obtain ⟨rfl,rfl⟩ := hdash'
  obtain ⟨ds,hd,rfl⟩ := hday
  obtain ⟨hsep,rfl⟩ := hsep
  obtain ⟨hs,hh,rfl⟩ := hhour
  obtain ⟨rfl,rfl⟩ := hcolon
  obtain ⟨mins,hmin,rfl⟩ := hminute
  obtain ⟨rfl,rfl⟩ := hcolon'
  obtain ⟨ss,hsec,rfl⟩ := hsecond
  obtain ⟨fs,hf,rfl⟩ := is_fraction_of_take_fraction hfraction
  have h := IsDateTime.parts (t := ⟨year, month, day, hour, minute, second, fraction, offset⟩)
    (.parts hy hm hd) hsep (.parts hh hmin hsec hf) (read_offset_eq_some_iff.mp hoffset)
  rw [htext]
  exact ⟨by simpa only [List.append_assoc, List.cons_append] using h,(is_real_iff _).mp hreal⟩

theorem read?_of_is_date_time {text : String} {t : Timestamp}
    (h : IsDateTime ['-', minusSign] t text.toList) (ht : t.Exists) : read? text = some t := by
  unfold read?
  generalize text.toList = cs at h ⊢
  have hdash : '-' ∈ ['-'] := List.mem_singleton_self _
  have hcolon : ':' ∈ [':'] := List.mem_singleton_self _
  cases h with
  | parts hd hsep hc ho =>
    have hend := ho.head (forall_marks (by decide))
    cases hd with
    | parts hy hm hday =>
      cases hc with
      | parts hh hmin hsec hf =>
        rw [List.append_assoc, List.cons_append, List.append_assoc, List.cons_append,
          List.append_assoc, List.cons_append, List.append_assoc, List.cons_append,
          List.append_assoc]
        refine Option.bind_eq_some_iff.mpr ⟨_,take_number_append hy,?_⟩
        refine Option.bind_eq_some_iff.mpr ⟨_,take_one_of_cons hdash,?_⟩
        refine Option.bind_eq_some_iff.mpr ⟨_,take_number_append hm,?_⟩
        refine Option.bind_eq_some_iff.mpr ⟨_,take_one_of_cons hdash,?_⟩
        refine Option.bind_eq_some_iff.mpr ⟨_,take_number_append hday,?_⟩
        refine Option.bind_eq_some_iff.mpr ⟨_,take_one_of_cons hsep,?_⟩
        refine Option.bind_eq_some_iff.mpr ⟨_,take_number_append hh,?_⟩
        refine Option.bind_eq_some_iff.mpr ⟨_,take_one_of_cons hcolon,?_⟩
        refine Option.bind_eq_some_iff.mpr ⟨_,take_number_append hmin,?_⟩
        refine Option.bind_eq_some_iff.mpr ⟨_,take_one_of_cons hcolon,?_⟩
        refine Option.bind_eq_some_iff.mpr ⟨_,take_number_append hsec,?_⟩
        refine Option.bind_eq_some_iff.mpr ⟨_,take_fraction_of_is_fraction hf hend,?_⟩
        refine Option.bind_eq_some_iff.mpr ⟨_,read_offset_eq_some_iff.mpr ho,?_⟩
        exact if_pos ((is_real_iff t).mpr ht)

/-- The reader takes the date-times of the grammar whose date and time exist. -/
theorem read?_eq_some_iff (text : String) (t : Timestamp) :
    read? text = some t ↔ IsDateTime ['-', minusSign] t text.toList ∧ t.Exists :=
  ⟨is_date_time_of_read?,fun h => read?_of_is_date_time h.1 h.2⟩

end Reader

section Standard

variable {minus cs : List Char}

/-- A date-time of the standard, whose date and time exist in the year one or later. -/
def IsRfc3339 (text : String) : Prop :=
  ∃ t, IsDateTime ['-'] t text.toList ∧ t.Exists ∧ 1 ≤ t.year

theorem IsOffset.exists_concat {offset : Int} (h : IsOffset minus offset cs) :
    ∃ ds c, cs = ds ++ [c] ∧ isBlank c = false := by
  cases h with
  | @utc c hc =>
    have hletters : ∀ c ∈ ['Z', 'z'], isBlank c = false := forall_marks (by decide)
    exact ⟨[],c,rfl,hletters c hc⟩
  | @east _ _ hs _ _ hm _ _ =>
    obtain ⟨ds,c,rfl,hc⟩ := hm.exists_concat
    exact ⟨'+' :: (hs ++ ':' :: ds),c,by simp,is_blank_of_is_digit hc⟩
  | @west sign _ _ hs _ _ _ hm _ _ =>
    obtain ⟨ds,c,rfl,hc⟩ := hm.exists_concat
    exact ⟨sign :: (hs ++ ':' :: ds),c,by simp,is_blank_of_is_digit hc⟩

/-- A date-time begins with a digit, and ends with one or with a letter. -/
theorem IsDateTime.trim_chars_eq {t : Timestamp} (h : IsDateTime minus t cs) :
    trimChars cs = cs := by
  cases h with
  | @parts date clock _ sep hd hsep hc ho =>
    obtain ⟨ds,last,rfl,hlast⟩ := ho.exists_concat
    apply trim_chars_of_ends
    · cases hd with
      | parts hy hm hday =>
        obtain ⟨first,ys,rfl,hfirst⟩ := hy.exists_cons
        intro c hc
        cases hc
        exact is_blank_of_is_digit hfirst
    · intro c hc
      have hend : date ++ sep :: (clock ++ (ds ++ [last])) =
          (date ++ sep :: (clock ++ ds)) ++ [last] := by simp
      rw [hend, List.getLast?_concat] at hc
      cases hc
      exact hlast

theorem not_mem_of_digits (h : ∀ c ∈ cs, IsDigit c) : minusSign ∉ cs :=
  fun hm => absurd (h minusSign hm) (by decide)

theorem IsDate.not_mem {year month day : Nat} (h : IsDate year month day cs) :
    minusSign ∉ cs := by
  have hmark : minusSign ≠ '-' := by decide
  cases h with
  | parts hy hm hd =>
    simp [hmark, not_mem_of_digits hy.digits, not_mem_of_digits hm.digits,
      not_mem_of_digits hd.digits]

theorem IsFraction.not_mem {fraction : List Char} (h : IsFraction fraction cs) :
    minusSign ∉ cs := by
  have hmark : minusSign ≠ '.' := by decide
  cases h with
  | absent => exact List.not_mem_nil
  | digits h => simp [hmark, not_mem_of_digits h.digits]

theorem IsClock.not_mem {hour minute second : Nat} {fraction : List Char}
    (h : IsClock hour minute second fraction cs) : minusSign ∉ cs := by
  have hmark : minusSign ≠ ':' := by decide
  cases h with
  | parts hh hm hsec hf =>
    simp [hmark, not_mem_of_digits hh.digits, not_mem_of_digits hm.digits,
      not_mem_of_digits hsec.digits, hf.not_mem]

theorem is_offset_hyphen_iff {offset : Int} :
    IsOffset ['-'] offset cs ↔ IsOffset ['-', minusSign] offset cs ∧ minusSign ∉ cs := by
  have hmarks : ∀ c ∈ ['Z', 'z', '+', '-', ':'], minusSign ≠ c := forall_marks (by decide)
  constructor
  · intro h
    cases h with
    | @utc c hc =>
      have hne : minusSign ≠ c := hmarks c (List.mem_append_left _ hc)
      exact ⟨.utc hc,by simpa using hne⟩
    | east hh hm hhour hminute =>
      refine ⟨.east hh hm hhour hminute,?_⟩
      simp [hmarks, not_mem_of_digits hh.digits, not_mem_of_digits hm.digits]
    | west hsign hh hm hhour hminute =>
      rw [List.mem_singleton] at hsign
      subst hsign
      refine ⟨.west List.mem_cons_self hh hm hhour hminute,?_⟩
      simp [hmarks, not_mem_of_digits hh.digits, not_mem_of_digits hm.digits]
  · rintro ⟨h,hnot⟩
    cases h with
    | utc hc => exact .utc hc
    | east hh hm hhour hminute => exact .east hh hm hhour hminute
    | @west sign _ _ _ _ hsign hh hm hhour hminute =>
      have hne : sign ≠ minusSign := fun heq => hnot (heq ▸ List.mem_cons_self)
      refine .west ?_ hh hm hhour hminute
      simpa [hne] using hsign

/-- What the reader takes beyond the standard is the minus sign proper. -/
theorem is_date_time_hyphen_iff {t : Timestamp} :
    IsDateTime ['-'] t cs ↔ IsDateTime ['-', minusSign] t cs ∧ minusSign ∉ cs := by
  have hseps : ∀ c ∈ ['T', 't', ' '], minusSign ≠ c := forall_marks (by decide)
  constructor
  · rintro (⟨hd,hsep,hc,ho⟩)
    obtain ⟨ho',hnot⟩ := is_offset_hyphen_iff.mp ho
    refine ⟨.parts hd hsep hc ho',?_⟩
    simp [hd.not_mem, hseps _ hsep, hc.not_mem, hnot]
  · rintro ⟨⟨hd,hsep,hc,ho⟩,hnot⟩
    simp only [List.mem_append, List.mem_cons, not_or] at hnot
    exact .parts hd hsep hc (is_offset_hyphen_iff.mpr ⟨ho,hnot.2.2.2⟩)

theorem accepted_iff (text : String) : Accepted text ↔
    ∃ t, IsDateTime ['-', minusSign] t (trim text).toList ∧ t.Exists ∧ 1 ≤ t.year := by
  simp only [Accepted, read?_eq_some_iff, and_assoc]

/-- A text that validation accepts is a date-time of the standard unless there is something to trim
or it has the minus sign proper. -/
theorem is_rfc3339_iff_of_accepted {text : String} (h : Accepted text) :
    IsRfc3339 text ↔ trim text = text ∧ minusSign ∉ text.toList := by
  constructor
  · rintro ⟨t,ht,_⟩
    have htrim : trim text = text := by rw [trim, ht.trim_chars_eq, String.ofList_toList]
    exact ⟨htrim,(is_date_time_hyphen_iff.mp ht).2⟩
  · rintro ⟨htrim,hnot⟩
    obtain ⟨t,ht,hexists,hyear⟩ := (accepted_iff text).mp h
    rw [htrim] at ht
    exact ⟨t,is_date_time_hyphen_iff.mpr ⟨ht,hnot⟩,hexists,hyear⟩

theorem IsRfc3339.accepted {text : String} (h : IsRfc3339 text) : Accepted text := by
  obtain ⟨t,ht,hexists,hyear⟩ := h
  refine (accepted_iff text).mpr ⟨t,?_,hexists,hyear⟩
  rw [to_list_trim, ht.trim_chars_eq]
  exact (is_date_time_hyphen_iff.mp ht).1

end Standard

end Timestamp

end ComplianceIntake.Event
