import ComplianceIntake.Configuration.Assignments
import ComplianceIntake.Proofs.Text.Trimming
import Mathlib.Data.List.Basic

/-!
# Faulty lines

A text falls into lines at its line feeds. A line that is blank or a comment is
passed over. Every other line has to have an equals sign and something but blanks
in front of the first one. Reading a file fails exactly where some line does not,
and the fault tells the number of the first such line.
-/

set_option autoImplicit false

namespace ComplianceIntake.Configuration

open ComplianceIntake.Text

def Blanks (cs : List Char) : Prop := ∀ c ∈ cs, IsWhiteSpace c

theorem blanks_iff (cs : List Char) : Blanks cs ↔ ∀ c ∈ cs, isBlank c = true :=
  forall₂_congr fun c _ => (is_blank_iff c).symm

instance (cs : List Char) : Decidable (Blanks cs) :=
  decidable_of_iff (cs.all isBlank = true) (List.all_eq_true.trans (blanks_iff cs).symm)

def Leads (c : Char) (line : List Char) : Prop :=
  ∃ before rest, line = before ++ c :: rest ∧ Blanks before

structure Faulty (line : List Char) : Prop where
  notBlank : ¬ Blanks line
  notComment : ¬ Leads '#' line
  lacks : '=' ∉ line ∨ Leads '=' line

def faultOf (number : Nat) (line : List Char) : Fault :=
  if '=' ∈ line then .lineWithoutKey number else .lineWithoutEquals number

section Lines

variable {c : Char} {line : List Char}

theorem split_lines_eq_split_on (cs : List Char) : splitLines cs = cs.splitOn '\n' := by
  induction cs with
  | nil => rfl
  | cons c cs ih =>
    have hstep : splitLines (c :: cs) = consLine c (splitLines cs) := rfl
    obtain ⟨line,lines,hlines⟩ := List.exists_cons_of_ne_nil (List.splitOn_ne_nil '\n' cs)
    rw [hstep, ih, List.splitOn_cons_eq_if_modifyHead, hlines]
    simp [consLine]

theorem trim_chars_eq_nil_iff_blanks : trimChars line = [] ↔ Blanks line := by
  rw [trim_chars_eq_nil_iff, blanks_iff]

theorem head?_trim_chars_iff_leads (hc : isBlank c = false) :
    (trimChars line).head? = some c ↔ Leads c line := by
  simp only [head?_trim_chars_iff hc, Leads, blanks_iff]

theorem Leads.mem (h : Leads c line) : c ∈ line := by
  obtain ⟨before,rest,rfl,_⟩ := h
  exact List.mem_append_right _ List.mem_cons_self

theorem mem_trim_chars_iff (hc : isBlank c = false) : c ∈ trimChars line ↔ c ∈ line := by
  have htrim := to_list_trim (String.ofList line)
  rw [String.toList_ofList] at htrim
  rw [← htrim]
  constructor
  · intro h
    simpa using mem_of_mem_trim h
  · exact fun h => mem_trim_of_not_blank hc (by simpa using h)

theorem read_line_of_passed (h : Blanks line ∨ Leads '#' line) : readLine line = .nothing := by
  rw [← trim_chars_eq_nil_iff_blanks, ← head?_trim_chars_iff_leads (by decide)] at h
  rw [readLine, if_pos (by simpa using h)]

theorem read_line_of_counted (hblank : ¬ Blanks line) (hcomment : ¬ Leads '#' line) :
    readLine line = assignmentOf ((trimChars line).takeWhile (· ≠ '='))
      ((trimChars line).dropWhile (· ≠ '=')) := by
  rw [← trim_chars_eq_nil_iff_blanks] at hblank
  rw [← head?_trim_chars_iff_leads (by decide)] at hcomment
  rw [readLine, if_neg (by simpa using ⟨hblank,hcomment⟩)]

theorem forall_ne_equals {cs : List Char} (h : '=' ∉ cs) : ∀ c ∈ cs, decide (c ≠ '=') = true :=
  fun _ hc => decide_eq_true (ne_of_mem_of_not_mem hc h)

theorem read_line_of_divided {front value : List Char} (hblank : ¬ Blanks line)
    (hcomment : ¬ Leads '#' line) (htrim : trimChars line = front ++ '=' :: value)
    (hfront : '=' ∉ front) : readLine line = assignmentOf front ('=' :: value) := by
  have hall := forall_ne_equals hfront
  rw [read_line_of_counted hblank hcomment, htrim, List.takeWhile_append_of_pos hall,
    List.dropWhile_append_of_pos hall]
  simp

theorem read_line_of_faulty (h : Faulty line) :
    readLine line = if '=' ∈ line then .withoutKey else .withoutEquals := by
  rcases h.lacks with hnone | hleads
  · have hall := forall_ne_equals (mt (mem_trim_chars_iff (by decide)).mp hnone)
    rw [read_line_of_counted h.notBlank h.notComment, if_neg hnone,
      List.dropWhile_eq_nil_iff.mpr hall]
    rfl
  · obtain ⟨value,htrim⟩ :=
      List.head?_eq_some_iff.mp ((head?_trim_chars_iff_leads (by decide)).mpr hleads)
    rw [read_line_of_divided h.notBlank h.notComment htrim List.not_mem_nil, if_pos hleads.mem]
    rfl

theorem read_line_of_not_faulty (h : ¬ Faulty line) :
    readLine line = .nothing ∨ ∃ key value, readLine line = .assignment key value := by
  by_cases hpassed : Blanks line ∨ Leads '#' line
  · exact .inl (read_line_of_passed hpassed)
  obtain ⟨hblank,hcomment⟩ := not_or.mp hpassed
  have hlacks : ¬ ('=' ∉ line ∨ Leads '=' line) := fun hl => h ⟨hblank,hcomment,hl⟩
  obtain ⟨hmem,hleads⟩ := not_or.mp hlacks
  rw [not_not, ← mem_trim_chars_iff (by decide)] at hmem
  rw [← head?_trim_chars_iff_leads (by decide)] at hleads
  obtain ⟨front,value,htrim,hfront⟩ := List.eq_append_cons_of_mem hmem
  have hkey : (trimChars front).isEmpty = false := by
    cases front with
    | nil => exact absurd (congrArg List.head? htrim) hleads
    | cons c front =>
      have hc : isBlank c = false := trim_chars_head? line c (by rw [htrim]; rfl)
      rw [List.isEmpty_eq_false_iff, ne_eq, trim_chars_eq_nil_iff]
      intro hall
      rw [hall c List.mem_cons_self] at hc
      contradiction
  rw [read_line_of_divided hblank hcomment htrim hfront, assignmentOf, hkey]
  exact .inr ⟨_,_,rfl⟩

end Lines

section Reading

variable {number : Nat} {line : List Char} {lines : List (List Char)} {f : Fault}

theorem read_lines_of_faulty (h : Faulty line) :
    readLines number (line :: lines) = .error (faultOf number line) := by
  rw [readLines, read_line_of_faulty h, faultOf]
  split_ifs <;> rfl

theorem read_lines_of_not_faulty (h : ¬ Faulty line) :
    readLines number (line :: lines) = .error f ↔ readLines (number + 1) lines = .error f := by
  rw [readLines]
  rcases read_line_of_not_faulty h with hline | ⟨key,value,hline⟩
  · rw [hline]
  · rw [hline]
    cases readLines (number + 1) lines <;> simp [Except.map]

/-- Reading stops at the first faulty line, and nowhere else. -/
theorem read_lines_eq_error_iff : readLines number lines = .error f ↔
    ∃ before line after, lines = before ++ line :: after ∧ (∀ l ∈ before, ¬ Faulty l) ∧
      Faulty line ∧ f = faultOf (number + before.length) line := by
  induction lines generalizing number with
  | nil => simp [readLines]
  | cons line lines ih =>
    by_cases h : Faulty line
    · rw [read_lines_of_faulty h]
      constructor
      · intro hf
        exact ⟨[],line,lines,rfl,by simp,h,(Except.error.inj hf).symm⟩
      · rintro ⟨before,line',after,hlines,hbefore,_,rfl⟩
        cases before with
        | nil =>
          obtain ⟨rfl,_⟩ := List.cons.inj hlines
          rfl
        | cons l before =>
          obtain ⟨rfl,_⟩ := List.cons.inj hlines
          exact absurd h (hbefore _ List.mem_cons_self)
    · rw [read_lines_of_not_faulty h, ih]
      constructor
      · rintro ⟨before,line',after,rfl,hbefore,hfaulty,rfl⟩
        refine ⟨line :: before,line',after,rfl,List.forall_mem_cons.mpr ⟨h,hbefore⟩,hfaulty,?_⟩
        rw [List.length_cons, Nat.add_right_comm, Nat.add_assoc]
      · rintro ⟨before,line',after,hlines,hbefore,hfaulty,rfl⟩
        cases before with
        | nil =>
          obtain ⟨rfl,_⟩ := List.cons.inj hlines
          exact absurd hfaulty h
        | cons l before =>
          obtain ⟨rfl,rfl⟩ := List.cons.inj hlines
          refine ⟨before,line',after,rfl,(List.forall_mem_cons.mp hbefore).2,hfaulty,?_⟩
          rw [List.length_cons, Nat.add_right_comm, Nat.add_assoc]

theorem exists_read_lines_error_iff :
    (∃ f, readLines number lines = .error f) ↔ ∃ line ∈ lines, Faulty line := by
  induction lines generalizing number with
  | nil => simp [readLines]
  | cons line lines ih =>
    rw [List.exists_mem_cons_iff]
    by_cases h : Faulty line
    · exact iff_of_true ⟨_,read_lines_of_faulty h⟩ (.inl h)
    · simp only [read_lines_of_not_faulty h, ih, h, false_or]

theorem read_file_eq_error_iff (text : String) (f : Fault) : readFile text = .error f ↔
    ∃ before line after, text.toList.splitOn '\n' = before ++ line :: after ∧
      (∀ l ∈ before, ¬ Faulty l) ∧ Faulty line ∧ f = faultOf (before.length + 1) line := by
  rw [readFile, split_lines_eq_split_on, read_lines_eq_error_iff]
  simp only [Nat.add_comm 1]

end Reading

end ComplianceIntake.Configuration
