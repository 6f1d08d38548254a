import ComplianceIntake.Proofs.Configuration.Lines
import ComplianceIntake.Proofs.Configuration.Settings
import ComplianceIntake.Proofs.Text.Octets

/-!
# Files of assignments

A file with a line for each assignment, the values in quotes of either kind, is read
as these assignments, whatever blanks, comments and line ends stand in it. Quotes are
found by octets and cut off by octets, and each cut falls between two characters. The
file that the environment names is read before anything else, and the environment
stands over what the file assigns.
-/

set_option autoImplicit false

namespace ComplianceIntake.Configuration

open ComplianceIntake.Text

structure Padding (cs : List Char) : Prop where
  blanks : Blanks cs
  oneLine : '\n' ∉ cs

/-- An assignment that a line can hold once the value stands in quotes. -/
structure Assignable (key value : String) : Prop where
  keyGiven : key ≠ ""
  keyTrimmed : trim key = key
  keyNoComment : key.toList.head? ≠ some '#'
  keyDivided : '=' ∉ key.toList
  keyOneLine : '\n' ∉ key.toList
  valueOneLine : '\n' ∉ value.toList

def quotes : List Char := ['"', '\x27']

def quoted (quote : Char) (value : String) : List Char := quote :: (value.toList ++ [quote])

/-- A line with what it assigns: nothing, or one value to one key. -/
inductive WrittenLine : Assignments → List Char → Prop
  | blank {line : List Char} (h : Padding line) : WrittenLine [] line
  | comment {before text : List Char} (hbefore : Padding before) (htext : '\n' ∉ text) :
      WrittenLine [] (before ++ '#' :: text)
  | assignment {key value : String} {quote : Char}
      {before afterKey beforeValue after : List Char} (h : Assignable key value)
      (hquote : quote ∈ quotes) (hbefore : Padding before) (hafterKey : Padding afterKey)
      (hbeforeValue : Padding beforeValue) (hafter : Padding after) :
      WrittenLine [(key, value)] (before ++
        (key.toList ++ afterKey ++ '=' :: (beforeValue ++ quoted quote value)) ++ after)

inductive Written : Assignments → List Char → Prop
  | last {entries : Assignments} {line : List Char} (h : WrittenLine entries line) :
      Written entries line
  | more {entries others : Assignments} {line ending text : List Char}
      (h : WrittenLine entries line) (hending : ending ∈ [['\n'], ['\r', '\n']])
      (htext : Written others text) : Written (entries ++ others) (line ++ ending ++ text)

def LastAssigns (kv : Assignments) (key value : String) : Prop :=
  ∃ front back, kv = front ++ (key, value) :: back ∧ ∀ e ∈ back, e.1 ≠ key

/-- The first faulty line of the text, counted from one. -/
def FirstFaulty (text : String) (number : Nat) (line : List Char) : Prop :=
  ∃ before after, text.toList.splitOn '\n' = before ++ line :: after ∧
    (∀ l ∈ before, ¬ Faulty l) ∧ Faulty line ∧ number = before.length + 1

def InQuotes (os : List UInt8) : Prop :=
  2 ≤ os.length ∧ ∃ q ∈ [0x22, 0x27], os.head? = some q ∧ os.getLast? = some q

/-- Taking the first and the last octet away from a quoted text cuts between characters, and is
what is done. Any other text is left as it is. -/
structure CutsQuotes (s : String) : Prop where
  first : InQuotes (octets s) → (⟨1⟩ : String.Pos.Raw).IsValid s
  last : InQuotes (octets s) → (⟨(octets s).length - 1⟩ : String.Pos.Raw).IsValid s
  between : InQuotes (octets s) → octets (String.ofList (unquote s.toList)) =
    ((octets s).take ((octets s).length - 1)).drop 1
  bare : ¬ InQuotes (octets s) → unquote s.toList = s.toList

/-- Each key with its value in the environment, or else with that in the file. -/
def Overlays (env file merged : Assignments) : Prop :=
  ∀ key, merged.value? key = (env.value? key).or (file.value? key)

theorem Assignments.value?_eq_some_iff (kv : Assignments) (key value : String) :
    kv.value? key = some value ↔ LastAssigns kv key value := by
  simp only [Assignments.value?, Option.map_eq_some_iff, List.find?_eq_some_iff_append,
    decide_eq_true_eq, Bool.not_eq_true', decide_eq_false_iff_not]
  constructor
  · rintro ⟨e,⟨rfl,back,front,hkv,hback⟩,rfl⟩
    refine ⟨front.reverse,back.reverse,?_,fun e he => hback e (List.mem_reverse.mp he)⟩
    rw [← List.reverse_reverse kv, hkv]
    simp
  · rintro ⟨front,back,rfl,hback⟩
    refine ⟨(key,value),⟨rfl,back.reverse,front.reverse,by simp,?_⟩,rfl⟩
    exact fun e he => hback e (List.mem_reverse.mp he)

section Quotes

variable {q : Char} {cs : List Char}

theorem mem_quotes_iff : q ∈ quotes ↔ isQuote q = true := by
  simp [quotes, isQuote]

theorem forall_quotes {P : Char → Prop} (hdouble : P '"') (hsingle : P '\x27') :
    ∀ q ∈ quotes, P q := by
  simp [quotes, hdouble, hsingle]

theorem is_blank_of_quote (h : q ∈ quotes) : isBlank q = false :=
  forall_quotes (P := fun q => isBlank q = false) (by decide) (by decide) q h

theorem unquote_quoted (h : q ∈ quotes) (value : String) :
    unquote (quoted q value) = value.toList := by
  rw [quoted, unquote, mem_quotes_iff.mp h, List.getLast?_concat, List.dropLast_concat]
  simp

theorem get_last?_append_quoted (value : String) :
    (cs ++ quoted q value).getLast? = some q := by
  rw [quoted, ← List.cons_append, ← List.append_assoc, List.getLast?_concat]

variable {s : String}

theorem ascii_of_quote (h : q ∈ quotes) : q.toNat < 0x80 :=
  forall_quotes (P := fun q => q.toNat < 0x80) (by decide) (by decide) q h

theorem mem_quote_octets_iff (o : UInt8) :
    o ∈ [0x22, 0x27] ↔ ∃ q ∈ quotes, UInt8.ofNat q.toNat = o := by
  have hoctets : [0x22, 0x27] = quotes.map fun q => UInt8.ofNat q.toNat := rfl
  rw [hoctets, List.mem_map]

theorem octets_singleton (h : q ∈ quotes) :
    octets (String.ofList [q]) = [UInt8.ofNat q.toNat] := by
  rw [octets_eq_flat_map, String.toList_ofList, List.flatMap_singleton,
    utf8_encode_char_ascii (ascii_of_quote h)]

theorem eq_of_quoted {value : String} (hs : s.toList = quoted q value) :
    s = String.ofList [q] ++ value ++ String.ofList [q] := by
  rw [← String.toList_inj, hs, quoted]
  simp

theorem octets_of_quoted (h : q ∈ quotes) {value : String} (hs : s.toList = quoted q value) :
    octets s = UInt8.ofNat q.toNat :: (octets value ++ [UInt8.ofNat q.toNat]) := by
  rw [eq_of_quoted hs, octets_append, octets_append, octets_singleton h]
  rfl

theorem in_quotes_octets_iff (s : String) : InQuotes (octets s) ↔
    ∃ q ∈ quotes, ∃ value, s.toList = quoted q value := by
  constructor
  · rintro ⟨hlength,o,ho,hfirst,hlast⟩
    obtain ⟨q,hq,rfl⟩ := (mem_quote_octets_iff o).mp ho
    rw [head?_octets_iff (ascii_of_quote hq)] at hfirst
    rw [get_last?_octets_iff (ascii_of_quote hq)] at hlast
    obtain ⟨rest,hs⟩ := List.head?_eq_some_iff.mp hfirst
    rcases List.eq_nil_or_concat rest with rfl | ⟨cs,d,rfl⟩
    · -- A quote alone is one octet, and a pair is two.
      rw [← String.ofList_toList (s := s), hs, octets_singleton hq] at hlength
      contradiction
    · rw [hs, List.concat_eq_append, ← List.cons_append, List.getLast?_concat] at hlast
      obtain rfl := Option.some.inj hlast
      exact ⟨d,hq,String.ofList cs,by rw [hs, quoted, String.toList_ofList, List.concat_eq_append]⟩
  · rintro ⟨q,hq,value,hs⟩
    rw [octets_of_quoted hq hs]
    refine ⟨by simp,_,(mem_quote_octets_iff _).mpr ⟨q,hq,rfl⟩,rfl,?_⟩
    rw [← List.cons_append, List.getLast?_concat]

theorem unquote_of_bare (h : ¬ InQuotes (octets s)) : unquote s.toList = s.toList := by
  rw [in_quotes_octets_iff] at h
  cases hs : s.toList with
  | nil => rfl
  | cons q rest =>
    rw [unquote, if_neg]
    intro hquote
    simp only [Bool.and_eq_true, decide_eq_true_eq] at hquote
    obtain ⟨cs,rfl⟩ := List.getLast?_eq_some_iff.mp hquote.2
    have hquoted : s.toList = quoted q (String.ofList cs) := by
      rw [hs, quoted, String.toList_ofList]
    exact h ⟨q,mem_quotes_iff.mpr hquote.1,String.ofList cs,hquoted⟩

theorem cuts_quotes (s : String) : CutsQuotes s where
  first h := by
    obtain ⟨q,hq,value,hs⟩ := (in_quotes_octets_iff s).mp h
    refine String.Pos.Raw.isValid_iff_exists_append.mpr
      ⟨String.ofList [q],value ++ String.ofList [q],?_,congrArg String.Pos.Raw.mk ?_⟩
    · rw [eq_of_quoted hs, String.append_assoc]
    · rw [← length_octets, octets_singleton hq]
      rfl
  last h := by
    obtain ⟨q,hq,value,hs⟩ := (in_quotes_octets_iff s).mp h
    refine String.Pos.Raw.isValid_iff_exists_append.mpr
      ⟨String.ofList [q] ++ value,String.ofList [q],eq_of_quoted hs,congrArg String.Pos.Raw.mk ?_⟩
    rw [← length_octets, octets_of_quoted hq hs, octets_append, octets_singleton hq]
    simp
  between h := by
    obtain ⟨q,hq,value,hs⟩ := (in_quotes_octets_iff s).mp h
    rw [hs, unquote_quoted hq, String.ofList_toList, octets_of_quoted hq hs]
    simp
  bare := unquote_of_bare

end Quotes

section Lines

variable {key value : String} {entries : Assignments} {line cs ds : List Char}

theorem padding_nil : Padding [] := ⟨by simp [Blanks],List.not_mem_nil⟩

theorem Padding.append (h : Padding cs) (h' : Padding ds) : Padding (cs ++ ds) :=
  ⟨List.forall_mem_append.mpr ⟨h.blanks,h'.blanks⟩,
    fun hm => (List.mem_append.mp hm).elim h.oneLine h'.oneLine⟩

theorem padding_return : Padding ['\r'] := ⟨by decide,by decide⟩

theorem Padding.not_mem {c : Char} (h : Padding cs) (hc : isBlank c = false) : c ∉ cs :=
  fun hm => (is_blank_eq_false_iff c).mp hc (h.blanks c hm)

theorem trim_chars_of_padding {before after : List Char} (hbefore : Padding before)
    (hafter : Padding after) (hfirst : ∀ c, cs.head? = some c → isBlank c = false)
    (hlast : ∀ c, cs.getLast? = some c → isBlank c = false) :
    trimChars (before ++ cs ++ after) = cs := by
  have hblanks : Blanks (before ++ after) := (hbefore.append hafter).blanks
  rw [trim_chars_of_blank_around ((blanks_iff _).mp hblanks), trim_chars_of_ends hfirst hlast]

namespace Assignable

theorem trim_chars_eq (h : Assignable key value) : trimChars key.toList = key.toList := by
  rw [← to_list_trim, h.keyTrimmed]

theorem exists_cons (h : Assignable key value) :
    ∃ c rest, key.toList = c :: rest ∧ isBlank c = false ∧ c ≠ '#' := by
  cases hkey : key.toList with
  | nil => exact absurd (String.toList_eq_nil_iff.mp hkey) h.keyGiven
  | cons c rest =>
    refine ⟨c,rest,rfl,?_,?_⟩
    · apply trim_chars_head? key.toList
      rw [h.trim_chars_eq, hkey]
      rfl
    · rintro rfl
      exact h.keyNoComment (by rw [hkey]; rfl)

theorem trim_chars_append (h : Assignable key value) {after : List Char}
    (hafter : Padding after) : trimChars (key.toList ++ after) = key.toList := by
  rw [trim_chars_of_blank_after ((blanks_iff after).mp hafter.blanks), h.trim_chars_eq]

end Assignable

theorem trim_chars_append_quoted {q : Char} (hq : q ∈ quotes) {before : List Char}
    (hbefore : Padding before) : trimChars (before ++ quoted q value) = quoted q value := by
  rw [trim_chars_of_blank_before ((blanks_iff before).mp hbefore.blanks)]
  refine trim_chars_of_ends ?_ ?_
  · intro c hc
    exact Option.some.inj hc ▸ is_blank_of_quote hq
  · intro c hc
    rw [← List.nil_append (quoted q value), get_last?_append_quoted] at hc
    exact Option.some.inj hc ▸ is_blank_of_quote hq

theorem read_line_of_assignment {q : Char} {before afterKey beforeValue after : List Char}
    (h : Assignable key value) (hq : q ∈ quotes) (hbefore : Padding before)
    (hafterKey : Padding afterKey) (hbeforeValue : Padding beforeValue) (hafter : Padding after) :
    readLine (before ++ (key.toList ++ afterKey ++ '=' :: (beforeValue ++ quoted q value)) ++
      after) = .assignment key value := by
  obtain ⟨c,rest,hkey,hc,hhash⟩ := h.exists_cons
  generalize hline : before ++
    (key.toList ++ afterKey ++ '=' :: (beforeValue ++ quoted q value)) ++ after = line
  have htrim : trimChars line =
      key.toList ++ afterKey ++ '=' :: (beforeValue ++ quoted q value) := by
    rw [← hline]
    refine trim_chars_of_padding hbefore hafter ?_ ?_
    · intro d hd
      rw [hkey] at hd
      exact Option.some.inj hd ▸ hc
    · intro d hd
      rw [← List.cons_append, ← List.append_assoc, get_last?_append_quoted] at hd
      exact Option.some.inj hd ▸ is_blank_of_quote hq
  have hhead : (trimChars line).head? = some c := by
    rw [htrim, hkey]
    rfl
  have hblank : ¬ Blanks line := by
    rw [← trim_chars_eq_nil_iff_blanks]
    intro hnil
    rw [hnil] at hhead
    contradiction
  have hcomment : ¬ Leads '#' line := by
    rw [← head?_trim_chars_iff_leads (by decide), hhead]
    exact fun heq => hhash (Option.some.inj heq)
  have hfront : '=' ∉ key.toList ++ afterKey :=
    fun hm => (List.mem_append.mp hm).elim h.keyDivided (hafterKey.not_mem (by decide))
  rw [read_line_of_divided hblank hcomment htrim hfront, assignmentOf,
    h.trim_chars_append hafterKey, trim_chars_append_quoted hq hbeforeValue, unquote_quoted hq,
    String.ofList_toList, String.ofList_toList, if_neg (by simp [hkey])]

namespace WrittenLine

theorem read_lines_cons (h : WrittenLine entries line) (number : Nat) (lines : List (List Char)) :
    readLines number (line :: lines) = (readLines (number + 1) lines).map (entries ++ ·) := by
  have hnothing : ∀ x : Except Fault Assignments, x = x.map ([] ++ ·) := by
    intro x
    cases x <;> rfl
  cases h with
  | blank h =>
    rw [readLines, read_line_of_passed (.inl h.blanks)]
    exact hnothing _
  | comment hbefore _ =>
    rw [readLines, read_line_of_passed (.inr ⟨_,_,rfl,hbefore.blanks⟩)]
    exact hnothing _
  | assignment h hquote hbefore hafterKey hbeforeValue hafter =>
    rw [readLines, read_line_of_assignment h hquote hbefore hafterKey hbeforeValue hafter]
    rfl

theorem one_line (h : WrittenLine entries line) : '\n' ∉ line := by
  cases h with
  | blank h => exact h.oneLine
  | comment hbefore htext => simp [hbefore.oneLine, htext]
  | @assignment _ _ q _ _ _ _ h hq hbefore hafterKey hbeforeValue hafter =>
    have hne : q ≠ '\n' := ne_of_mem_of_not_mem hq (by decide)
    simp [quoted, hne.symm, h.keyOneLine, h.valueOneLine, hbefore.oneLine, hafterKey.oneLine,
      hbeforeValue.oneLine, hafter.oneLine]

theorem append_return (h : WrittenLine entries line) : WrittenLine entries (line ++ ['\r']) := by
  cases h with
  | blank h => exact .blank (h.append padding_return)
  | comment hbefore htext =>
    rw [List.append_assoc, List.cons_append]
    exact .comment hbefore (by simpa using htext)
  | assignment h hquote hbefore hafterKey hbeforeValue hafter =>
    rw [List.append_assoc]
    exact .assignment h hquote hbefore hafterKey hbeforeValue (hafter.append padding_return)

end WrittenLine

end Lines

theorem Written.read_lines_split_on {entries : Assignments} {text : List Char}
    (h : Written entries text) (number : Nat) :
    readLines number (text.splitOn '\n') = .ok entries := by
  induction h generalizing number with
  | last h =>
    rw [List.splitOn_eq_singleton h.one_line, h.read_lines_cons, readLines]
    exact congrArg Except.ok (List.append_nil _)
  | @more entries others line ending text h hending _ ih =>
    obtain ⟨line',hline',htext⟩ : ∃ line', WrittenLine entries line' ∧
        line ++ ending ++ text = line' ++ '\n' :: text := by
      simp only [List.mem_cons, List.not_mem_nil, or_false] at hending
      rcases hending with rfl | rfl
      · exact ⟨line,h,by simp⟩
      · exact ⟨line ++ ['\r'],h.append_return,by simp⟩
    rw [htext, List.splitOn_append_cons_self_of_not_mem hline'.one_line, hline'.read_lines_cons, ih]
    rfl

theorem Written.read_file_eq {entries : Assignments} {text : String}
    (h : Written entries text.toList) : readFile text = .ok entries := by
  rw [readFile, split_lines_eq_split_on, h.read_lines_split_on]

theorem first_faulty_of_read_file {text : String} {f : Fault} (h : readFile text = .error f) :
    ∃ number line, FirstFaulty text number line ∧ f.code = "ERR_CONFIG_FILE_PARSE" ∧
      f.message = "invalid config line " ++ toString number ++
        if '=' ∈ line then " (empty key)" else " (expected KEY=VALUE)" := by
  obtain ⟨before,line,after,hlines,hbefore,hfaulty,rfl⟩ := (read_file_eq_error_iff text f).mp h
  refine ⟨before.length + 1,line,⟨before,after,hlines,hbefore,hfaulty,rfl⟩,?_⟩
  rw [faultOf]
  split_ifs <;> exact ⟨rfl,rfl⟩

theorem exists_read_file_error_iff (text : String) :
    (∃ f, readFile text = .error f) ↔ ∃ line ∈ text.toList.splitOn '\n', Faulty line := by
  rw [readFile, split_lines_eq_split_on, exists_read_lines_error_iff]

section Loading

variable {env file merged : Assignments} {files : String → Option String} {path text : String}

theorem overlays_append (env file : Assignments) : Overlays env file (file ++ env) :=
  fun key => Assignments.value?_append file env key

theorem Overlays.of_assignments_eq (h : Overlays env file merged) :
    Settings.ofAssignments (file ++ env) = Settings.ofAssignments merged := by
  refine of_assignments_congr fun key _ => ?_
  rw [given?, given?, h, overlays_append]

theorem load_eq_of_named (hpath : env.value? Key.configPath.name = some path)
    (hblank : ¬ Blank path) (htext : files (trim path) = some text) :
    Settings.load env files =
      readFile text >>= fun file => Settings.ofAssignments (file ++ env) := by
  have hgiven : given? env .configPath = some (trim path) :=
    given?_eq_some_iff.mpr ⟨path,hpath,hblank,trims_trim path⟩
  rw [Settings.load, fileAssignments, hgiven]
  simp only [htext]

end Loading

/-- What a file is read as, where reading fails, how quotes are cut off and what is loaded. -/
theorem files_decided :
    (∀ entries text, Written entries text.toList → ∃ kv, readFile text = .ok kv ∧
      ∀ key value, kv.value? key = some value ↔ LastAssigns entries key value) ∧
    (∀ text, (∃ f, readFile text = .error f) ↔
      ∃ line ∈ text.toList.splitOn '\n', Faulty line) ∧
    (∀ text f, readFile text = .error f → ∃ number line, FirstFaulty text number line ∧
      f.code = "ERR_CONFIG_FILE_PARSE" ∧ f.message = "invalid config line " ++ toString number ++
        if '=' ∈ line then " (empty key)" else " (expected KEY=VALUE)") ∧
    (∀ s, CutsQuotes s) ∧
    ∀ (env : Assignments) (files : String → Option String) (path text : String),
      env.value? Key.configPath.name = some path → ¬ Blank path →
      files (trim path) = some text →
        (∀ f, readFile text = .error f → Settings.load env files = .error f) ∧
        ∀ file, readFile text = .ok file → (∃ merged, Overlays env file merged) ∧
          ∀ merged, Overlays env file merged →
            Settings.load env files = Settings.ofAssignments merged := by
  refine ⟨?_,exists_read_file_error_iff,fun _ _ h => first_faulty_of_read_file h,cuts_quotes,?_⟩
  · intro entries text h
    exact ⟨entries,h.read_file_eq,entries.value?_eq_some_iff⟩
  · intro env files path text hpath hblank htext
    rw [load_eq_of_named hpath hblank htext]
    refine ⟨fun f hf => by rw [hf]; rfl,fun file hfile => ⟨⟨_,overlays_append env file⟩,?_⟩⟩
    intro merged h
    rw [hfile, ← h.of_assignments_eq]
    rfl

def twiceGiven : String :=
  "# store\r\nCOMPLIANCE_DB_URL = \"a=b\" \r\n\nCOMPLIANCE_DB_URL='c\" '"

def withoutName : String := "COMPLIANCE_DB_URL=a\n =b"

def twoFiles (path : String) : Option String :=
  if path = "one" then some twiceGiven else if path = "two" then some withoutName else none

theorem load_two_files :
    (∃ kv, readFile twiceGiven = .ok kv ∧ kv.value? "COMPLIANCE_DB_URL" = some "c\" ") ∧
      Settings.load [("COMPLIANCE_CONFIG_PATH", " one")] twoFiles =
        .ok ⟨⟨.v4 [127, 0, 0, 1], 8384⟩, "c\"", 8, true, 2000, 15000⟩ ∧
      Settings.load [("COMPLIANCE_CONFIG_PATH", "two")] twoFiles = .error (.lineWithoutKey 2) ∧
      ∃ number line, FirstFaulty withoutName number line := by
  obtain ⟨hread,_,hfault,_,hload⟩ := files_decided
  have hkey : ∀ value : String, '\n' ∉ value.toList → Assignable "COMPLIANCE_DB_URL" value :=
    fun value h => ⟨by decide,by rfl,by decide,by decide,by decide,h⟩
  have hspace : Padding [' '] := ⟨by decide,by decide⟩
  have hcomment : WrittenLine [] ([] ++ '#' :: " store".toList) :=
    .comment padding_nil (by decide)
  have hfirst := WrittenLine.assignment (hkey "a=b" (by decide)) (show '"' ∈ quotes by decide)
    padding_nil hspace hspace hspace
  have hsecond := WrittenLine.assignment (hkey "c\" " (by decide)) (show '\x27' ∈ quotes by decide)
    padding_nil padding_nil padding_nil padding_nil
  have hfeed : ['\n'] ∈ [['\n'], ['\r', '\n']] := by decide
  have hreturn : ['\r', '\n'] ∈ [['\n'], ['\r', '\n']] := by decide
  have hwritten := Written.more hcomment hreturn
    (.more hfirst hreturn (.more (.blank padding_nil) hfeed (.last hsecond)))
  obtain ⟨kv,hkv,hvalue⟩ := hread _ twiceGiven hwritten
  have hlast : kv.value? "COMPLIANCE_DB_URL" = some "c\" " :=
    (hvalue _ _).mpr ⟨[("COMPLIANCE_DB_URL", "a=b")],[],rfl,nofun⟩
  have hfaulty : readFile withoutName = .error (.lineWithoutKey 2) := by rfl
  obtain ⟨number,line,hline,_⟩ := hfault withoutName _ hfaulty
  refine ⟨⟨kv,hkv,hlast⟩,?_,?_,number,line,hline⟩
  · obtain ⟨_,hok⟩ := hload [("COMPLIANCE_CONFIG_PATH", " one")] twoFiles " one" twiceGiven
      rfl (by decide) rfl
    exact ((hok _ hwritten.read_file_eq).2 _ (overlays_append _ _)).trans (by rfl)
  · obtain ⟨herror,_⟩ := hload [("COMPLIANCE_CONFIG_PATH", "two")] twoFiles "two" withoutName
      rfl (by decide) rfl
    exact herror _ hfaulty

end ComplianceIntake.Configuration
