import ComplianceIntake.Configuration.Load
import ComplianceIntake.Proofs.Event.Validity
import ComplianceIntake.Proofs.Network.Addresses
import ComplianceIntake.Proofs.Text.Trimming

/-!
# Settings and the texts that give them

What the text given for a key means, stated without the readers: a socket address,
a number within bounds or one of ten words for yes and no. A key that is absent or
has a blank value leaves the default, but the database's URL has none. Assignments
give settings exactly if every text means something; otherwise the first key in a
fixed order is at fault. Nothing else matters: other keys, blanks around a value and
blank values count for nothing.
-/

set_option autoImplicit false

namespace ComplianceIntake.Configuration

open ComplianceIntake.Event (bind_eq_ok_iff bind_eq_error_iff)
open ComplianceIntake.Json (IsDigits is_digits_iff)
open ComplianceIntake.Network
open ComplianceIntake.Number
open ComplianceIntake.Text

def Gives (kv : Assignments) (key : Key) (text : String) : Prop :=
  ∃ value, kv.value? key.name = some value ∧ ¬ Blank value ∧ Trims value text

def LeavesOut (kv : Assignments) (key : Key) : Prop :=
  ∀ value, kv.value? key.name = some value → Blank value

inductive Spells (n : Nat) : List Char → Prop
  | plain {ds : List Char} (h : IsDigits ds) (hvalue : ofDigits ds = n) : Spells n ds
  | plus {ds : List Char} (h : IsDigits ds) (hvalue : ofDigits ds = n) : Spells n ('+' :: ds)

def MeansAddress (text : String) (a : SocketAddress) : Prop := IsSocketAddress a text.toList

def MeansNumber (least greatest : Nat) (text : String) (n : Nat) : Prop :=
  Spells n text.toList ∧ least ≤ n ∧ n ≤ greatest

def flagWords : List (String × Bool) :=
  [("1", true), ("true", true), ("TRUE", true), ("yes", true), ("YES", true), ("0", false),
    ("false", false), ("FALSE", false), ("no", false), ("NO", false)]

def MeansFlag (text : String) (b : Bool) : Prop := (text, b) ∈ flagWords

section Keys

variable {α : Type} (kv : Assignments) (key : Key)

/-- The default where the key is left out, and otherwise what its text means. -/
inductive Sets (default : α) (Means : String → α → Prop) : α → Prop
  | default (h : LeavesOut kv key) : Sets default Means default
  | given {text : String} {a : α} (h : Gives kv key text) (hmeans : Means text a) :
      Sets default Means a

def Allows (Means : String → α → Prop) : Prop := ∀ text, Gives kv key text → ∃ a, Means text a

end Keys

structure Acceptable (kv : Assignments) : Prop where
  bindAddress : Allows kv .bindAddress MeansAddress
  databaseUrl : ∃ text, Gives kv .databaseUrl text
  maxConnections : Allows kv .maxConnections (MeansNumber 1 (2 ^ 32 - 1))
  migrate : Allows kv .migrate MeansFlag
  storeTimeout : Allows kv .storeTimeout (MeansNumber 1 (2 ^ 64 - 1))
  shutdownTimeout : Allows kv .shutdownTimeout (MeansNumber 0 (2 ^ 64 - 1))

structure Describes (kv : Assignments) (s : Settings) : Prop where
  bindAddress : Sets kv .bindAddress ⟨.v4 [127, 0, 0, 1], 8384⟩ MeansAddress s.bindAddress
  databaseUrl : Gives kv .databaseUrl s.databaseUrl
  maxConnections : Sets kv .maxConnections 8 (MeansNumber 1 (2 ^ 32 - 1)) s.maxConnections
  migrate : Sets kv .migrate true MeansFlag s.migrate
  storeTimeoutMs : Sets kv .storeTimeout 2000 (MeansNumber 1 (2 ^ 64 - 1)) s.storeTimeoutMs
  shutdownTimeoutMs :
    Sets kv .shutdownTimeout 15000 (MeansNumber 0 (2 ^ 64 - 1)) s.shutdownTimeoutMs

def OffendsNumber (kv : Assignments) (key : Key) (least greatest : Nat) (f : Fault) : Prop :=
  f = .notInteger key ∧ ¬ Allows kv key (MeansNumber 0 greatest) ∨
    f = .belowOne key ∧ Allows kv key (MeansNumber 0 greatest) ∧
      ¬ Allows kv key (MeansNumber least greatest)

/-- What is wrong with a key, whatever is wrong with others. -/
def Offends (kv : Assignments) (key : Key) (f : Fault) : Prop :=
  match key with
  | .configPath => False
  | .bindAddress => f = .notAddress key ∧ ¬ Allows kv key MeansAddress
  | .databaseUrl => f = .missing key ∧ LeavesOut kv key
  | .maxConnections => OffendsNumber kv key 1 (2 ^ 32 - 1) f
  | .migrate => f = .notBoolean key ∧ ¬ Allows kv key MeansFlag
  | .storeTimeout => OffendsNumber kv key 1 (2 ^ 64 - 1) f
  | .shutdownTimeout => OffendsNumber kv key 0 (2 ^ 64 - 1) f

def judged : List Key :=
  [.bindAddress, .databaseUrl, .maxConnections, .migrate, .storeTimeout, .shutdownTimeout]

/-- The first of the keys that offends does so with this fault. -/
inductive FirstOffence (kv : Assignments) (f : Fault) : List Key → Prop
  | here {key : Key} {keys : List Key} (h : Offends kv key f) : FirstOffence kv f (key :: keys)
  | later {key : Key} {keys : List Key} (hkey : ∀ g, ¬ Offends kv key g)
      (h : FirstOffence kv f keys) : FirstOffence kv f (key :: keys)

/-- Values that differ in the blanks around them, or of which one is blank and one absent. -/
inductive Alike : Option String → Option String → Prop
  | refl (v : Option String) : Alike v v
  | symm {v w : Option String} (h : Alike v w) : Alike w v
  | trans {u v w : Option String} (h : Alike u v) (h' : Alike v w) : Alike u w
  | padded {before value after : String} (hbefore : Blank before) (hafter : Blank after) :
      Alike (some value) (some (before ++ value ++ after))
  | absent {value : String} (h : Blank value) : Alike (some value) none

section Values

variable {kv : Assignments} {key : Key} {text : String}

theorem given?_eq_some_iff : given? kv key = some text ↔ Gives kv key text := by
  simp only [given?, Option.bind_eq_some_iff, supplied?_eq_some_iff, Gives]
  refine exists_congr fun value => and_congr_right fun _ => ?_
  rw [← trim_eq_empty_iff, ← trim_eq_iff]
  exact ⟨fun ⟨hne,htrim⟩ => ⟨htrim ▸ hne,htrim⟩,fun ⟨hne,htrim⟩ => ⟨htrim ▸ hne,htrim⟩⟩

theorem Gives.unique {t : String} (h : Gives kv key text) (ht : Gives kv key t) : text = t := by
  rw [← given?_eq_some_iff] at h ht
  exact Option.some.inj (h.symm.trans ht)

theorem given?_eq_none_iff : given? kv key = none ↔ LeavesOut kv key := by
  simp only [given?, Option.bind_eq_none_iff, supplied?_eq_none_iff, LeavesOut]

variable {α : Type} {Means : String → α → Prop}

theorem sets_iff {default a : α} : Sets kv key default Means a ↔
    given? kv key = none ∧ a = default ∨ ∃ text, given? kv key = some text ∧ Means text a := by
  constructor
  · intro h
    cases h with
    | default h => exact .inl ⟨given?_eq_none_iff.mpr h,rfl⟩
    | given h hmeans => exact .inr ⟨_,given?_eq_some_iff.mpr h,hmeans⟩
  · rintro (⟨h,rfl⟩ | ⟨text,h,hmeans⟩)
    · exact .default (given?_eq_none_iff.mp h)
    · exact .given (given?_eq_some_iff.mp h) hmeans

theorem allows_iff : Allows kv key Means ↔
    ∀ text, given? kv key = some text → ∃ a, Means text a := by
  simp only [Allows, given?_eq_some_iff]

variable {default : α} {fault : Key → Fault} {read? : String → Option α}

theorem setting_or_eq_ok_iff (hread : ∀ text a, read? text = some a ↔ Means text a) (a : α) :
    settingOr kv key default fault read? = .ok a ↔ Sets kv key default Means a := by
  rw [sets_iff, settingOr]
  cases given? kv key with
  | none => simp [eq_comm]
  | some text =>
    simp only [← hread]
    cases hr : read? text <;> simp [hr]

theorem setting_or_eq_error_iff (hread : ∀ text a, read? text = some a ↔ Means text a) (f : Fault) :
    settingOr kv key default fault read? = .error f ↔ f = fault key ∧ ¬ Allows kv key Means := by
  rw [allows_iff, settingOr]
  cases given? kv key with
  | none => simp
  | some text =>
    simp only [← hread]
    cases hr : read? text <;> simp [hr, eq_comm]

end Values

section Readers

theorem not_is_digits_plus (ds : List Char) : ¬ IsDigits ('+' :: ds) :=
  fun h => absurd (h.digits '+' List.mem_cons_self) (by decide)

theorem read_natural?_eq_some_iff (s : String) (n : Nat) :
    readNatural? s = some n ↔ Spells n s.toList := by
  have hdigits : ∀ ds : List Char, (if ds.isEmpty || !ds.all isDigit then none
      else some (ofDigits ds)) = some n ↔ IsDigits ds ∧ ofDigits ds = n := by
    intro ds
    simp [is_digits_iff]
  rw [readNatural?]
  generalize s.toList = cs
  rw [hdigits]
  split
  · next ds =>
    constructor
    · exact fun ⟨h,hvalue⟩ => .plus h hvalue
    · intro h
      cases h with
      | plain h _ => exact absurd h (not_is_digits_plus ds)
      | plus h hvalue => exact ⟨h,hvalue⟩
  · next ds hplus =>
    constructor
    · exact fun ⟨h,hvalue⟩ => .plain h hvalue
    · intro h
      cases h with
      | plain h hvalue => exact ⟨h,hvalue⟩
      | plus h _ => exact absurd rfl (hplus _)

theorem read_address?_eq_some_iff (text : String) (a : SocketAddress) :
    SocketAddress.read? text = some a ↔ MeansAddress text a :=
  SocketAddress.read?_eq_some_iff text

theorem Spells.unique {m n : Nat} {s : String} (hm : Spells m s.toList)
    (hn : Spells n s.toList) : m = n := by
  rw [← read_natural?_eq_some_iff] at hm hn
  exact Option.some.inj (hm.symm.trans hn)

theorem read_boolean?_eq_some_iff (s : String) (b : Bool) :
    readBoolean? s = some b ↔ MeansFlag s b := by
  have hboth : ∀ w ∈ ["0", "false", "FALSE", "no", "NO"],
      w ∉ ["1", "true", "TRUE", "yes", "YES"] := by decide
  have hwords : MeansFlag s b ↔ s ∈ ["1", "true", "TRUE", "yes", "YES"] ∧ b = true ∨
      s ∈ ["0", "false", "FALSE", "no", "NO"] ∧ b = false := by
    simp [MeansFlag, flagWords, or_and_right, or_assoc]
  rw [hwords, readBoolean?]
  split_ifs with htrue hfalse
  · have hnot : s ∉ ["0", "false", "FALSE", "no", "NO"] := fun h => hboth s h htrue
    simp only [htrue, hnot, true_and, false_and, or_false, Option.some_inj, eq_comm]
  · simp only [htrue, hfalse, true_and, false_and, false_or, Option.some_inj, eq_comm]
  · simp only [htrue, hfalse, false_and, or_self]

variable {kv : Assignments} {key : Key} {default bits n : Nat} {f : Fault}

theorem filter_read_natural?_eq_some_iff (bits : Nat) (text : String) (n : Nat) :
    (readNatural? text).filter (· < twoTo bits) = some n ↔
      MeansNumber 0 (2 ^ bits - 1) text n := by
  have hbound : n < twoTo bits ↔ n ≤ 2 ^ bits - 1 := by
    have hpos : 0 < 2 ^ bits := Nat.two_pow_pos bits
    show n < 2 ^ bits ↔ n ≤ 2 ^ bits - 1
    omega
  rw [Option.filter_eq_some_iff, read_natural?_eq_some_iff, decide_eq_true_eq, hbound]
  simp [MeansNumber]

theorem natural_or_eq_ok_iff : naturalOr kv key default bits = .ok n ↔
    Sets kv key default (MeansNumber 0 (2 ^ bits - 1)) n :=
  setting_or_eq_ok_iff (filter_read_natural?_eq_some_iff bits) n

theorem natural_or_eq_error_iff : naturalOr kv key default bits = .error f ↔
    f = .notInteger key ∧ ¬ Allows kv key (MeansNumber 0 (2 ^ bits - 1)) :=
  setting_or_eq_error_iff (filter_read_natural?_eq_some_iff bits) f

def positiveOr (kv : Assignments) (key : Key) (default bits : Nat) : Except Fault Nat :=
  naturalOr kv key default bits >>= atLeastOne key

theorem at_least_one_eq_ok_iff {m : Nat} : atLeastOne key n = .ok m ↔ 1 ≤ n ∧ n = m := by
  rw [atLeastOne]
  split_ifs with h
  · simp [h]
  · simp [Nat.one_le_iff_ne_zero, h]

theorem at_least_one_eq_error_iff : atLeastOne key n = .error f ↔ n = 0 ∧ f = .belowOne key := by
  rw [atLeastOne]
  split_ifs with h <;> simp [h, eq_comm]

theorem positive_or_eq_ok_iff (hdefault : 1 ≤ default) : positiveOr kv key default bits = .ok n ↔
    Sets kv key default (MeansNumber 1 (2 ^ bits - 1)) n := by
  simp only [positiveOr, bind_eq_ok_iff, natural_or_eq_ok_iff, at_least_one_eq_ok_iff]
  constructor
  · rintro ⟨_,hsets,hleast,rfl⟩
    cases hsets with
    | default h => exact .default h
    | given h hmeans => exact .given h ⟨hmeans.1,hleast,hmeans.2.2⟩
  · intro h
    cases h with
    | default h => exact ⟨_,.default h,hdefault,rfl⟩
    | given h hmeans => exact ⟨n,.given h ⟨hmeans.1,Nat.zero_le n,hmeans.2.2⟩,hmeans.2.1,rfl⟩

theorem sets_zero_iff (hdefault : 1 ≤ default) {greatest : Nat} :
    Sets kv key default (MeansNumber 0 greatest) 0 ↔
      Allows kv key (MeansNumber 0 greatest) ∧ ¬ Allows kv key (MeansNumber 1 greatest) := by
  constructor
  · intro h
    cases h with
    | default h => exact absurd hdefault (by decide)
    | given h hmeans =>
      refine ⟨fun t ht => ⟨0,ht.unique h ▸ hmeans⟩,fun hallows => ?_⟩
      obtain ⟨n,hspells,hleast,_⟩ := hallows _ h
      rw [hspells.unique hmeans.1] at hleast
      contradiction
  · rintro ⟨hallows,hnot⟩
    simp only [Allows, not_forall] at hnot
    obtain ⟨text,h,hnone⟩ := hnot
    obtain ⟨n,hspells,_,hgreatest⟩ := hallows text h
    have hn : n = 0 := by
      by_contra hne
      exact hnone ⟨n,hspells,Nat.one_le_iff_ne_zero.mpr hne,hgreatest⟩
    exact .given h ⟨hn ▸ hspells,Nat.le_refl 0,Nat.zero_le greatest⟩

theorem positive_or_eq_error_iff (hdefault : 1 ≤ default) :
    positiveOr kv key default bits = .error f ↔ OffendsNumber kv key 1 (2 ^ bits - 1) f := by
  simp only [positiveOr, bind_eq_error_iff, natural_or_eq_error_iff, natural_or_eq_ok_iff,
    at_least_one_eq_error_iff, OffendsNumber]
  refine or_congr_right ?_
  rw [← sets_zero_iff hdefault]
  constructor
  · rintro ⟨_,hsets,rfl,rfl⟩
    exact ⟨rfl,hsets⟩
  · rintro ⟨rfl,hsets⟩
    exact ⟨0,hsets,rfl,rfl⟩

theorem natural_or_eq_error_iff_offends : naturalOr kv key default bits = .error f ↔
    OffendsNumber kv key 0 (2 ^ bits - 1) f := by
  rw [natural_or_eq_error_iff, OffendsNumber]
  tauto

theorem required_eq_ok_iff {text : String} :
    required kv key = .ok text ↔ Gives kv key text := by
  rw [← given?_eq_some_iff, required]
  cases given? kv key <;> simp

theorem required_eq_error_iff :
    required kv key = .error f ↔ f = .missing key ∧ LeavesOut kv key := by
  rw [← given?_eq_none_iff, required]
  cases given? kv key <;> simp [eq_comm]

theorem of_assignments_eq (kv : Assignments) : Settings.ofAssignments kv = (do
    let bindAddress ← settingOr kv .bindAddress defaultAddress .notAddress SocketAddress.read?
    let databaseUrl ← required kv .databaseUrl
    let maxConnections ← positiveOr kv .maxConnections 8 32
    let migrate ← settingOr kv .migrate true .notBoolean readBoolean?
    let storeTimeoutMs ← positiveOr kv .storeTimeout 2000 64
    let shutdownTimeoutMs ← naturalOr kv .shutdownTimeout 15000 64
    return ⟨bindAddress,databaseUrl,maxConnections,migrate,storeTimeoutMs,shutdownTimeoutMs⟩) := by
  simp only [Settings.ofAssignments, positiveOr, bind_assoc]

end Readers

section Judging

variable {α : Type} {kv : Assignments} {key : Key} {keys : List Key} {f : Fault} {s : Settings}

/-- A key is judged by its reader, and the keys after it only where it does not offend. -/
theorem bind_eq_error_iff_first_offence {x : Except Fault α} {next : α → Except Fault Settings}
    (hx : ∀ g, x = .error g ↔ Offends kv key g)
    (hnext : ∀ a, next a = .error f ↔ FirstOffence kv f keys) :
    (x >>= next) = .error f ↔ FirstOffence kv f (key :: keys) := by
  rw [bind_eq_error_iff, hx]
  simp only [hnext]
  constructor
  · rintro (h | ⟨a,ha,h⟩)
    · exact .here h
    · refine .later (fun g hg => ?_) h
      rw [← hx, ha] at hg
      contradiction
  · intro h
    cases h with
    | here h => exact .inl h
    | later hkey h =>
      cases hread : x with
      | error g => exact absurd ((hx g).mp hread) (hkey g)
      | ok a => exact .inr ⟨a,rfl,h⟩

theorem not_first_offence_nil : ¬ FirstOffence kv f [] := nofun

theorem of_assignments_eq_ok_iff : Settings.ofAssignments kv = .ok s ↔ Describes kv s := by
  simp only [of_assignments_eq, bind_eq_ok_iff, setting_or_eq_ok_iff read_address?_eq_some_iff,
    setting_or_eq_ok_iff read_boolean?_eq_some_iff, required_eq_ok_iff, natural_or_eq_ok_iff,
    positive_or_eq_ok_iff (show 1 ≤ 8 by decide), positive_or_eq_ok_iff (show 1 ≤ 2000 by decide)]
  constructor
  · rintro ⟨_,hbind,_,hurl,_,hmax,_,hmigrate,_,hstore,_,hshutdown,hs⟩
    cases hs
    exact ⟨hbind,hurl,hmax,hmigrate,hstore,hshutdown⟩
  · intro h
    exact ⟨_,h.bindAddress,_,h.databaseUrl,_,h.maxConnections,_,h.migrate,_,h.storeTimeoutMs,
      _,h.shutdownTimeoutMs,rfl⟩

theorem of_assignments_eq_error_iff :
    Settings.ofAssignments kv = .error f ↔ FirstOffence kv f judged := by
  rw [of_assignments_eq]
  refine bind_eq_error_iff_first_offence
    (setting_or_eq_error_iff read_address?_eq_some_iff) fun _ => ?_
  refine bind_eq_error_iff_first_offence (fun _ => required_eq_error_iff) fun _ => ?_
  refine bind_eq_error_iff_first_offence
    (fun _ => positive_or_eq_error_iff (by decide)) fun _ => ?_
  refine bind_eq_error_iff_first_offence
    (setting_or_eq_error_iff read_boolean?_eq_some_iff) fun _ => ?_
  refine bind_eq_error_iff_first_offence
    (fun _ => positive_or_eq_error_iff (by decide)) fun _ => ?_
  refine bind_eq_error_iff_first_offence (fun _ => natural_or_eq_error_iff_offends) fun _ => ?_
  exact iff_of_false nofun not_first_offence_nil

theorem exists_sets_iff {default : α} {Means : String → α → Prop} :
    (∃ a, Sets kv key default Means a) ↔ Allows kv key Means := by
  constructor
  · rintro ⟨a,hsets⟩ text htext
    cases hsets with
    | default h =>
      obtain ⟨value,hvalue,hblank,_⟩ := htext
      exact absurd (h value hvalue) hblank
    | given h hmeans => exact ⟨a,htext.unique h ▸ hmeans⟩
  · intro hallows
    cases hgiven : given? kv key with
    | none => exact ⟨default,.default (given?_eq_none_iff.mp hgiven)⟩
    | some text =>
      have htext := given?_eq_some_iff.mp hgiven
      obtain ⟨a,hmeans⟩ := hallows text htext
      exact ⟨a,.given htext hmeans⟩

theorem acceptable_iff : Acceptable kv ↔ ∃ s, Describes kv s := by
  constructor
  · intro h
    obtain ⟨_,hbind⟩ := exists_sets_iff.mpr h.bindAddress
    obtain ⟨_,hurl⟩ := h.databaseUrl
    obtain ⟨_,hmax⟩ := exists_sets_iff.mpr h.maxConnections
    obtain ⟨_,hmigrate⟩ := exists_sets_iff.mpr h.migrate
    obtain ⟨_,hstore⟩ := exists_sets_iff.mpr h.storeTimeout
    obtain ⟨_,hshutdown⟩ := exists_sets_iff.mpr h.shutdownTimeout
    exact ⟨⟨_,_,_,_,_,_⟩,hbind,hurl,hmax,hmigrate,hstore,hshutdown⟩
  · rintro ⟨_,h⟩
    exact ⟨exists_sets_iff.mp ⟨_,h.bindAddress⟩,⟨_,h.databaseUrl⟩,
      exists_sets_iff.mp ⟨_,h.maxConnections⟩,exists_sets_iff.mp ⟨_,h.migrate⟩,
      exists_sets_iff.mp ⟨_,h.storeTimeoutMs⟩,exists_sets_iff.mp ⟨_,h.shutdownTimeoutMs⟩⟩

theorem FirstOffence.exists_offends (h : FirstOffence kv f keys) :
    ∃ key ∈ keys, Offends kv key f := by
  induction h with
  | here h => exact ⟨_,List.mem_cons_self,h⟩
  | later _ _ ih =>
    obtain ⟨key,hmem,h⟩ := ih
    exact ⟨key,List.mem_cons_of_mem _ hmem,h⟩

theorem Offends.code (h : Offends kv key f) :
    f.code = if f = .missing .databaseUrl then "ERR_MISSING_CONFIG" else "ERR_INVALID_CONFIG" := by
  have hnumber : ∀ {least greatest}, OffendsNumber kv key least greatest f →
      f.code = if f = .missing .databaseUrl then "ERR_MISSING_CONFIG"
        else "ERR_INVALID_CONFIG" := by
    rintro _ _ (⟨rfl,_⟩ | ⟨rfl,_⟩) <;> rfl
  cases key with
  | configPath => exact h.elim
  | bindAddress => rw [h.1]; rfl
  | databaseUrl => rw [h.1]; rfl
  | maxConnections => exact hnumber h
  | migrate => rw [h.1]; rfl
  | storeTimeout => exact hnumber h
  | shutdownTimeout => exact hnumber h

end Judging

section Blindness

variable {kv kv' : Assignments}

/-- Settings depend on nothing but the texts that are given for the judged keys. -/
theorem of_assignments_congr (h : ∀ key ∈ judged, given? kv' key = given? kv key) :
    Settings.ofAssignments kv' = Settings.ofAssignments kv := by
  simp only [judged, List.forall_mem_cons] at h
  obtain ⟨hbind,hurl,hmax,hmigrate,hstore,hshutdown,_⟩ := h
  simp only [Settings.ofAssignments, naturalOr, settingOr, required, hbind, hurl, hmax, hmigrate,
    hstore, hshutdown]

theorem supplied?_of_blank_around {before value after : String} (hbefore : Blank before)
    (hafter : Blank after) : supplied? (before ++ value ++ after) = supplied? value := by
  have hblank : ∀ c ∈ before.toList ++ after.toList, isBlank c = true :=
    List.forall_mem_append.mpr ⟨hbefore,hafter⟩
  have htrim : trim (before ++ value ++ after) = trim value := by
    rw [trim, String.toList_append, String.toList_append, trim_chars_of_blank_around hblank, trim]
  rw [supplied?, htrim, supplied?]

theorem Alike.bind_supplied? {v w : Option String} (h : Alike v w) :
    v.bind supplied? = w.bind supplied? := by
  induction h with
  | refl => rfl
  | symm _ ih => exact ih.symm
  | trans _ _ ih ih' => exact ih.trans ih'
  | padded hbefore hafter =>
    rw [Option.bind_some, Option.bind_some, supplied?_of_blank_around hbefore hafter]
  | absent h => rw [Option.bind_some, Option.bind_none, (supplied?_eq_none_iff _).mpr h]

end Blindness

/-- Assignments give settings exactly if they are acceptable, then the ones that they describe,
and otherwise the fault of the first key that offends, whatever stands around them. -/
theorem of_assignments_decided (kv : Assignments) :
    ((∃ s, Settings.ofAssignments kv = .ok s) ↔ Acceptable kv) ∧
      (∀ s, Settings.ofAssignments kv = .ok s ↔ Describes kv s) ∧
      (∀ f, Settings.ofAssignments kv = .error f ↔ FirstOffence kv f judged) ∧
      (∀ f, Settings.ofAssignments kv = .error f → f.code =
        if f = .missing .databaseUrl then "ERR_MISSING_CONFIG" else "ERR_INVALID_CONFIG") ∧
      ∀ kv', (∀ key ∈ judged, Alike (kv.value? key.name) (kv'.value? key.name)) →
        Settings.ofAssignments kv' = Settings.ofAssignments kv := by
  refine ⟨?_,fun _ => of_assignments_eq_ok_iff,fun _ => of_assignments_eq_error_iff,?_,?_⟩
  · simp only [acceptable_iff, of_assignments_eq_ok_iff]
  · intro f h
    obtain ⟨key,_,hkey⟩ := (of_assignments_eq_error_iff.mp h).exists_offends
    exact hkey.code
  · intro kv' h
    exact of_assignments_congr fun key hkey => (h key hkey).bind_supplied?.symm

def bareValues : Assignments :=
  [("COMPLIANCE_DB_URL", "db"), ("COMPLIANCE_STORE_TIMEOUT_MS", "+05")]

def paddedValues : Assignments :=
  [("HOME", "/"), ("COMPLIANCE_DB_URL", " db\t"), ("COMPLIANCE_DB_MIGRATE", "\u3000"),
    ("COMPLIANCE_STORE_TIMEOUT_MS", "+05\n")]

theorem of_assignments_padded_values :
    (∀ key ∈ judged, Alike (bareValues.value? key.name) (paddedValues.value? key.name)) ∧
      Describes paddedValues ⟨⟨.v4 [127, 0, 0, 1], 8384⟩, "db", 8, true, 5, 15000⟩ := by
  have hurl : Alike (some "db") (some (" " ++ "db" ++ "\t")) := .padded (by decide) (by decide)
  have hmigrate : Alike none (some "\u3000") := .symm (.absent (by decide))
  have htimeout : Alike (some "+05") (some ("" ++ "+05" ++ "\n")) :=
    .padded (by decide) (by decide)
  have halike : ∀ key ∈ judged,
      Alike (bareValues.value? key.name) (paddedValues.value? key.name) := by
    simp only [judged, List.forall_mem_cons]
    exact ⟨.refl none,hurl,.refl none,hmigrate,htimeout,.refl none,nofun⟩
  obtain ⟨_,_,_,_,hblind⟩ := of_assignments_decided bareValues
  have hbare : Settings.ofAssignments bareValues =
      .ok ⟨⟨.v4 [127, 0, 0, 1], 8384⟩, "db", 8, true, 5, 15000⟩ := by rfl
  exact ⟨halike,of_assignments_eq_ok_iff.mp ((hblind paddedValues halike).trans hbare)⟩

end ComplianceIntake.Configuration
