import ComplianceIntake.Proofs.Event.Validity
import ComplianceIntake.Proofs.Identity.Safety
import ComplianceIntake.Proofs.Store.Alike

/-!
# What a resolution comes to

Resolving a record without interruption, on an available ledger and at a cache
that agrees with it, comes to what asking the ledger for the record's row comes
to: a hit saves the call, and with it only a change of a display name. A
resolution that fails leaves the tables and the cache as they were. Where the
ledger is unavailable only what the cache holds is resolved.
-/

set_option autoImplicit false

namespace ComplianceIntake.Identity

open ComplianceIntake.Event
open ComplianceIntake.Store
open ComplianceIntake.Journal

namespace Plan

variable {ν α β σ : Type} [Backend σ] (choice : SpecChoice)

/-- What a plan gives and where it leaves the site. -/
def result (p : Plan ν α) (s : Site σ) : α × Site σ :=
  ((p.run choice s).value, (p.run choice s).site)

@[simp] theorem result_note (n : ν) (p : Plan ν α) (s : Site σ) :
    (note n p).result choice s = p.result choice s := rfl

theorem result_act (action : Action) (next : action.Answer → Plan ν α) (s : Site σ) :
    (act action next).result choice s =
      (next (action.perform choice s).1).result choice (action.perform choice s).2 := rfl

theorem result_bind (p : Plan ν α) (f : α → Plan ν β) (s : Site σ) :
    (p.bind f).result choice s =
      (f (p.result choice s).1).result choice (p.result choice s).2 := by
  simp only [result, run_bind]

theorem result_noting (notes : List ν) (p : Plan ν α) (s : Site σ) :
    (noting notes p).result choice s = p.result choice s := by
  induction notes with
  | nil => rfl
  | cons n notes ih => exact ih

theorem result_and_then_ok {ε : Type} {p : Plan ν (Except ε α)} (f : α → Plan ν (Except ε β))
    {s s' : Site σ} {a : α} (h : p.result choice s = (.ok a, s')) :
    (p.andThen f).result choice s = (f a).result choice s' := by
  rw [andThen, result_bind, h]

theorem result_and_then_error {ε : Type} {p : Plan ν (Except ε α)} (f : α → Plan ν (Except ε β))
    {s s' : Site σ} {e : ε} (h : p.result choice s = (.error e, s')) :
    (p.andThen f).result choice s = (.error e, s') := by
  rw [andThen, result_bind, h]
  rfl

end Plan

theorem grows_perform (choice : SpecChoice) (a : Action) (s : Site Ledger) :
    s.store.tables.Grows (a.perform choice s).2.store.tables := by
  cases a with
  | consult key => exact .refl _
  | remember key id => exact .refl _
  | ask call => exact s.store.grows_answer choice call

theorem Plan.grows_result {ν α : Type} (choice : SpecChoice) (p : Plan ν α) (s : Site Ledger) :
    s.store.tables.Grows (p.result choice s).2.store.tables := by
  induction p generalizing s with
  | done a => exact .refl _
  | note n rest ih => exact ih s
  | act action next ih => exact (grows_perform choice action s).trans (ih _ _)

section Asking

variable (choice : SpecChoice) {s : Site Ledger}

theorem perform_ask (call : Call) (h : s.store.available = true) :
    Action.perform choice (.ask call) s =
      (.ok (s.store.serve choice call).1, { s with store := (s.store.serve choice call).2 }) := by
  show ((s.store.answer choice call).1, { s with store := (s.store.answer choice call).2 }) = _
  rw [s.store.answer_of_available choice call h]

theorem perform_ask_unavailable (call : Call) (h : s.store.available = false) :
    Action.perform choice (.ask call) s = (.error Ledger.unavailable, s) := by
  show ((s.store.answer choice call).1, { s with store := (s.store.answer choice call).2 }) = _
  rw [s.store.answer_of_unavailable choice call h]

theorem result_ask_store (call : Call) (h : s.store.available = true) :
    (askStore call).result choice s =
      (.ok (s.store.serve choice call).1, { s with store := (s.store.serve choice call).2 }) := by
  show ((Action.perform choice (.ask call) s).1.mapError ResolveError.store,
    (Action.perform choice (.ask call) s).2) = _
  rw [perform_ask choice call h]
  rfl

theorem result_ask_store_unavailable (call : Call) (h : s.store.available = false) :
    (askStore call).result choice s = (.error (.store Ledger.unavailable), s) := by
  show ((Action.perform choice (.ask call) s).1.mapError ResolveError.store,
    (Action.perform choice (.ask call) s).2) = _
  rw [perform_ask_unavailable choice call h]
  rfl

variable {key : NaturalKey} {fetch : Steps Int}

theorem result_identify_hit {id : Int} (h : s.cache.lookup key = some id) :
    (identify key fetch).result choice s = (.ok id, s) := by
  rw [identify, Plan.result_act]
  simp only [Action.perform, h]
  rfl

theorem result_identify_ok {s' : Site Ledger} {id : Int} (h : s.cache.lookup key = none)
    (hf : fetch.result choice s = (.ok id, s')) :
    (identify key fetch).result choice s =
      (.ok id, { s' with cache := s'.cache.insert key id }) := by
  rw [identify, Plan.result_act]
  simp only [Action.perform, h, Plan.result_note, Plan.result_bind, hf]
  rfl

theorem result_identify_error {s' : Site Ledger} {e : ResolveError} (h : s.cache.lookup key = none)
    (hf : fetch.result choice s = (.error e, s')) :
    (identify key fetch).result choice s = (.error e, s') := by
  rw [identify, Plan.result_act]
  simp only [Action.perform, h, Plan.result_note, Plan.result_bind, hf]
  rfl

end Asking

/-- The site of an available ledger, but for the counts of its calls. -/
structure Site.Holds (s : Site Ledger) (c : Cache) (t : Tables) : Prop where
  cache : s.cache = c
  tables : s.store.tables = t
  available : s.store.available = true

def Plan.ComesTo {ν α : Type} (choice : SpecChoice) (p : Plan ν α) (s : Site Ledger) (a : α)
    (c : Cache) (t : Tables) : Prop :=
  ∃ s', p.result choice s = (a, s') ∧ s'.Holds c t

def specIn (choice : SpecChoice) (t : Tables) (p : Policy) (hash : String) :
    Except ResolveError String :=
  match p.specText with
  | some spec => .ok spec
  | none =>
    match choice.pick? (t.specsOf hash) with
    | some spec => .ok spec
    | none => .error (.unknownSpec hash)

theorem spec_in_eq_error_iff (choice : SpecChoice) (t : Tables) (p : Policy) (hash : String)
    (e : ResolveError) : specIn choice t p hash = .error e ↔
      p.specText = none ∧ ¬ t.Knows hash ∧ e = .unknownSpec hash := by
  unfold specIn
  cases p.specText with
  | some spec => simp
  | none =>
    rw [← t.pick?_specs_of_eq_none_iff choice]
    cases choice.pick? (t.specsOf hash) with
    | none => simp [eq_comm]
    | some spec => simp

/-- What it takes to have a row for a draft: a hit changes nothing, and on a miss the ledger is
asked for the row and its id remembered. -/
inductive Obtained (d : Draft) (c : Cache) (t : Tables) : Int → Cache → Tables → Prop
  | hit {id : Int} (h : c.lookup d.key = some id) : Obtained d c t id c t
  | miss (h : c.lookup d.key = none) :
      Obtained d c t (t.getOrCreate d).1 (c.insert d.key (t.getOrCreate d).1) (t.getOrCreate d).2

namespace Obtained

variable {d : Draft} {c c' : Cache} {t t' : Tables} {id : Int}

theorem grows (h : Obtained d c t id c' t') : t.Grows t' := by
  cases h with
  | hit h => exact .refl t
  | miss h => exact t.grows_get_or_create d

theorem sound (h : Obtained d c t id c' t') (ht : t.Sound) : t'.Sound := by
  cases h with
  | hit h => exact ht
  | miss h => exact ht.get_or_create d

theorem id? (h : Obtained d c t id c' t') (hc : c.Agrees t) : t'.id? d.key = some id := by
  cases h with
  | hit h => exact hc _ _ (c.mem_entries_of_lookup _ _ h)
  | miss h => exact t.id?_get_or_create_self d

theorem agrees (h : Obtained d c t id c' t') (hc : c.Agrees t) : c'.Agrees t' := by
  have hid := h.id? hc
  have hold := hc.mono h.grows
  cases h with
  | hit h => exact hold
  | miss h => exact hold.insert _ _ hid

end Obtained

namespace Entity

/-- The record has this key, and a specification that comes with it has the key's hash. -/
inductive Keyed : Entity → NaturalKey → Prop
  | cluster {c : Cluster} (h : c.key = .ok c.naturalKey) :
      Keyed (.cluster c) (.cluster c.naturalKey)
  | parentPolicy {p : ParentPolicy} (h : p.key = .ok p.naturalKey) :
      Keyed (.parentPolicy p) (.parentPolicy p.naturalKey)
  | policy {p : Policy} {key : PolicyKey} (h : p.key = .ok key)
      (hspec : ∀ spec, p.specText = some spec → Spec.hash spec = .ok key.specHash) :
      Keyed (.policy p) (.policy key)

def draft (choice : SpecChoice) (t : Tables) : Entity → Except ResolveError Draft
  | .cluster c => .ok (.cluster c.naturalKey c.displayName)
  | .parentPolicy p => .ok (.parentPolicy p.naturalKey)
  | .policy p =>
    match p.key with
    | .ok key => (specIn choice t p key.specHash).map (.policy key)
    | .error fault => .error (.unusable fault)

def asked (choice : SpecChoice) (t : Tables) (x : Entity) : Except ResolveError Int × Tables :=
  match x.draft choice t with
  | .ok d => (.ok (t.getOrCreate d).1, (t.getOrCreate d).2)
  | .error e => (.error e, t)

variable {choice : SpecChoice} {t : Tables} {x : Entity} {key : NaturalKey}

theorem Keyed.draft_key (h : x.Keyed key) {d : Draft} (hd : x.draft choice t = .ok d) :
    d.key = key := by
  cases h with
  | cluster h =>
    cases hd
    rfl
  | parentPolicy h =>
    cases hd
    rfl
  | @policy p k h hspec =>
    simp only [draft, h] at hd
    cases hs : specIn choice t p k.specHash with
    | error e => exact nomatch hs ▸ hd
    | ok spec =>
      rw [hs] at hd
      cases hd
      rfl

theorem Keyed.draft_of_row (choice : SpecChoice) (h : x.Keyed key) {id : Int}
    (hid : t.id? key = some id) : ∃ d, x.draft choice t = .ok d := by
  cases h with
  | cluster h => exact ⟨_,rfl⟩
  | parentPolicy h => exact ⟨_,rfl⟩
  | @policy p k h hspec =>
    cases hs : specIn choice t p k.specHash with
    | ok spec => exact ⟨.policy k spec,by simp only [draft, h, hs, Except.map]⟩
    | error e =>
      obtain ⟨_,hunknown,_⟩ := (spec_in_eq_error_iff choice t p _ e).mp hs
      exact absurd (Tables.knows_of_row hid) hunknown

theorem Keyed.asked_of_row (choice : SpecChoice) (h : x.Keyed key) {id : Int}
    (hid : t.id? key = some id) :
    (x.asked choice t).1 = .ok id ∧ t.Alike .same (x.asked choice t).2 := by
  obtain ⟨d,hd⟩ := h.draft_of_row choice hid
  rw [asked, hd]
  simp only [Tables.getOrCreate, h.draft_key hd, hid]
  exact ⟨trivial,t.alike_update d⟩

theorem Keyed.draft_like {R : SpecRel} {choice' : SpecChoice} {u : Tables} (h : x.Keyed key)
    (ha : t.Alike R u) (hf : R.Fits choice choice') :
    (∃ d d', x.draft choice t = .ok d ∧ x.draft choice' u = .ok d' ∧ d.Like R d') ∨
    ∃ e, x.draft choice t = .error e ∧ x.draft choice' u = .error e := by
  cases h with
  | @cluster c h => exact Or.inl ⟨_,_,rfl,rfl,.cluster _ _⟩
  | @parentPolicy p h => exact Or.inl ⟨_,_,rfl,rfl,.parentPolicy _⟩
  | @policy p k h hspec =>
    simp only [draft, h, specIn]
    cases hs : p.specText with
    | some spec => exact Or.inl ⟨_,_,rfl,rfl,.policy k (hf.own _ _ (hspec spec hs))⟩
    | none =>
      have hpick := hf.pick _ _ _ (ha.specs_of k.specHash)
      generalize choice.pick? (t.specsOf k.specHash) = found at hpick ⊢
      generalize choice'.pick? (u.specsOf k.specHash) = found' at hpick ⊢
      cases hpick with
      | none => exact Or.inr ⟨_,rfl,rfl⟩
      | some hR => exact Or.inl ⟨_,_,rfl,rfl,.policy k hR⟩

theorem Keyed.asked_alike {R : SpecRel} {choice' : SpecChoice} {u : Tables} (h : x.Keyed key)
    (ha : t.Alike R u) (hf : R.Fits choice choice') :
    (x.asked choice t).1 = (x.asked choice' u).1 ∧
      (x.asked choice t).2.Alike R (x.asked choice' u).2 := by
  unfold asked
  rcases h.draft_like ha hf with ⟨d,d',hd,hd',hlike⟩ | ⟨e,he,he'⟩
  · rw [hd, hd']
    obtain ⟨hid,halike⟩ := ha.get_or_create hlike
    exact ⟨congrArg Except.ok hid,halike⟩
  · rw [he, he']
    exact ⟨rfl,ha⟩

end Entity

section Resolution

variable (choice : SpecChoice) {s : Site Ledger} {c : Cache} {t : Tables}

theorem ask_store_comes_to (hs : s.Holds c t) (draft : Draft) :
    (askStore (.getOrCreate draft)).ComesTo choice s (.ok (t.getOrCreate draft).1) c
      (t.getOrCreate draft).2 := by
  obtain ⟨rfl,rfl,ha⟩ := hs
  exact ⟨_,result_ask_store choice _ ha,rfl,rfl,ha⟩

theorem spec_for_comes_to (hs : s.Holds c t) (p : Policy) (hash : String)
    (hspec : ∀ spec, p.specText = some spec → Spec.hash spec = .ok hash) :
    (specFor p hash).ComesTo choice s (specIn choice t p hash) c t := by
  unfold specFor specIn
  cases hp : p.specText with
  | some spec =>
    obtain ⟨text,hcanonical,_⟩ := Spec.canonical_of_hash spec hash (hspec spec hp)
    simp only [hcanonical]
    exact ⟨s,rfl,hs⟩
  | none =>
    obtain ⟨rfl,rfl,ha⟩ := hs
    have hask := result_ask_store choice (.specByHash hash) ha
    change (askStore (.specByHash hash)).result choice s =
      (.ok (choice.pick? (s.store.tables.specsOf hash)), _) at hask
    cases hpick : choice.pick? (s.store.tables.specsOf hash) with
    | some spec =>
      rw [hpick] at hask
      exact ⟨_,Plan.result_and_then_ok choice _ hask,rfl,rfl,ha⟩
    | none =>
      rw [hpick] at hask
      exact ⟨_,Plan.result_and_then_ok choice _ hask,rfl,rfl,ha⟩

theorem spec_for_of_unavailable (p : Policy) (hash : String)
    (hspec : ∀ spec, p.specText = some spec → Spec.hash spec = .ok hash)
    (hs : s.store.available = false) :
    (∃ spec, (specFor p hash).result choice s = (.ok spec, s)) ∨
      (specFor p hash).result choice s = (.error (.store Ledger.unavailable), s) := by
  unfold specFor
  cases hp : p.specText with
  | some spec =>
    obtain ⟨text,hcanonical,_⟩ := Spec.canonical_of_hash spec hash (hspec spec hp)
    simp only [hcanonical]
    exact Or.inl ⟨spec,rfl⟩
  | none =>
    exact Or.inr (Plan.result_and_then_error choice _ (result_ask_store_unavailable choice _ hs))

/-- A resolution identifies the record's key, and on a miss it asks the ledger. -/
theorem resolve_eq_identify {x : Entity} {key : NaturalKey} (h : x.Keyed key) :
    ∃ fetch, x.resolve = identify key fetch ∧
      (∀ s c t, s.Holds c t →
        fetch.ComesTo choice s (x.asked choice t).1 c (x.asked choice t).2) ∧
      ∀ s : Site Ledger, s.store.available = false →
        fetch.result choice s = (.error (.store Ledger.unavailable), s) := by
  cases h with
  | @cluster k h =>
    refine ⟨_,by rw [Entity.resolve, resolveCluster, h, resolveKeyed],?_,?_⟩
    · exact fun s c t hs => ask_store_comes_to choice hs _
    · exact fun s hs => result_ask_store_unavailable choice _ hs
  | @parentPolicy p h =>
    refine ⟨_,by rw [Entity.resolve, resolveParentPolicy, h, resolveKeyed],?_,?_⟩
    · exact fun s c t hs => ask_store_comes_to choice hs _
    · exact fun s hs => result_ask_store_unavailable choice _ hs
  | @policy p k h hspec =>
    refine ⟨_,by rw [Entity.resolve, resolvePolicy, h, resolveKeyed],?_,?_⟩
    · intro s c t hs
      obtain ⟨s',hspecFor,hs'⟩ := spec_for_comes_to choice hs p k.specHash hspec
      simp only [Entity.asked, Entity.draft, h]
      cases hin : specIn choice t p k.specHash with
      | ok spec =>
        rw [hin] at hspecFor
        obtain ⟨s'',hask,hs''⟩ := ask_store_comes_to choice hs' (.policy k spec)
        exact ⟨s'',(Plan.result_and_then_ok choice _ hspecFor).trans hask,hs''⟩
      | error e =>
        rw [hin] at hspecFor
        exact ⟨s',Plan.result_and_then_error choice _ hspecFor,hs'⟩
    · intro s hs
      rcases spec_for_of_unavailable choice p k.specHash hspec hs with ⟨spec,hf⟩ | hf
      · rw [Plan.result_and_then_ok choice _ hf]
        exact result_ask_store_unavailable choice _ hs
      · exact Plan.result_and_then_error choice _ hf

/-- A resolution obtains the row of its draft, or fails like the draft and changes nothing. -/
theorem resolve_obtains {x : Entity} {key : NaturalKey} (h : x.Keyed key) (hs : s.Holds c t)
    (hc : c.Agrees t) :
    (∃ d id c' t', x.draft choice t = .ok d ∧ x.resolve.ComesTo choice s (.ok id) c' t' ∧
      Obtained d c t id c' t') ∨
    ∃ e, x.draft choice t = .error e ∧ x.resolve.ComesTo choice s (.error e) c t := by
  obtain ⟨fetch,heq,hfetch,_⟩ := resolve_eq_identify choice h
  rw [heq]
  cases hl : s.cache.lookup key with
  | some id =>
    have hid : t.id? key = some id := hc key id (hs.cache ▸ s.cache.mem_entries_of_lookup key id hl)
    obtain ⟨d,hd⟩ := h.draft_of_row choice hid
    have hlook : c.lookup d.key = some id := by rw [h.draft_key hd, ← hs.cache, hl]
    exact Or.inl ⟨d,id,c,t,hd,⟨s,result_identify_hit choice hl,hs⟩,.hit hlook⟩
  | none =>
    obtain ⟨s',hresult,hs'⟩ := hfetch s c t hs
    cases hd : x.draft choice t with
    | error e =>
      simp only [Entity.asked, hd] at hresult hs'
      exact Or.inr ⟨e,rfl,s',result_identify_error choice hl hresult,hs'⟩
    | ok d =>
      simp only [Entity.asked, hd] at hresult hs'
      have hkey := h.draft_key hd
      have hlook : c.lookup d.key = none := by rw [hkey, ← hs.cache, hl]
      refine Or.inl ⟨d,_,_,_,rfl,⟨_,result_identify_ok choice hl hresult,?_⟩,.miss hlook⟩
      exact ⟨by rw [hs'.cache, hkey],hs'.tables,hs'.available⟩

/-- A resolution comes to asking the ledger, and a hit to asking it without changing a name. -/
theorem resolve_comes_to {x : Entity} {key : NaturalKey} (h : x.Keyed key) (hs : s.Holds c t)
    (hc : c.Agrees t) :
    ∃ c' t', x.resolve.ComesTo choice s (x.asked choice t).1 c' t' ∧
      (x.asked choice t).2.Alike .same t' ∧ c'.Agrees t' ∧
      (c' = c ∨ ∃ id, (x.asked choice t).1 = .ok id ∧ c' = c.insert key id) := by
  rcases resolve_obtains choice h hs hc with ⟨d,id,c',t',hd,hto,hgot⟩ | ⟨e,he,hto⟩
  · have hagrees := hgot.agrees hc
    have hkey := h.draft_key hd
    cases hgot with
    | hit hl =>
      have hid := hc key id (c.mem_entries_of_lookup key id (hkey ▸ hl))
      obtain ⟨hval,halike⟩ := h.asked_of_row choice hid
      rw [hval]
      exact ⟨c,t,hto,halike.symm,hc,Or.inl rfl⟩
    | miss hl =>
      simp only [Entity.asked, hd]
      exact ⟨_,_,hto,.refl _,hagrees,Or.inr ⟨_,rfl,by rw [hkey]⟩⟩
  · simp only [Entity.asked, he]
    exact ⟨c,t,hto,.refl t,hc,Or.inl rfl⟩

/-- Where the ledger is unavailable a resolution is answered by the cache or fails. -/
theorem resolve_of_unavailable {x : Entity} {key : NaturalKey} (h : x.Keyed key)
    (hs : s.store.available = false) :
    (∃ id, x.resolve.result choice s = (.ok id, s)) ∨
      x.resolve.result choice s = (.error (.store Ledger.unavailable), s) := by
  obtain ⟨fetch,heq,_,hfetch⟩ := resolve_eq_identify choice h
  rw [heq]
  cases hl : s.cache.lookup key with
  | some id => exact Or.inl ⟨id,result_identify_hit choice hl⟩
  | none => exact Or.inr (result_identify_error choice hl (hfetch s hs))

end Resolution

end ComplianceIntake.Identity
