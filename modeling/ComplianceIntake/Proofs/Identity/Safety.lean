import ComplianceIntake.Proofs.Store.Growth
import ComplianceIntake.Identity.Resolve

/-!
# Plans that are safe among others

A plan is safe at some tables when each action it comes to is allowed there and
every answer that is true of later tables leads to a plan that is safe at them.
The tables may have grown in any way between two actions, so a safe plan stays
safe while other requests take their turns. To remember an id is allowed only
where the key has that id in the tables; a cache that starts in agreement with
the ledger therefore stays so. Resolving a record is safe, and what it gives is
the id of the record's key.
-/

set_option autoImplicit false

namespace ComplianceIntake.Identity

open ComplianceIntake.Event
open ComplianceIntake.Store
open ComplianceIntake.Journal

/-- Every entry of the cache is the id of a row. -/
def Cache.Agrees (c : Cache) (t : Tables) : Prop :=
  ∀ key id, (key, id) ∈ c.entries → t.id? key = some id

theorem Cache.agrees_empty (t : Tables) : Cache.Agrees {} t :=
  fun _ _ h => absurd h List.not_mem_nil

theorem Cache.mem_entries_of_lookup (c : Cache) (key : NaturalKey) (id : Int)
    (h : c.lookup key = some id) : (key, id) ∈ c.entries :=
  mem_of_find?_key c.entries key id h

theorem Cache.Agrees.mono {c : Cache} {t t' : Tables} (h : c.Agrees t) (hg : t.Grows t') :
    c.Agrees t' :=
  fun key id hm => hg.ids key id (h key id hm)

theorem Cache.Agrees.insert {c : Cache} {t : Tables} (h : c.Agrees t) (key : NaturalKey) (id : Int)
    (hi : t.id? key = some id) : (c.insert key id).Agrees t := by
  intro other i hm
  rcases List.mem_cons.mp hm with he | hm
  · cases he
    exact hi
  · exact h other i (List.mem_filter.mp hm).1

namespace Action

def Told (t : Tables) : (a : Action) → a.Answer → Prop
  | .consult key, answer => ∀ id, answer = some id → t.id? key = some id
  | .remember _ _, _ => True
  | .ask call, answer => call.Told t answer

/-- What a plan may do: remember what is in the tables, and make certain calls. -/
def Allowed (may : Call → Prop) (t : Tables) : Action → Prop
  | .consult _ => True
  | .remember key id => t.id? key = some id
  | .ask call => may call

theorem Told.mono {t t' : Tables} {a : Action} {answer : a.Answer} (h : a.Told t answer)
    (hg : t.Grows t') : a.Told t' answer := by
  cases a with
  | consult key => exact fun id ha => hg.ids key id (h id ha)
  | remember key id => trivial
  | ask call => exact Call.Told.mono h hg

theorem Allowed.mono {may : Call → Prop} {t t' : Tables} {a : Action} (h : a.Allowed may t)
    (hg : t.Grows t') : a.Allowed may t' := by
  cases a with
  | consult key => trivial
  | remember key id => exact hg.ids key id h
  | ask call => exact h

theorem Allowed.any {may : Call → Prop} {t : Tables} {a : Action} (h : a.Allowed may t) :
    a.Allowed (fun _ => True) t := by
  cases a with
  | consult key => trivial
  | remember key id => exact h
  | ask call => trivial

end Action

def Preserved (valid : Tables → Prop) (may : Call → Prop) : Prop :=
  ∀ (choice : SpecChoice) (c : Call) (l : Ledger), may c → valid l.tables →
    valid (l.serve choice c).2.tables

theorem Preserved.answer {valid : Tables → Prop} {may : Call → Prop} (h : Preserved valid may)
    (choice : SpecChoice) (c : Call) (l : Ledger) (hc : may c) (hv : valid l.tables) :
    valid (l.answer choice c).2.tables := by
  rcases l.answer_cases choice c with ⟨-,he⟩ | ⟨-,he⟩ <;> rw [he]
  · exact hv
  · exact h choice c l hc hv

structure Site.Kept (valid : Tables → Prop) (s : Site Ledger) : Prop where
  tables : valid s.store.tables
  cache : s.cache.Agrees s.store.tables

/-- An allowed action keeps the site, lets the tables grow, and its answer is true of them. -/
theorem Action.perform_kept {valid : Tables → Prop} {may : Call → Prop} (hp : Preserved valid may)
    (choice : SpecChoice) (a : Action) (s : Site Ledger) (hs : s.Kept valid)
    (ha : a.Allowed may s.store.tables) :
    (a.perform choice s).2.Kept valid ∧
      s.store.tables.Grows (a.perform choice s).2.store.tables ∧
      a.Told (a.perform choice s).2.store.tables (a.perform choice s).1 := by
  cases a with
  | consult key =>
    have htold : ∀ id, s.cache.lookup key = some id → s.store.tables.id? key = some id :=
      fun id h => hs.cache key id (s.cache.mem_entries_of_lookup key id h)
    exact ⟨hs,.refl _,htold⟩
  | remember key id => exact ⟨⟨hs.tables,hs.cache.insert key id ha⟩,.refl _,trivial⟩
  | ask call =>
    have hg := s.store.grows_answer choice call
    exact ⟨⟨hp.answer choice call s.store ha hs.tables,hs.cache.mono hg⟩,hg,
      s.store.told_answer choice call⟩

namespace Plan

variable {ν α β : Type}

def noting (notes : List ν) (p : Plan ν α) : Plan ν α := notes.foldr .note p

theorem noting_append (notes notes' : List ν) (p : Plan ν α) :
    noting (notes ++ notes') p = noting notes (noting notes' p) :=
  List.foldr_append

theorem bind_noting (notes : List ν) (p : Plan ν α) (f : α → Plan ν β) :
    (noting notes p).bind f = noting notes (p.bind f) := by
  induction notes with
  | nil => rfl
  | cons n notes ih => exact congrArg (note n) ih

inductive Safe (valid : Tables → Prop) (may : Call → Prop) (post : Tables → α → Prop) :
    Plan ν α → Tables → Prop
  | done {a : α} {t : Tables} (h : ∀ u, valid u → t.Grows u → post u a) :
      Safe valid may post (.done a) t
  | note {n : ν} {rest : Plan ν α} {t : Tables} (h : Safe valid may post rest t) :
      Safe valid may post (.note n rest) t
  | act {action : Action} {next : action.Answer → Plan ν α} {t : Tables}
      (ha : action.Allowed may t)
      (h : ∀ u answer, valid u → t.Grows u → action.Told u answer →
        Safe valid may post (next answer) u) :
      Safe valid may post (.act action next) t

variable {valid : Tables → Prop} {may : Call → Prop} {post : Tables → α → Prop}

theorem Safe.mono {p : Plan ν α} {t t' : Tables} (h : p.Safe valid may post t)
    (hg : t.Grows t') : p.Safe valid may post t' := by
  induction h with
  | done h => exact .done fun u hu hg' => h u hu (hg.trans hg')
  | note _ ih => exact .note (ih hg)
  | act ha h _ => exact .act (ha.mono hg) fun u answer hu hg' => h u answer hu (hg.trans hg')

theorem Safe.weaken {other : Tables → α → Prop} {p : Plan ν α} {t : Tables}
    (h : p.Safe valid may post t) (hpost : ∀ u a, valid u → post u a → other u a) :
    p.Safe valid may other t := by
  induction h with
  | done h => exact .done fun u hu hg => hpost u _ hu (h u hu hg)
  | note _ ih => exact .note ih
  | act ha _ ih => exact .act ha ih

theorem Safe.bind {p : Plan ν α} {f : α → Plan ν β} {then_ : Tables → β → Prop} {t : Tables}
    (h : p.Safe valid may post t) (ht : valid t)
    (hf : ∀ u a, valid u → t.Grows u → post u a → (f a).Safe valid may then_ u) :
    (p.bind f).Safe valid may then_ t := by
  induction h with
  | done h => exact hf _ _ ht (.refl _) (h _ ht (.refl _))
  | note _ ih => exact .note (ih ht hf)
  | act ha _ ih =>
    refine .act ha ?_
    intro u answer hu hg hto
    exact ih u answer hu hg hto hu fun w a hw hg' => hf w a hw (hg.trans hg')

theorem Safe.noting {p : Plan ν α} {t : Tables} (notes : List ν) (h : p.Safe valid may post t) :
    (noting notes p).Safe valid may post t := by
  induction notes with
  | nil => exact h
  | cons n notes ih => exact .note ih

theorem Safe.settle {p : Plan ν α} {t : Tables} (h : p.Safe valid may post t) :
    p.settle.1.Safe valid may post t := by
  induction h with
  | done h => exact .done h
  | note _ ih => exact ih
  | act ha h _ => exact .act ha h

/-- A safe plan that is run to its end keeps the site and gives what it is to give. -/
theorem Safe.run (hp : Preserved valid may) (choice : SpecChoice) {p : Plan ν α} {s : Site Ledger}
    (h : p.Safe valid may post s.store.tables) (hs : s.Kept valid) :
    (p.run choice s).site.Kept valid ∧
      s.store.tables.Grows (p.run choice s).site.store.tables ∧
      post (p.run choice s).site.store.tables (p.run choice s).value := by
  induction p generalizing s with
  | done a =>
    cases h with
    | done h => exact ⟨hs,.refl _,h _ hs.tables (.refl _)⟩
  | note n rest ih =>
    cases h with
    | note h => exact ih h hs
  | act action next ih =>
    cases h with
    | act ha h =>
      obtain ⟨hk,hg,ht⟩ := action.perform_kept hp choice s hs ha
      obtain ⟨hk',hg',hpost⟩ := ih _ (h _ _ hk.tables hg ht) hk
      exact ⟨hk',hg.trans hg',hpost⟩

abbrev Gives {ε : Type} (valid : Tables → Prop) (may : Call → Prop) (good : Tables → α → Prop)
    (p : Plan ν (Except ε α)) (t : Tables) : Prop :=
  p.Safe valid may (fun u r => ∀ a, r = .ok a → good u a) t

theorem gives_error {ε : Type} {good : Tables → α → Prop} (error : ε) (t : Tables) :
    (Plan.done (.error error) : Plan ν (Except ε α)).Gives valid may good t :=
  .done fun _ _ _ _ h => nomatch h

theorem gives_ok {ε : Type} {good : Tables → α → Prop} (a : α) (t : Tables)
    (h : ∀ u, valid u → t.Grows u → good u a) :
    (Plan.done (.ok a) : Plan ν (Except ε α)).Gives valid may good t := by
  refine .done ?_
  intro u hu hg b hb
  cases hb
  exact h u hu hg

theorem Gives.and_then {ε : Type} {good : Tables → α → Prop} {good' : Tables → β → Prop}
    {p : Plan ν (Except ε α)} {f : α → Plan ν (Except ε β)} {t : Tables}
    (h : p.Gives valid may good t) (ht : valid t)
    (hf : ∀ u a, valid u → t.Grows u → good u a → (f a).Gives valid may good' u) :
    (p.andThen f).Gives valid may good' t := by
  apply Safe.bind h ht
  intro u r hu hg hgood
  cases r with
  | ok a => exact hf u a hu hg (hgood a rfl)
  | error error => exact gives_error error u

end Plan

/-- The rows that resolving a record may create. -/
def Entity.Drafts (t : Tables) : Entity → Draft → Prop
  | .cluster c, d => ∃ key, c.key = .ok key ∧ d = .cluster key c.displayName
  | .parentPolicy p, d => ∃ key, p.key = .ok key ∧ d = .parentPolicy key
  | .policy p, d => ∃ key spec, p.key = .ok key ∧ d = .policy key spec ∧
      (p.specText = some spec ∨ p.specText = none ∧ spec ∈ t.specsOf key.specHash)

def Entity.Identified (x : Entity) (t : Tables) (id : Int) : Prop :=
  ∃ key, x.key = .ok key ∧ t.id? key = some id

section Resolution

variable {valid : Tables → Prop} {may : Call → Prop}

theorem gives_get_or_create (draft : Draft) (t : Tables) (hmay : may (.getOrCreate draft)) :
    (askStore (.getOrCreate draft)).Gives valid may (fun u id => u.id? draft.key = some id) t := by
  refine .act hmay ?_
  intro u answer _ _ ht
  cases answer with
  | ok id => exact Plan.gives_ok id u fun w _ hg => hg.ids _ _ (ht id rfl)
  | error error => exact Plan.gives_error _ u

/-- Only an id that the ledger gave is remembered. -/
theorem gives_settle_miss (key : NaturalKey) (attempt : Except ResolveError Int) (t : Tables)
    (h : ∀ id, attempt = .ok id → t.id? key = some id) :
    (settleMiss key attempt).Gives valid may (fun u id => u.id? key = some id) t := by
  cases attempt with
  | error error => exact .note (Plan.gives_error error t)
  | ok id =>
    refine .note (.note (.act (h id rfl) ?_))
    intro u _ _ hg _
    exact Plan.gives_ok id u fun w _ hg' => hg'.ids key id (hg.ids key id (h id rfl))

theorem gives_identify (key : NaturalKey) (fetch : Steps Int) (t : Tables)
    (hfetch : ∀ u, valid u → t.Grows u →
      fetch.Gives valid may (fun w id => w.id? key = some id) u) :
    (identify key fetch).Gives valid may (fun u id => u.id? key = some id) t := by
  refine .act trivial ?_
  intro u answer hu hg ht
  cases answer with
  | some id => exact .note (Plan.gives_ok id u fun w _ hg' => hg'.ids key id (ht id rfl))
  | none =>
    refine .note (Plan.Safe.bind (hfetch u hu hg) hu ?_)
    exact fun w attempt _ _ hid => gives_settle_miss key attempt w hid

/-- The specification for a new row is the policy's own or, where it has none, that of a row. -/
theorem gives_spec_for (p : Policy) (hash : String) (t : Tables) (hmay : may (.specByHash hash)) :
    (specFor p hash).Gives valid may (fun u spec =>
      p.specText = some spec ∨ p.specText = none ∧ spec ∈ u.specsOf hash) t := by
  unfold specFor
  split
  · next spec hspec =>
    split
    · exact Plan.gives_ok spec t fun _ _ _ => Or.inl hspec
    · exact Plan.gives_error _ t
  · next hspec =>
    refine .act hmay ?_
    intro u answer _ _ ht
    cases answer with
    | error error => exact Plan.gives_error _ u
    | ok found =>
      cases found with
      | none => exact Plan.gives_error _ u
      | some spec =>
        exact Plan.gives_ok spec u fun w _ hg => Or.inr ⟨hspec,hg.specs_of hash spec (ht spec rfl)⟩

theorem gives_resolve_keyed {κ : Type} (key : Except KeyFault κ) (natural : κ → NaturalKey)
    (fetch : κ → Steps Int) (t : Tables)
    (hfetch : ∀ k, key = .ok k → ∀ u, valid u → t.Grows u →
      (fetch k).Gives valid may (fun w id => w.id? (natural k) = some id) u) :
    (resolveKeyed key natural fetch).Gives valid may
      (fun u id => ∃ k, key.map natural = .ok k ∧ u.id? k = some id) t := by
  cases key with
  | error fault => exact Plan.gives_error _ t
  | ok k =>
    apply (gives_identify (natural k) (fetch k) t (hfetch k rfl)).weaken
    exact fun u r _ h id hr => ⟨natural k,rfl,h id hr⟩

/-- Resolving a record gives the id of its key. -/
theorem gives_resolve (x : Entity) (t : Tables)
    (hmay : ∀ u d, valid u → x.Drafts u d → may (.getOrCreate d))
    (hlook : ∀ hash, may (.specByHash hash)) : x.resolve.Gives valid may x.Identified t := by
  cases x with
  | cluster c =>
    apply gives_resolve_keyed
    exact fun key hk u hu _ => gives_get_or_create _ u (hmay u _ hu ⟨key,hk,rfl⟩)
  | parentPolicy p =>
    apply gives_resolve_keyed
    exact fun key hk u hu _ => gives_get_or_create _ u (hmay u _ hu ⟨key,hk,rfl⟩)
  | policy p =>
    apply gives_resolve_keyed
    intro key hk u hu _
    apply (gives_spec_for p key.specHash u (hlook _)).and_then hu
    exact fun w spec hw _ hspec => gives_get_or_create _ w (hmay w _ hw ⟨key,spec,hk,rfl,hspec⟩)

end Resolution

end ComplianceIntake.Identity
