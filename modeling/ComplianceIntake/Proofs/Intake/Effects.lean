import ComplianceIntake.Proofs.Intake.Stages

/-!
# What a request leaves behind

Recording a valid event on an available ledger obtains the row of its cluster,
of its parent policy and of its policy, one after the other, and then inserts
the event. If the policy's specification cannot be found, then the first two
rows are all that was obtained: no policy and no event is there that was not
there before.
-/

set_option autoImplicit false

namespace ComplianceIntake.Store

open ComplianceIntake.Event

namespace Tables

theorem policies_get_or_create_of_kind (t : Tables) (draft : Draft) (h : draft.key.kind ≠ .policy) :
    (t.getOrCreate draft).2.policies = t.policies := by
  unfold getOrCreate
  split
  · exact t.policies_update draft
  · cases draft with
    | cluster key name => rfl
    | parentPolicy key => rfl
    | policy key spec => exact absurd rfl h

def without (t : Tables) (keys : List NaturalKey) : Tables where
  clusters := t.clusters.filter fun row => .cluster row.key ∉ keys
  parentPolicies := t.parentPolicies.filter fun row => .parentPolicy row.key ∉ keys
  policies := t.policies.filter fun row => .policy row.key ∉ keys
  events := t.events

variable {keys : List NaturalKey} {draft : Draft}

theorem without_update (t : Tables) (h : draft.key ∈ keys) :
    (t.update draft).without keys = t.without keys := by
  cases draft with
  | cluster key name =>
    have hrows : (t.clusters.map (rename key name)).filter (fun row => .cluster row.key ∉ keys) =
        t.clusters.filter fun row => .cluster row.key ∉ keys := by
      induction t.clusters with
      | nil => rfl
      | cons row rows ih =>
        rw [List.map_cons, List.filter_cons, List.filter_cons, rename_key, ih]
        by_cases hkey : row.key = key
        · have hin : NaturalKey.cluster row.key ∈ keys := hkey ▸ h
          simp [hin]
        · rw [rename, if_neg hkey]
    simp only [update, without, hrows]
  | parentPolicy key => rfl
  | policy key spec => rfl

theorem without_create (t : Tables) (h : draft.key ∈ keys) :
    (t.create draft).without keys = t.without keys := by
  cases draft <;> simp_all [create, without, Draft.key, List.filter_append]

theorem without_get_or_create (t : Tables) (h : draft.key ∈ keys) :
    (t.getOrCreate draft).2.without keys = t.without keys := by
  unfold getOrCreate
  split
  · exact t.without_update h
  · exact t.without_create h

end Tables

end ComplianceIntake.Store

namespace ComplianceIntake.Identity

open ComplianceIntake.Event
open ComplianceIntake.Store
open ComplianceIntake.Journal

theorem Cache.filter_insert (c : Cache) (seen : NaturalKey → Prop) [DecidablePred seen]
    {key : NaturalKey} (id : Int) (h : ¬ seen key) :
    (c.insert key id).entries.filter (fun entry => seen entry.1) =
      c.entries.filter fun entry => seen entry.1 := by
  unfold Cache.insert
  rw [List.filter_cons_of_neg (by simpa using h), List.filter_filter]
  apply List.filter_congr
  intro entry _
  by_cases hk : entry.1 = key
  · simp [hk, h]
  · simp [hk]

def Cache.policies (c : Cache) : List (NaturalKey × Int) := c.entries.filter (·.1.kind = .policy)

theorem Cache.policies_insert (c : Cache) (key : NaturalKey) (id : Int) (h : key.kind ≠ .policy) :
    (c.insert key id).policies = c.policies :=
  c.filter_insert (·.kind = .policy) id h

def Cache.without (c : Cache) (keys : List NaturalKey) : Cache := ⟨c.entries.filter (·.1 ∉ keys)⟩

theorem Cache.without_insert (c : Cache) {keys : List NaturalKey} {key : NaturalKey} (id : Int)
    (h : key ∈ keys) : (c.insert key id).without keys = c.without keys :=
  congrArg Cache.mk (c.filter_insert (· ∉ keys) id (not_not_intro h))

structure Untouched (c : Cache) (t : Tables) (c' : Cache) (t' : Tables) : Prop where
  policies : t'.policies = t.policies
  events : t'.events = t.events
  entries : c'.policies = c.policies

theorem Untouched.refl (c : Cache) (t : Tables) : Untouched c t c t := ⟨rfl,rfl,rfl⟩

theorem Untouched.trans {c c' c'' : Cache} {t t' t'' : Tables} (h : Untouched c t c' t')
    (h' : Untouched c' t' c'' t'') : Untouched c t c'' t'' :=
  ⟨h'.policies.trans h.policies,h'.events.trans h.events,h'.entries.trans h.entries⟩

theorem Untouched.knows_iff {c c' : Cache} {t t' : Tables} (h : Untouched c t c' t')
    (hash : String) : t'.Knows hash ↔ t.Knows hash := by
  rw [Tables.Knows, Tables.Knows, h.policies]

theorem Untouched.specs_of_eq {c c' : Cache} {t t' : Tables} (h : Untouched c t c' t')
    (hash : String) : t'.specsOf hash = t.specsOf hash := by
  rw [Tables.specsOf, Tables.specsOf, h.policies]

theorem Obtained.untouched {d : Draft} {c c' : Cache} {t t' : Tables} {id : Int}
    (h : Obtained d c t id c' t') (hk : d.key.kind ≠ .policy) : Untouched c t c' t' := by
  cases h with
  | hit h => exact .refl c t
  | miss h =>
    exact ⟨t.policies_get_or_create_of_kind d hk,t.events_get_or_create d,c.policies_insert _ _ hk⟩

theorem Obtained.without {d : Draft} {c c' : Cache} {t t' : Tables} {id : Int}
    (h : Obtained d c t id c' t') {keys : List NaturalKey} (hd : d.key ∈ keys) :
    c'.without keys = c.without keys ∧ t'.without keys = t.without keys := by
  cases h with
  | hit h => exact ⟨rfl,rfl⟩
  | miss h => exact ⟨c.without_insert _ hd,t.without_get_or_create hd⟩

/-- Rows are obtained for drafts, one after the other. -/
inductive ObtainedAll : List Draft → Cache → Tables → Cache → Tables → Prop
  | nil (c : Cache) (t : Tables) : ObtainedAll [] c t c t
  | cons {d : Draft} {ds : List Draft} {id : Int} {c c' c'' : Cache} {t t' t'' : Tables}
      (h : Obtained d c t id c' t') (rest : ObtainedAll ds c' t' c'' t'') :
      ObtainedAll (d :: ds) c t c'' t''

namespace ObtainedAll

variable {ds es : List Draft} {c c' c'' : Cache} {t t' t'' : Tables}

theorem append (h : ObtainedAll ds c t c' t') (h' : ObtainedAll es c' t' c'' t'') :
    ObtainedAll (ds ++ es) c t c'' t'' := by
  induction h with
  | nil c t => exact h'
  | cons hd _ ih => exact .cons hd (ih h')

theorem of_append (h : ObtainedAll (ds ++ es) c t c'' t'') :
    ∃ c' t', ObtainedAll ds c t c' t' ∧ ObtainedAll es c' t' c'' t'' := by
  induction ds generalizing c t with
  | nil => exact ⟨c,t,.nil c t,h⟩
  | cons d ds ih =>
    cases h with
    | cons hd hrest =>
      obtain ⟨c',t',hds,hes⟩ := ih hrest
      exact ⟨c',t',.cons hd hds,hes⟩

theorem single {d : Draft} {id : Int} (h : Obtained d c t id c' t') : ObtainedAll [d] c t c' t' :=
  .cons h (.nil c' t')

theorem grows (h : ObtainedAll ds c t c' t') : t.Grows t' := by
  induction h with
  | nil c t => exact .refl t
  | cons hd _ ih => exact hd.grows.trans ih

theorem sound (h : ObtainedAll ds c t c' t') (ht : t.Sound) : t'.Sound := by
  induction h with
  | nil c t => exact ht
  | cons hd _ ih => exact ih (hd.sound ht)

theorem agrees (h : ObtainedAll ds c t c' t') (hc : c.Agrees t) : c'.Agrees t' := by
  induction h with
  | nil c t => exact hc
  | cons hd _ ih => exact ih (hd.agrees hc)

theorem untouched (h : ObtainedAll ds c t c' t') (hk : ∀ d ∈ ds, d.key.kind ≠ .policy) :
    Untouched c t c' t' := by
  induction h with
  | nil c t => exact .refl c t
  | @cons d ds _ _ _ _ _ _ _ hd _ ih =>
    have hrest : ∀ d' ∈ ds, d'.key.kind ≠ .policy := fun d' h' => hk d' (List.mem_cons_of_mem d h')
    exact (hd.untouched (hk d List.mem_cons_self)).trans (ih hrest)

/-- Nothing changes but the rows and the entries of the drafts' own keys. -/
theorem without (h : ObtainedAll ds c t c' t') {keys : List NaturalKey}
    (hk : ∀ d ∈ ds, d.key ∈ keys) :
    c'.without keys = c.without keys ∧ t'.without keys = t.without keys := by
  induction h with
  | nil c t => exact ⟨rfl,rfl⟩
  | @cons d ds _ _ _ _ _ _ _ hd _ ih =>
    obtain ⟨hc,ht⟩ := hd.without (hk d List.mem_cons_self)
    obtain ⟨hc',ht'⟩ := ih fun d' h' => hk d' (List.mem_cons_of_mem d h')
    exact ⟨hc'.trans hc,ht'.trans ht⟩

end ObtainedAll

theorem Entity.drafts_of_draft {choice : SpecChoice} {t : Tables} {x : Entity} {key : NaturalKey}
    (h : x.Keyed key) {d : Draft} (hd : x.draft choice t = .ok d) : x.Drafts t d := by
  cases h with
  | cluster h =>
    cases hd
    exact ⟨_,h,rfl⟩
  | parentPolicy h =>
    cases hd
    exact ⟨_,h,rfl⟩
  | @policy p k h hspec =>
    simp only [draft, h] at hd
    cases hin : specIn choice t p k.specHash with
    | error e =>
      rw [hin] at hd
      contradiction
    | ok spec =>
      rw [hin] at hd
      cases hd
      refine ⟨k,spec,h,rfl,?_⟩
      unfold specIn at hin
      cases hp : p.specText with
      | some own =>
        simp only [hp, Except.ok.injEq] at hin
        exact Or.inl (congrArg some hin)
      | none =>
        simp only [hp] at hin
        split at hin
        · next found hfound =>
          cases hin
          exact Or.inr ⟨rfl,choice.pick?_mem _ _ hfound⟩
        · contradiction

/-- Only a policy that comes with an unknown hash alone has no draft. -/
theorem Entity.unknown_of_draft {choice : SpecChoice} {t : Tables} {x : Entity} {key : NaturalKey}
    (h : x.Keyed key) {e : ResolveError} (he : x.draft choice t = .error e) :
    ∃ p k, x = .policy p ∧ key = .policy k ∧ p.specText = none ∧ ¬ t.Knows k.specHash ∧
      e = .unknownSpec k.specHash := by
  cases h with
  | cluster h => contradiction
  | parentPolicy h => contradiction
  | @policy p k h hspec =>
    simp only [draft, h] at he
    cases hin : specIn choice t p k.specHash with
    | ok spec =>
      rw [hin] at he
      contradiction
    | error e' =>
      rw [hin] at he
      cases he
      obtain ⟨hnone,hunknown,he'⟩ := (spec_in_eq_error_iff choice t p _ _).mp hin
      exact ⟨p,k,rfl,rfl,hnone,hunknown,he'⟩

end ComplianceIntake.Identity

namespace ComplianceIntake.Event

open ComplianceIntake.Store

def ComplianceEvent.ownerDrafts (e : ComplianceEvent) : List Draft :=
  .cluster e.cluster.naturalKey e.cluster.displayName ::
    (e.parentPolicy.map fun p => Draft.parentPolicy p.naturalKey).toList

theorem ComplianceEvent.kind_owner_drafts (e : ComplianceEvent) :
    ∀ d ∈ e.ownerDrafts, d.key.kind ≠ .policy := by
  intro d hd
  simp only [ownerDrafts, List.mem_cons, Option.mem_toList, Option.map_eq_some_iff] at hd
  rcases hd with rfl | ⟨p,_,rfl⟩ <;> simp [Draft.key, NaturalKey.kind]

end ComplianceIntake.Event

namespace ComplianceIntake.Intake

open ComplianceIntake.Event
open ComplianceIntake.Store
open ComplianceIntake.Identity
open ComplianceIntake.Journal

variable (choice : SpecChoice) {s : Site Ledger} {c : Cache} {t : Tables}

theorem resolve_for_obtains {x : Entity} {key : NaturalKey} (h : x.Keyed key) (hs : s.Holds c t)
    (hc : c.Agrees t) :
    (∃ d id c' t', x.draft choice t = .ok d ∧ (resolveFor x).ComesTo choice s (.ok id) c' t' ∧
      Obtained d c t id c' t') ∨
    ∃ p k, x = .policy p ∧ key = .policy k ∧ p.specText = none ∧ ¬ t.Knows k.specHash ∧
      (resolveFor x).ComesTo choice s (.error (.unresolved (.unknownSpec k.specHash))) c t := by
  rcases resolve_obtains choice h hs hc with
    ⟨d,id,c',t',hd,⟨s',hres,hs'⟩,hgot⟩ | ⟨e,he,s',hres,hs'⟩
  · have hfor : (resolveFor x).result choice s = (.ok id, s') := by
      rw [resolveFor, Plan.result_bind, hres]
      rfl
    exact Or.inl ⟨d,id,c',t',hd,⟨s',hfor,hs'⟩,hgot⟩
  · obtain ⟨p,k,hx,hkey,hnone,hunknown,rfl⟩ := Entity.unknown_of_draft h he
    have hfor : (resolveFor x).result choice s =
        (.error (.unresolved (.unknownSpec k.specHash)), s') := by
      rw [resolveFor, Plan.result_bind, hres]
      rfl
    exact Or.inr ⟨p,k,hx,hkey,hnone,hunknown,s',hfor,hs'⟩

theorem resolve_cluster_obtains {e : ComplianceEvent} {hash : String} (h : e.Valid hash)
    (hs : s.Holds c t) (hc : c.Agrees t) :
    ∃ id c' t', (resolveFor (.cluster e.cluster)).ComesTo choice s (.ok id) c' t' ∧
      Obtained (.cluster e.cluster.naturalKey e.cluster.displayName) c t id c' t' := by
  rcases resolve_for_obtains choice h.keyed_cluster hs hc with
    ⟨d,id,c',t',hd,hto,hgot⟩ | ⟨p,k,hx,_⟩
  · cases hd
    exact ⟨id,c',t',hto,hgot⟩
  · contradiction

theorem resolve_parent_obtains {e : ComplianceEvent} {hash : String} (h : e.Valid hash)
    (hs : s.Holds c t) (hc : c.Agrees t) :
    ∃ id c' t', (resolveParent e.parentPolicy).ComesTo choice s (.ok id) c' t' ∧
      ObtainedAll (e.parentPolicy.map fun p => Draft.parentPolicy p.naturalKey).toList
        c t c' t' := by
  cases hp : e.parentPolicy with
  | none => exact ⟨none,c,t,⟨s,rfl,hs⟩,.nil c t⟩
  | some p =>
    rcases resolve_for_obtains choice (h.keyed_parent hp) hs hc with
      ⟨d,id,c',t',hd,⟨s',hres,hs'⟩,hgot⟩ | ⟨q,k,hx,_⟩
    · cases hd
      exact ⟨some id,c',t',⟨s',Plan.result_and_then_ok choice _ hres,hs'⟩,.single hgot⟩
    · contradiction

/-- What recording a valid event on an available ledger comes to. -/
theorem record_obtains {e : ComplianceEvent} {hash : String} (h : e.Valid hash)
    (hs : s.Holds c t) (hc : c.Agrees t) :
    (∃ r d c' t', (Entity.policy e.policy).Drafts t d ∧
      ObtainedAll (e.ownerDrafts ++ [d]) c t c' t' ∧
      (record e).ComesTo choice s (.ok r) c' (t'.insertEvent r.row.record).2 ∧
      r.eventId = (t'.insertEvent r.row.record).1 ∧ r.event = e.withoutSpec) ∨
    ∃ c' t', ObtainedAll e.ownerDrafts c t c' t' ∧
      (record e).ComesTo choice s (.error (.unresolved (.unknownSpec hash))) c' t' ∧
      e.policy.specText = none ∧ ¬ t.Knows hash := by
  obtain ⟨clusterId,c₁,t₁,⟨s₁,hres₁,hs₁⟩,hgot₁⟩ := resolve_cluster_obtains choice h hs hc
  have hc₁ := hgot₁.agrees hc
  obtain ⟨parentId,c₂,t₂,⟨s₂,hres₂,hs₂⟩,hgot₂⟩ := resolve_parent_obtains choice h hs₁ hc₁
  have howners : ObtainedAll e.ownerDrafts c t c₂ t₂ := .cons hgot₁ hgot₂
  have hu := howners.untouched e.kind_owner_drafts
  unfold record Plan.ComesTo
  simp only [Plan.result_and_then_ok choice _ hres₁, Plan.result_and_then_ok choice _ hres₂]
  rcases resolve_for_obtains choice h.keyed_policy hs₂ (hgot₂.agrees hc₁) with
    ⟨d,policyId,c₃,t₃,hd,⟨s₃,hres₃,hs₃⟩,hgot₃⟩ | ⟨p,k,hx,hk,hnone,hunknown,s₃,hres₃,hs₃⟩
  · have hinsert := result_insert_event choice ⟨clusterId, parentId, policyId, e.details⟩
      hs₃.available
    simp only [Plan.result_and_then_ok choice _ hres₃, Plan.result_and_then_ok choice _ hinsert]
    obtain ⟨key,spec,hkey,hd',hspec⟩ := Entity.drafts_of_draft h.keyed_policy hd
    rw [hu.specs_of_eq] at hspec
    have hrow : s₃.store.tables = t₃ := hs₃.tables
    subst hrow
    exact Or.inl ⟨_,d,c₃,_,⟨key,spec,hkey,hd',hspec⟩,howners.append (.single hgot₃),
      ⟨_,rfl,hs₃.cache,rfl,hs₃.available⟩,rfl,rfl⟩
  · cases hx
    cases hk
    simp only [Plan.result_and_then_error choice _ hres₃]
    have hbefore : ¬ t.Knows hash := fun hknown => hunknown ((hu.knows_iff hash).mpr hknown)
    exact Or.inr ⟨c₂,t₂,howners,⟨s₃,rfl,hs₃⟩,hnone,hbefore⟩

end ComplianceIntake.Intake
