import ComplianceIntake.Proofs.Identity.Paths
import ComplianceIntake.Proofs.Intake.SurrogateIds

/-!
# Concurrent first use

Requests that are in flight together may take their actions in any order, miss
the same key, and be dropped while they hold an id that no cache has yet. What
each of them relies on is kept by every turn of the others: its plan is safe,
what it was answered so far is true of the ledger, and its plan is where its
actions lead. So a key has one id, whoever asks for it first.
-/

set_option autoImplicit false

namespace ComplianceIntake.Identity

open ComplianceIntake.Event
open ComplianceIntake.Store

def Taken.Holds (t : Tables) (a : Taken) : Prop :=
  a.action.Allowed (fun _ => True) t ∧ a.action.Told t a.answer

theorem Taken.Holds.mono {t t' : Tables} {a : Taken} (h : a.Holds t) (hg : t.Grows t') :
    a.Holds t' :=
  ⟨h.1.mono hg,h.2.mono hg⟩

theorem Settles.id? {key : NaturalKey} {id : Int} {a : Taken} {t : Tables}
    (h : Settles key id a) (ha : a.Holds t) : t.id? key = some id := by
  rcases h with rfl | rfl
  · exact ha.2 id rfl
  · exact ha.1

theorem Entity.ResolvedIn.infix {x : Entity} {ts us : List Taken} {id : Int}
    (h : x.ResolvedIn ts id) (hin : ts <:+: us) : x.ResolvedIn us id := by
  obtain ⟨during,hd,hpath⟩ := h
  exact ⟨during,hd.trans hin,hpath⟩

theorem Entity.ResolvedIn.identified {x : Entity} {ts : List Taken} {id : Int} {t : Tables}
    (h : x.ResolvedIn ts id) (ht : ∀ a ∈ ts, a.Holds t) : x.Identified t id := by
  obtain ⟨during,hin,hpath⟩ := h
  obtain ⟨key,hkey,a,ha,hs⟩ := settles_of_resolve hpath
  exact ⟨key,hkey,hs.id? (ht a (hin.subset ha))⟩

/-- One step of a safe plan: the site is kept, and the rest of the plan is safe where it is left. -/
theorem Plan.Safe.step {ν α : Type} {valid : Tables → Prop} {may : Call → Prop}
    {post : Tables → α → Prop} (hp : Preserved valid may) (choice : SpecChoice) {p : Plan ν α}
    {s : Site Ledger} (h : p.Safe valid may post s.store.tables) (hs : s.Kept valid) :
    (p.step choice s).site.Kept valid ∧
      s.store.tables.Grows (p.step choice s).site.store.tables ∧
      (p.step choice s).value.Safe valid may post (p.step choice s).site.store.tables ∧
      ∀ a ∈ p.taken? choice s, a.Holds (p.step choice s).site.store.tables := by
  cases h with
  | done h => exact ⟨hs,.refl _,.done h,fun a ha => nomatch ha⟩
  | note h => exact ⟨hs,.refl _,h.settle,fun a ha => nomatch ha⟩
  | @act action next _ ha h =>
    obtain ⟨hk,hg,ht⟩ := action.perform_kept hp choice s hs ha
    have hheld : ∀ a ∈ (Plan.act action next).taken? choice s,
        a.Holds (action.perform choice s).2.store.tables := by
      intro a hm
      cases hm
      exact ⟨ha.any.mono hg,ht⟩
    exact ⟨hk,hg,(h _ _ hk.tables hg ht).settle,hheld⟩

end ComplianceIntake.Identity

namespace ComplianceIntake.Intake

open ComplianceIntake.Event
open ComplianceIntake.Store
open ComplianceIntake.Identity
open ComplianceIntake.Journal

section Paths

theorem follows_of_resolve_for {x : Entity} {id : Int} {ts : List Taken}
    (h : (resolveFor x).Follows ts (.done (.ok id))) : x.resolve.Follows ts (.done (.ok id)) := by
  obtain ⟨r,us,vs,rfl,hx,hr⟩ := h.of_bind
  match r with
  | .ok i =>
    obtain ⟨rfl,hi⟩ := Plan.follows_done hr
    cases hi
    rw [List.append_nil]
    exact hx
  | .error (.store error) =>
    cases hr with
    | note hr => exact nomatch (Plan.follows_done hr).2
  | .error (.unusable fault) => exact nomatch (Plan.follows_done hr).2
  | .error (.unknownSpec hash) => exact nomatch (Plan.follows_done hr).2

theorem resolved_in_of_resolve_parent {p : Option ParentPolicy} {id : Option Int} {ts : List Taken}
    (h : (resolveParent p).Follows ts (.done (.ok id))) :
    Option.Rel (fun p i => (Entity.parentPolicy p).ResolvedIn ts i) p id := by
  cases p with
  | none =>
    cases (Plan.follows_done h).2
    exact .none
  | some p =>
    obtain ⟨i,us,vs,rfl,hp,hd⟩ := h.of_and_then
    cases (Plan.follows_done hd).2
    exact .some ⟨us,(List.prefix_append us vs).isInfix,follows_of_resolve_for hp⟩

/-- The actions resolve each record of the event to the id that the receipt names. -/
structure ResolvesTo (ts : List Taken) (e : ComplianceEvent) (r : Receipt) : Prop where
  cluster : (Entity.cluster e.cluster).ResolvedIn ts r.clusterId
  parent : Option.Rel (fun p id => (Entity.parentPolicy p).ResolvedIn ts id)
    e.parentPolicy r.parentPolicyId
  policy : (Entity.policy e.policy).ResolvedIn ts r.policyId

theorem resolves_to_of_record {e : ComplianceEvent} {r : Receipt} {ts : List Taken}
    (h : (record e).Follows ts (.done (.ok r))) : ResolvesTo ts e r := by
  obtain ⟨clusterId,us,ts',rfl,hc,h⟩ := h.of_and_then
  obtain ⟨parentId,vs,ts'',rfl,hp,h⟩ := h.of_and_then
  obtain ⟨policyId,ws,ts,rfl,hq,h⟩ := h.of_and_then
  obtain ⟨eventId,xs,ys,rfl,_,h⟩ := h.of_and_then
  cases (Plan.follows_done h).2
  constructor
  · exact ⟨us,(List.prefix_append us _).isInfix,follows_of_resolve_for hc⟩
  · have hin : vs <:+: us ++ (vs ++ (ws ++ (xs ++ ys))) :=
      (List.prefix_append vs _).isInfix.trans (List.suffix_append us _).isInfix
    exact ComplianceEvent.rel_mono (resolved_in_of_resolve_parent hp) fun _ _ hr => hr.infix hin
  · have hin : ws <:+: us ++ (vs ++ (ws ++ (xs ++ ys))) :=
      ((List.prefix_append ws _).isInfix.trans (List.suffix_append vs _).isInfix).trans
        (List.suffix_append us _).isInfix
    exact ⟨ws,hin,follows_of_resolve_for hq⟩

theorem resolves_to_of_plan {p : Posting} {e : ComplianceEvent} {hash : String} {r : Receipt}
    {ts : List Taken} (ha : p.request.accepted = .ok e) (hv : e.Valid hash)
    (h : p.plan.Follows ts (.done (.ok r))) : ResolvesTo ts (e.completed p.moment.now hash) r := by
  rw [Posting.plan, ingest_of_accepted _ _ e hash ha hv] at h
  obtain ⟨v,us,vs,rfl,hrecord,hend⟩ := h.of_bind
  cases hend with
  | note hend =>
  cases hend with
  | note hend =>
  obtain ⟨rfl,hvr⟩ := Plan.follows_done hend
  cases hvr
  rw [List.append_nil]
  exact resolves_to_of_record hrecord

end Paths

namespace Exchange

def row? (x : Exchange) : Option EventRow := x.receipt?.map Receipt.row

structure Kept (t : Tables) (x : Exchange) : Prop where
  safe : x.plan.Gives Tables.Sound (fun _ => True) x.posting.Answered t
  held : ∀ a ∈ x.taken, a.Holds t
  commits : Commits x.plan ∨ ∃ r, x.plan = .done (.ok r)
  path : x.posting.plan.Follows x.taken x.plan
  dropped : x.dropped = true → x.verdict? = none

theorem Kept.mono {t t' : Tables} {x : Exchange} (h : x.Kept t) (hg : t.Grows t') : x.Kept t' :=
  ⟨h.safe.mono hg,fun a ha => (h.held a ha).mono hg,h.commits,h.path,h.dropped⟩

theorem plan_of_receipt? {x : Exchange} {r : Receipt} (h : x.receipt? = some r) :
    x.plan = .done (.ok r) := by
  unfold receipt? verdict? at h
  match hp : x.plan with
  | .done (.ok s) =>
    rw [hp] at h
    cases h
    rfl
  | .done (.error _) => exact nomatch hp ▸ h
  | .note _ _ => exact nomatch hp ▸ h
  | .act _ _ => exact nomatch hp ▸ h

theorem Kept.answered {t : Tables} {x : Exchange} (h : x.Kept t) (ht : t.Sound) {r : Receipt}
    (hr : x.receipt? = some r) : x.posting.Answered t r := by
  have hs := h.safe
  rw [plan_of_receipt? hr] at hs
  cases hs with
  | done hs => exact hs t ht (.refl t) r rfl

theorem Kept.not_dropped {t : Tables} {x : Exchange} (h : x.Kept t) {r : Receipt}
    (hr : x.receipt? = some r) : x.dropped = false := by
  by_contra hd
  have hv := h.dropped (Bool.eq_true_of_not_eq_false hd)
  rw [receipt?, hv] at hr
  exact nomatch hr

theorem kept_of_posting (p : Posting) (t : Tables) (ht : t.Sound) : (ofPosting p).Kept t := by
  constructor
  · exact (gives_plan p (entitles_all _ p) t ht).settle
  · exact fun a ha => absurd ha List.not_mem_nil
  · exact Or.inl (commits_plan p).settle
  · exact Plan.follows_settle p.plan
  · exact fun hd => nomatch hd

theorem row?_of_posting (p : Posting) : (ofPosting p).row? = none := by
  have hn : receiptOf p.plan.settle.1 = none := (commits_plan p).settle.receipt_of_eq_none
  exact congrArg (Option.map Receipt.row) hn

theorem Kept.drop {t : Tables} {x : Exchange} (h : x.Kept t) : x.drop.Kept t := by
  unfold Exchange.drop
  split
  · exact h
  · next hv => exact ⟨h.safe,h.held,h.commits,h.path,fun _ => Option.not_isSome_iff_eq_none.mp hv⟩

theorem row?_drop (x : Exchange) : x.drop.row? = x.row? := by
  unfold Exchange.drop
  split <;> rfl

/-- A step of a request appends the row that the request yields by it. -/
theorem Kept.row?_step {t : Tables} {x : Exchange} (h : x.Kept t) (s : Site Ledger) :
    ∃ added, (x.plan.step x.posting.choice s).site.store.tables.events =
        s.store.tables.events ++ added ∧
      (x.step s).row?.toList = x.row?.toList ++ added ∧
      (Commits (x.step s).plan ∨ ∃ r, (x.step s).plan = .done (.ok r)) := by
  rcases h.commits with hc | ⟨r,hr⟩
  · obtain ⟨hev,hc'⟩ := hc.step x.posting.choice s
    have hnone : x.row? = none := congrArg (Option.map Receipt.row) hc.receipt_of_eq_none
    have hrow : (x.step s).row?.toList = x.row?.toList ++ (x.step s).row?.toList := by
      rw [hnone]
      rfl
    exact ⟨_,hev,hrow,hc'⟩
  · -- An answered request has nothing left to do.
    have hplan : (x.step s).plan = .done (.ok r) := by
      rw [step, hr]
      rfl
    have hev : (x.plan.step x.posting.choice s).site.store.tables.events =
        s.store.tables.events ++ [] := by
      rw [hr, List.append_nil]
      rfl
    have hrow : (x.step s).row?.toList = x.row?.toList ++ [] := by
      rw [List.append_nil, row?, row?, receipt?, receipt?, verdict?, verdict?, hplan, hr]
    exact ⟨[],hev,hrow,Or.inr ⟨r,hplan⟩⟩

theorem Kept.step {x : Exchange} {s : Site Ledger} (h : x.Kept s.store.tables)
    (hs : s.Kept Tables.Sound) (hd : x.dropped = false) :
    (x.plan.step x.posting.choice s).site.Kept Tables.Sound ∧
      s.store.tables.Grows (x.plan.step x.posting.choice s).site.store.tables ∧
      (x.step s).Kept (x.plan.step x.posting.choice s).site.store.tables := by
  obtain ⟨hk,hg,hsafe,hheld⟩ := h.safe.step preserved_sound x.posting.choice hs
  obtain ⟨_,_,_,hcommits⟩ := h.row?_step s
  have hall : ∀ a ∈ (x.step s).taken,
      a.Holds (x.plan.step x.posting.choice s).site.store.tables := by
    intro a ha
    rcases List.mem_append.mp ha with ha | ha
    · exact (h.held a ha).mono hg
    · exact hheld a (Option.mem_toList.mp ha)
  have hpath := h.path.trans (Plan.follows_step x.posting.choice x.plan s)
  have hdropped : (x.step s).dropped = true → (x.step s).verdict? = none :=
    fun ht => absurd (hd.symm.trans ht) Bool.false_ne_true
  exact ⟨hk,hg,hsafe,hall,hcommits,hpath,hdropped⟩

end Exchange

theorem perm_filter_map_set {α β : Type} (f : α → Option β) (added : List β) (l : List α) (i : Nat)
    (x y : α) (hx : l[i]? = some x) (hy : (f y).toList = (f x).toList ++ added) :
    ((l.set i y).filterMap f).Perm (l.filterMap f ++ added) := by
  have hcons : ∀ a (m : List α), (a :: m).filterMap f = (f a).toList ++ m.filterMap f := by
    intro a m
    rw [List.filterMap_cons]
    cases f a <;> rfl
  induction l generalizing i with
  | nil => exact nomatch hx
  | cons a l ih =>
    cases i with
    | zero =>
      cases hx
      rw [List.set_cons_zero, hcons, hcons, hy, List.append_assoc, List.append_assoc]
      exact List.perm_append_comm.append_left _
    | succ i =>
      rw [List.set_cons_succ, hcons, hcons, List.append_assoc]
      exact (ih i hx).append_left _

namespace Traffic

structure Kept (t : Traffic) : Prop where
  fleet : t.fleet.Kept Tables.Sound
  exchanges : ∀ x ∈ t.exchanges, x.Kept t.tables
  events : t.tables.events.Perm (t.exchanges.filterMap Exchange.row?)

theorem kept_empty : ({} : Traffic).Kept :=
  ⟨.new Tables.sound_empty,fun _ h => absurd h List.not_mem_nil,List.Perm.refl _⟩

variable {t : Traffic}

theorem Kept.set (h : t.Kept) {f : Fleet Ledger} {i : Nat} {x y : Exchange} {added : List EventRow}
    (hx : t.exchanges[i]? = some x) (hf : f.Kept Tables.Sound)
    (hg : t.tables.Grows f.store.tables) (hy : y.Kept f.store.tables)
    (hev : f.store.tables.events = t.tables.events ++ added)
    (hrow : y.row?.toList = x.row?.toList ++ added) :
    ({ fleet := f, exchanges := t.exchanges.set i y } : Traffic).Kept := by
  constructor
  · exact hf
  · intro z hz
    rcases List.mem_or_eq_of_mem_set hz with hz | rfl
    · exact (h.exchanges z hz).mono hg
    · exact hy
  · show f.store.tables.events.Perm _
    rw [hev]
    have hset := perm_filter_map_set Exchange.row? added t.exchanges i x y hx hrow
    exact (h.events.append_right added).trans hset.symm

theorem Kept.advance (h : t.Kept) {i : Nat} {x : Exchange} (hx : t.exchanges[i]? = some x)
    (hd : x.dropped = false) :
    (t.advance i x).Kept ∧ t.tables.Grows (t.advance i x).tables := by
  have hxk := h.exchanges x (List.mem_of_getElem? hx)
  obtain ⟨hk,hg,hstep⟩ := hxk.step (h.fleet.site x.posting.replica) hd
  obtain ⟨added,hev,hrow,_⟩ := hxk.row?_step (t.fleet.site x.posting.replica)
  exact ⟨h.set hx (h.fleet.set_site x.posting.replica _ hk hg) hg hstep hev hrow,hg⟩

theorem Kept.turn (h : t.Kept) (u : Turn) : (t.turn u).Kept ∧ t.tables.Grows (t.turn u).tables := by
  cases u with
  | setAvailable on => exact ⟨⟨h.fleet.set_available on,h.exchanges,h.events⟩,.refl _⟩
  | arrive p =>
    have hkept : ∀ x ∈ t.exchanges ++ [Exchange.ofPosting p], x.Kept t.tables := by
      intro x hx
      rcases List.mem_append.mp hx with hx | hx
      · exact h.exchanges x hx
      · rw [List.mem_singleton.mp hx]
        exact Exchange.kept_of_posting p _ h.fleet.tables
    have hrows : (t.exchanges ++ [Exchange.ofPosting p]).filterMap Exchange.row? =
        t.exchanges.filterMap Exchange.row? := by
      simp [Exchange.row?_of_posting]
    exact ⟨⟨h.fleet,hkept,h.events.trans (.of_eq hrows.symm)⟩,.refl _⟩
  | step i =>
    rw [Traffic.turn]
    split
    · next x hx =>
      split
      · exact ⟨h,.refl _⟩
      · next hd => exact h.advance hx (Bool.eq_false_of_not_eq_true hd)
    · exact ⟨h,.refl _⟩
  | drop i =>
    rw [Traffic.turn]
    split
    · next x hx =>
      have hxk := h.exchanges x (List.mem_of_getElem? hx)
      have hrow : x.drop.row?.toList = x.row?.toList ++ [] := by
        rw [Exchange.row?_drop, List.append_nil]
      exact ⟨h.set hx h.fleet (.refl _) hxk.drop (List.append_nil _).symm hrow,.refl _⟩
    · exact ⟨h,.refl _⟩

theorem Kept.turns (h : t.Kept) (us : List Turn) :
    (t.turns us).Kept ∧ t.tables.Grows (t.turns us).tables := by
  induction us generalizing t with
  | nil => exact ⟨h,.refl _⟩
  | cons u us ih =>
    obtain ⟨hk,hg⟩ := h.turn u
    obtain ⟨hk',hg'⟩ := ih hk
    exact ⟨hk',hg.trans hg'⟩

/-- Whatever two requests resolved a key to, it is the same id. -/
theorem Kept.resolved_unique (h : t.Kept) {x y : Exchange} (hx : x ∈ t.exchanges)
    (hy : y ∈ t.exchanges) {a b : Entity} {i j : Int} (ha : x.Resolved a i) (hb : y.Resolved b j)
    (hab : a.key = b.key) : i = j := by
  obtain ⟨key,hk,hi⟩ := ha.identified (h.exchanges x hx).held
  obtain ⟨key',hk',hj⟩ := hb.identified (h.exchanges y hy).held
  rw [hab, hk'] at hk
  cases hk
  exact Option.some.inj (hi.symm.trans hj)

/-- An answered request was not dropped, its receipt is true of the tables, and the ids in it are
those to which it resolved its records. -/
theorem Kept.answered (h : t.Kept) {x : Exchange} (hx : x ∈ t.exchanges) {r : Receipt}
    (hr : x.receipt? = some r) : x.dropped = false ∧
      ∃ e hash, x.posting.request.accepted = .ok e ∧
        e.Recorded x.posting.moment.now hash t.tables r ∧
        ResolvesTo x.taken (e.completed x.posting.moment.now hash) r := by
  have hxk := h.exchanges x hx
  obtain ⟨e,hash,ha,hv,hrec⟩ := hxk.answered h.fleet.tables hr
  have hpath := hxk.path
  rw [Exchange.plan_of_receipt? hr] at hpath
  exact ⟨hxk.not_dropped hr,e,hash,ha,hrec,resolves_to_of_plan ha hv hpath⟩

end Traffic

/-- However requests in flight take their actions in between each other, are dropped, or find the
ledger unavailable: caches hold rows of the ledger, a key has one row for good and one id for all
who resolve it, and the events are those of the answered requests, each inserted once. -/
theorem concurrent_first_use_safe (us : List Turn) :
    let t := ({} : Traffic).turns us
    (∀ i, ∀ entry ∈ (t.fleet.caches i).entries, entry ∈ t.tables.rows) ∧
    ((t.tables.rows.map (·.1)).Nodup ∧
      ∀ us', ∀ row ∈ t.tables.rows, row ∈ (t.turns us').tables.rows) ∧
    (∀ x ∈ t.exchanges, ∀ y ∈ t.exchanges, ∀ a b i j,
      x.Resolved a i → y.Resolved b j → a.key = b.key → i = j) ∧
    t.tables.events.Perm (t.exchanges.filterMap Exchange.row?) ∧
    (t.tables.events.map (·.id)).Nodup ∧
    ∀ x ∈ t.exchanges, ∀ r, x.receipt? = some r → x.dropped = false ∧
      ∃ e hash, x.posting.request.accepted = .ok e ∧
        e.Recorded x.posting.moment.now hash t.tables r ∧
        ResolvesTo x.taken (e.completed x.posting.moment.now hash) r := by
  intro t
  have ht : t.Kept := (Traffic.kept_empty.turns us).1
  have hsound := ht.fleet.tables
  have hcaches : ∀ i, ∀ entry ∈ (t.fleet.caches i).entries, entry ∈ t.tables.rows := by
    intro i entry hentry
    exact t.tables.mem_rows_of_id? _ _ (ht.fleet.caches i entry.1 entry.2 hentry)
  have hrows : ∀ us', ∀ row ∈ t.tables.rows, row ∈ (t.turns us').tables.rows := by
    intro us' row hrow
    have hid := (hsound.id?_eq_some_iff row.1 row.2).mpr hrow
    have hlater := (ht.turns us').2.ids row.1 row.2 hid
    exact (t.turns us').tables.mem_rows_of_id? _ _ hlater
  have hunique : ∀ x ∈ t.exchanges, ∀ y ∈ t.exchanges, ∀ a b i j,
      x.Resolved a i → y.Resolved b j → a.key = b.key → i = j := by
    intro x hx y hy a b i j ha hb hab
    exact ht.resolved_unique hx hy ha hb hab
  exact ⟨hcaches,⟨hsound.keys,hrows⟩,hunique,ht.events,hsound.events_nodup,
    fun x hx r hr => ht.answered hx hr⟩

def race : List Turn :=
  [.arrive spelling, .arrive otherSpelling] ++ (List.replicate 10 [.step 0, .step 1]).flatten

theorem concurrent_first_use_of_race :
    let t := ({} : Traffic).turns race
    ∃ r s, t.exchanges.map Exchange.receipt? = [some r, some s] ∧ r.clusterId = s.clusterId := by
  intro t
  obtain ⟨_,_,hunique,_,_,hanswered⟩ := concurrent_first_use_safe race
  have hok : t.exchanges.map (fun x => x.receipt?.isSome) = [true, true] := by decide +kernel
  have hkeys : spelling.request.accepted.toOption.map (fun e => (Entity.cluster e.cluster).key) =
      otherSpelling.request.accepted.toOption.map (fun e => (Entity.cluster e.cluster).key) := by
    decide +kernel
  obtain ⟨x,y,hxy,hx,hy⟩ : ∃ x y, t.exchanges = [x, y] ∧ x.posting = spelling ∧
      y.posting = otherSpelling := ⟨_,_,rfl,rfl,rfl⟩
  change ∀ x ∈ t.exchanges, ∀ y ∈ t.exchanges, _ at hunique
  change ∀ x ∈ t.exchanges, _ at hanswered
  rw [hxy] at hok hunique hanswered ⊢
  obtain ⟨r,hr⟩ := Option.isSome_iff_exists.mp (List.cons.inj hok).1
  obtain ⟨s,hs⟩ := Option.isSome_iff_exists.mp (List.cons.inj (List.cons.inj hok).2).1
  have hmx : x ∈ [x, y] := List.mem_cons_self
  have hmy : y ∈ [x, y] := List.mem_cons_of_mem _ List.mem_cons_self
  obtain ⟨_,d,_,hd,_,hrd⟩ := hanswered x hmx r hr
  obtain ⟨_,e,_,he,_,hse⟩ := hanswered y hmy s hs
  rw [hx] at hd
  rw [hy] at he
  rw [hd, he] at hkeys
  have hids := hunique x hmx y hmy _ _ _ _ hrd.cluster hse.cluster (Option.some.inj hkeys)
  exact ⟨r,s,by simp [hr, hs],hids⟩

end ComplianceIntake.Intake
