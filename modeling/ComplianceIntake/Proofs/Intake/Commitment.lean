import ComplianceIntake.Intake.Traffic
import ComplianceIntake.Proofs.Intake.Recording

/-!
# One row for each receipt

The plan of a request inserts an event exactly when it ends with a receipt, and
then the row is the receipt's: resolving the records inserts nothing, and once
the event is inserted nothing is left to do but to make notes. The table of
events therefore grows by the row of the receipt, and by nothing where there is
none, both when a plan is run to its end and when it takes one step.
-/

set_option autoImplicit false

namespace ComplianceIntake.Identity

open ComplianceIntake.Event
open ComplianceIntake.Store

namespace Plan

variable {ν α β : Type}

inductive Quiet : Plan ν α → Prop
  | done (a : α) : Quiet (.done a)
  | note {n : ν} {rest : Plan ν α} (h : Quiet rest) : Quiet (.note n rest)
  | act {action : Action} {next : action.Answer → Plan ν α}
      (hne : ∀ record, action ≠ .ask (.insertEvent record)) (h : ∀ answer, Quiet (next answer)) :
      Quiet (.act action next)

theorem Quiet.bind {p : Plan ν α} {f : α → Plan ν β} (h : p.Quiet) (hf : ∀ a, (f a).Quiet) :
    (p.bind f).Quiet := by
  induction h with
  | done a => exact hf a
  | note _ ih => exact .note ih
  | act hne _ ih => exact .act hne ih

theorem Quiet.and_then {ε : Type} {p : Plan ν (Except ε α)} {f : α → Plan ν (Except ε β)}
    (h : p.Quiet) (hf : ∀ a, (f a).Quiet) : (p.andThen f).Quiet := by
  apply h.bind
  intro r
  cases r with
  | ok a => exact hf a
  | error error => exact .done _

theorem settle_bind_of_done {p : Plan ν α} {a : α} (f : α → Plan ν β) (h : p.settle.1 = .done a) :
    (p.bind f).settle.1 = (f a).settle.1 := by
  induction p with
  | done b =>
    cases h
    rfl
  | note n rest ih => exact ih h
  | act action next _ => exact nomatch h

theorem run_of_settle {σ : Type} [Backend σ] (choice : SpecChoice) {p : Plan ν α} {a : α}
    (s : Site σ) (h : p.settle.1 = .done a) :
    (p.run choice s).value = a ∧ (p.run choice s).site = s := by
  induction p with
  | done b =>
    cases h
    exact ⟨rfl,rfl⟩
  | note n rest ih => exact ih h
  | act action next _ => exact nomatch h

end Plan

theorem quiet_ask_store (draft : Draft) : (askStore (.getOrCreate draft)).Quiet :=
  .act (fun _ h => nomatch h) fun _ => .done _

theorem quiet_settle_miss (key : NaturalKey) (attempt : Except ResolveError Int) :
    (settleMiss key attempt).Quiet := by
  cases attempt with
  | error error => exact .note (.done _)
  | ok id => exact .note (.note (.act (fun _ h => nomatch h) fun _ => .done _))

theorem quiet_identify (key : NaturalKey) (fetch : Steps Int) (h : fetch.Quiet) :
    (identify key fetch).Quiet := by
  refine .act (fun _ h => nomatch h) ?_
  intro answer
  cases answer with
  | some id => exact .note (.done _)
  | none => exact .note (h.bind (quiet_settle_miss key))

theorem quiet_resolve_keyed {κ : Type} (key : Except KeyFault κ) (natural : κ → NaturalKey)
    (fetch : κ → Steps Int) (h : ∀ k, (fetch k).Quiet) :
    (resolveKeyed key natural fetch).Quiet := by
  cases key with
  | error fault => exact .done _
  | ok k => exact quiet_identify _ _ (h k)

theorem quiet_spec_for (p : Policy) (hash : String) : (specFor p hash).Quiet := by
  unfold specFor
  split
  · split <;> exact .done _
  · refine .act (fun _ h => nomatch h) ?_
    intro answer
    cases answer with
    | error error => exact .done _
    | ok found => cases found <;> exact .done _

theorem quiet_resolve (x : Entity) : x.resolve.Quiet := by
  cases x with
  | cluster c => exact quiet_resolve_keyed _ _ _ fun _ => quiet_ask_store _
  | parentPolicy p => exact quiet_resolve_keyed _ _ _ fun _ => quiet_ask_store _
  | policy p =>
    apply quiet_resolve_keyed
    exact fun _ => (quiet_spec_for _ _).and_then fun _ => quiet_ask_store _

end ComplianceIntake.Identity

namespace ComplianceIntake.Intake

open ComplianceIntake.Event
open ComplianceIntake.Store
open ComplianceIntake.Identity
open ComplianceIntake.Journal

def receiptOf (p : Plan Note Verdict) : Option Receipt := p.value?.bind Except.toOption

/-- The plan ends with a receipt exactly where it inserts the receipt's row. -/
inductive Commits : Plan Note Verdict → Prop
  | refused (refusal : Refusal) : Commits (.done (.error refusal))
  | note {n : Note} {rest : Plan Note Verdict} (h : Commits rest) : Commits (.note n rest)
  | act {action : Action} {next : action.Answer → Plan Note Verdict}
      (hne : ∀ record, action ≠ .ask (.insertEvent record)) (h : ∀ answer, Commits (next answer)) :
      Commits (.act action next)
  | insert {record : EventRecord} {next : Except StoreError Int → Plan Note Verdict}
      (hok : ∀ id, ∃ r : Receipt, (next (.ok id)).settle.1 = .done (.ok r) ∧ r.row = ⟨id, record⟩)
      (herr : ∀ error, Commits (next (.error error))) :
      Commits (.act (.ask (.insertEvent record)) next)

namespace Commits

theorem settle {p : Plan Note Verdict} (h : Commits p) : Commits p.settle.1 := by
  induction h with
  | refused refusal => exact .refused refusal
  | note _ ih => exact ih
  | act hne h _ => exact .act hne h
  | insert hok herr _ => exact .insert hok herr

theorem noting {p : Plan Note Verdict} (notes : List Note) (h : Commits p) :
    Commits (Plan.noting notes p) := by
  induction notes with
  | nil => exact h
  | cons n notes ih => exact .note ih

theorem conclude {p : Plan Note Verdict} (h : Commits p) (requestId : String)
    (event : Option ComplianceEvent) : Commits (p.bind (conclude requestId event)) := by
  induction h with
  | refused refusal => exact .note (.note (.refused refusal))
  | note _ ih => exact .note ih
  | act hne _ ih => exact .act hne ih
  | insert hok _ ih =>
    refine .insert ?_ ih
    intro id
    obtain ⟨r,hs,hrow⟩ := hok id
    refine ⟨r,?_,hrow⟩
    rw [Plan.settle_bind_of_done _ hs]
    rfl

theorem and_then {α : Type} {p : Stage α} {f : α → Stage Receipt} (h : p.Quiet)
    (hf : ∀ a, Commits (f a)) : Commits (p.andThen f) := by
  unfold Plan.andThen
  induction h with
  | done r =>
    cases r with
    | ok a => exact hf a
    | error error => exact .refused error
  | note _ ih => exact .note ih
  | act hne _ ih => exact .act hne ih

end Commits

theorem quiet_resolve_for (x : Entity) : (resolveFor x).Quiet := by
  apply (quiet_resolve x).bind
  intro r
  match r with
  | .ok id => exact .done _
  | .error (.store error) => exact .note (.done _)
  | .error (.unusable fault) => exact .done _
  | .error (.unknownSpec hash) => exact .done _

theorem quiet_resolve_parent (p : Option ParentPolicy) : (resolveParent p).Quiet := by
  cases p with
  | none => exact .done _
  | some p => exact (quiet_resolve_for _).and_then fun _ => .done _

theorem commits_record (e : ComplianceEvent) : Commits (record e) := by
  refine .and_then (quiet_resolve_for _) fun clusterId => ?_
  refine .and_then (quiet_resolve_parent _) fun parentPolicyId => ?_
  refine .and_then (quiet_resolve_for _) fun policyId => ?_
  refine .insert ?_ ?_
  · exact fun eventId => ⟨⟨eventId, clusterId, parentPolicyId, policyId, e.withoutSpec⟩,rfl,rfl⟩
  · exact fun error => .note (.refused _)

theorem commits_plan (p : Posting) : Commits p.plan := by
  cases ha : p.request.accepted with
  | error refusal =>
    obtain ⟨notes,hn⟩ := ingest_of_refused p.moment p.request refusal ha
    rw [Posting.plan, hn]
    exact .noting notes (.refused refusal)
  | ok e =>
    obtain ⟨hash,hv⟩ := p.request.valid_of_accepted e ha
    rw [Posting.plan, ingest_of_accepted _ _ e hash ha hv]
    exact (commits_record _).conclude _ _

theorem events_serve (choice : SpecChoice) (c : Call) (l : Ledger)
    (hne : ∀ record, c ≠ .insertEvent record) :
    (l.serve choice c).2.tables.events = l.tables.events := by
  cases c with
  | getOrCreate draft =>
    simp only [Ledger.serve, Tables.getOrCreate]
    split
    · exact l.tables.events_update draft
    · exact l.tables.events_create draft
  | specByHash hash => rfl
  | insertEvent record => exact absurd rfl (hne record)
  | ping => rfl

theorem events_perform (choice : SpecChoice) (a : Action) (s : Site Ledger)
    (hne : ∀ record, a ≠ .ask (.insertEvent record)) :
    (a.perform choice s).2.store.tables.events = s.store.tables.events := by
  cases a with
  | consult key => rfl
  | remember key id => rfl
  | ask call =>
    show (s.store.answer choice call).2.tables.events = _
    rcases s.store.answer_cases choice call with ⟨-,h⟩ | ⟨-,h⟩ <;> rw [h]
    exact events_serve choice call s.store fun record hc => hne record (by rw [hc])

/-- Inserting fails and changes nothing, or appends the record's row. -/
theorem perform_insert_event (choice : SpecChoice) (record : EventRecord) (s : Site Ledger) :
    (∃ error, (Action.perform choice (.ask (.insertEvent record)) s).1 = .error error ∧
      (Action.perform choice (.ask (.insertEvent record)) s).2.store.tables.events =
        s.store.tables.events) ∨
    ∃ id, (Action.perform choice (.ask (.insertEvent record)) s).1 = .ok id ∧
      (Action.perform choice (.ask (.insertEvent record)) s).2.store.tables.events =
        s.store.tables.events ++ [⟨id, record⟩] := by
  rcases s.store.answer_cases choice (.insertEvent record) with ⟨-,h⟩ | ⟨-,h⟩
  · exact Or.inl ⟨_,congrArg Prod.fst h,congrArg (fun o => o.2.tables.events) h⟩
  · exact Or.inr ⟨_,congrArg Prod.fst h,congrArg (fun o => o.2.tables.events) h⟩

/-- Run to its end, a plan appends the row of its receipt and no other. -/
theorem Commits.run (choice : SpecChoice) {p : Plan Note Verdict} (h : Commits p)
    (s : Site Ledger) :
    (p.run choice s).site.store.tables.events =
      s.store.tables.events ++ ((p.run choice s).value.toOption.map Receipt.row).toList := by
  induction h generalizing s with
  | refused refusal => simp [Plan.run, Except.toOption]
  | note _ ih => exact ih s
  | @act action next hne _ ih =>
    rw [← events_perform choice action s hne]
    exact ih _ _
  | @insert record next hok herr ih =>
    rcases perform_insert_event choice record s with ⟨error,hans,hev⟩ | ⟨id,hans,hev⟩
    · simp only [Plan.run, hans]
      rw [← hev]
      exact ih error _
    · obtain ⟨r,hs,hrow⟩ := hok id
      simp only [Plan.run, hans]
      obtain ⟨hval,hsite⟩ := Plan.run_of_settle choice
        (Action.perform choice (.ask (.insertEvent record)) s).2 hs
      rw [hval, hsite, hev, ← hrow]
      rfl

theorem Commits.receipt_of_eq_none {p : Plan Note Verdict} (h : Commits p) :
    receiptOf p = none := by
  cases h with
  | refused refusal => rfl
  | note h => rfl
  | act hne h => rfl
  | insert hok herr => rfl

/-- A step appends the row of the receipt that the request is given by it, if it is given one. -/
theorem Commits.step (choice : SpecChoice) {p : Plan Note Verdict} (h : Commits p)
    (s : Site Ledger) :
    (p.step choice s).site.store.tables.events =
        s.store.tables.events ++ ((receiptOf (p.step choice s).value).map Receipt.row).toList ∧
      (Commits (p.step choice s).value ∨ ∃ r, (p.step choice s).value = .done (.ok r)) := by
  cases h with
  | refused refusal => exact ⟨(List.append_nil _).symm,Or.inl (.refused refusal)⟩
  | @note n rest h =>
    have hc := h.settle
    have hev : s.store.tables.events = s.store.tables.events ++
        ((receiptOf rest.settle.1).map Receipt.row).toList := by
      rw [hc.receipt_of_eq_none]
      exact (List.append_nil _).symm
    exact ⟨hev,Or.inl hc⟩
  | @act action next hne h =>
    have hc := (h (action.perform choice s).1).settle
    have hev := events_perform choice action s hne
    rw [Plan.step, hc.receipt_of_eq_none]
    exact ⟨hev.trans (List.append_nil _).symm,Or.inl hc⟩
  | @insert record next hok herr =>
    rcases perform_insert_event choice record s with ⟨error,hans,hev⟩ | ⟨id,hans,hev⟩
    · have hc := (herr error).settle
      simp only [Plan.step, hans]
      rw [hc.receipt_of_eq_none, hev]
      exact ⟨(List.append_nil _).symm,Or.inl hc⟩
    · obtain ⟨r,hs,hrow⟩ := hok id
      simp only [Plan.step, hans]
      rw [hs, hev, ← hrow]
      exact ⟨rfl,Or.inr ⟨r,rfl⟩⟩

end ComplianceIntake.Intake
