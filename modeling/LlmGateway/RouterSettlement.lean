import LlmGateway.Router

namespace LlmGateway.Router

open Limiter

/-- What a worker thread of asyncio.to_thread does to the table. -/
inductive Job
  | reserve
  | release (reservation : Reservation)
  | reconcile (reservation : Reservation) (actualTokens : Int)

abbrev Answer := Except ReserveError Reservation

/-- The worker that a suspended call awaits. -/
inductive Worker
  | idle
  | queued
  | running
  | finished (answer : Option Answer)

def Status.job : Status → Option Job
  | reserving => some .reserve
  | releasing r _ => some (.release r)
  | reconciling r _ charged => some (.reconcile r charged)
  | callingPrimary _ | callingSecondary _ | returned _ | raised _ => none

def Status.exited : Status → Bool
  | returned _ | raised _ => true
  | reserving | callingPrimary _ | callingSecondary _ | releasing _ _ | reconciling _ _ _ => false

/-- One call and the workers it has started. rowId is the id of its row once
the row was inserted, and charged what the row was reconciled to. -/
structure Execution where
  db : Database
  call : Call
  worker : Worker
  detached : List Job
  rowId : Option Nat
  charged : Option Int

/-- A transaction of another client, which knows the reservations it was given
and no others. -/
inductive Other
  | reserve (tenantKey : Text) (estimatedTokens : Int) (now : ℚ)
  | release (reservation : Reservation)
  | reconcile (reservation : Reservation) (actualTokens : Int)

inductive Event
  | start
  | commit (now : ℚ) (later : Database)
  | resume
  | outcome (result : Except Exn ProviderResult)
  | cancel
  | commitDetached (now : ℚ) (later : Database)
  | other (op : Other)

namespace Execution

variable (config : RouterConfig) (limiter : TokenRateLimiter)

def init (db : Database) (tenantKey : Text) (estimate : Int) (requestId : Text) : Execution :=
  ⟨db, Call.start tenantKey estimate requestId, .queued, [], none, none⟩

/-- The transaction of a worker, and what it hands back, if the database call
succeeds. -/
def transact (E : Execution) (now : ℚ) (later : Database) : Job → Option (Execution × Option Answer)
  | .reserve =>
    match limiter.reserveSync E.db E.call.tenantKey E.call.estimate now later with
    | (.ok r, db) => some ({ E with db := db, rowId := some r.rowId }, some (.ok r))
    | (.error (.rateLimitExceeded exc), db) => some ({ E with db := db }, some (.error (.rateLimitExceeded exc)))
    | (.error (.database _), _) => none
  | .release r => some ({ E with db := TokenRateLimiter.releaseSync E.db r }, none)
  | .reconcile r n =>
    match TokenRateLimiter.reconcileSync E.db r n with
    | .ok db => some ({ E with db := db, charged := some n }, none)
    | .error _ => none

/-- The call goes on up to its next await. -/
def proceed (E : Execution) (call : Call) : Execution :=
  { E with call := call, worker := if call.status.job.isSome then .queued else .idle }

def resume (E : Execution) (answer : Option Answer) : Option Execution :=
  match E.call.status, answer with
  | .reserving, some a => some (E.proceed (E.call.afterReserve config a))
  | .releasing _ exc, _ => some (E.proceed (E.call.afterRelease exc))
  | .reconciling _ result charged, _ => some (E.proceed (E.call.afterReconcile result charged))
  | _, _ => none

def outcome (E : Execution) (result : Except Exn ProviderResult) : Option Execution :=
  match E.call.status with
  | .callingPrimary r => some (E.proceed (E.call.afterPrimary config r result))
  | .callingSecondary r => some (E.proceed (E.call.afterSecondary r result))
  | _ => none

/-- A worker that has started runs on by itself, one that has not never starts. -/
def cancel (E : Execution) : Execution :=
  let detached := match E.worker, E.call.status.job with
    | .running, some job => E.detached ++ [job]
    | _, _ => E.detached
  { E with detached := detached }.proceed (E.call.cancel config)

def other (E : Execution) : Other → Option Execution
  | .reserve tenantKey estimatedTokens now =>
    some { E with db := (limiter.reserveSync E.db tenantKey estimatedTokens now E.db).2 }
  | .release r =>
    if r.rowId ≤ E.db.sequence ∧ E.rowId ≠ some r.rowId then
      some { E with db := TokenRateLimiter.releaseSync E.db r } else none
  | .reconcile r n =>
    if r.rowId ≤ E.db.sequence ∧ E.rowId ≠ some r.rowId then
      match TokenRateLimiter.reconcileSync E.db r n with
      | .ok db => some { E with db := db }
      | .error _ => some E
    else none

def step (E : Execution) : Event → Option Execution
  | .start =>
    match E.worker with
    | .queued => some { E with worker := .running }
    | _ => none
  | .commit now later =>
    match E.worker, E.call.status.job with
    | .running, some job =>
      (E.transact limiter now later job).map fun x => { x.1 with worker := .finished x.2 }
    | _, _ => none
  | .resume =>
    match E.worker with
    | .finished answer => E.resume config answer
    | _ => none
  | .outcome result => E.outcome config result
  | .cancel => if E.call.status.exited then none else some (E.cancel config)
  | .commitDetached now later =>
    match E.detached with
    | [] => none
    | job :: detached => (E.transact limiter now later job).map fun x => { x.1 with detached := detached }
  | .other op => E.other limiter op

def run : Execution → List Event → Option Execution
  | E, [] => some E
  | E, e :: es => (E.step config limiter e).bind fun E' => E'.run es

/-- The call is over and so are its workers. -/
def Done (E : Execution) : Prop := E.call.status.exited ∧ E.detached = []

/-- The row of the call is gone, or the call has answered and the row charges
what the answer says. -/
def Settled (E : Execution) : Prop :=
  ∀ ρ ∈ E.db.rows, E.rowId = some ρ.id →
    ∃ response, E.call.status = .returned response ∧ ρ.tokens = response.tokensCharged

/-- The row of the call is gone, or was reconciled. -/
def Reconciled (E : Execution) : Prop := ∀ ρ ∈ E.db.rows, E.rowId = some ρ.id → E.charged = some ρ.tokens

/-- No cancellation comes while the reserve worker is at work or has finished, or
while the worker that is to settle the row waits for a thread. Where answered is
true, none comes while the row is reconciled. -/
def Timely (answered : Bool) (E : Execution) : Event → Bool
  | .cancel =>
    match E.call.status, E.worker with
    | .reserving, .queued => true
    | .reserving, _ => false
    | .releasing _ _, .queued => false
    | .reconciling _ _ _, .queued => false
    | .reconciling _ _ _, _ => !answered
    | _, _ => true
  | _ => true

def TimelyRun (answered : Bool) : Execution → List Event → Bool
  | _, [] => true
  | E, e :: es => Timely answered E e && (E.step config limiter e).all fun E' => TimelyRun answered E' es

def NoRow (E : Execution) : Prop := ∀ ρ ∈ E.db.rows, E.rowId ≠ some ρ.id

/-- What is known at each await and after the end. -/
def Phase (answered : Bool) (E : Execution) : Prop :=
  match E.call.status with
  | .reserving => E.detached = [] ∧ match E.worker with
    | .queued | .running | .finished (some (.error _)) => E.rowId = none
    | .finished (some (.ok r)) => E.rowId = some r.rowId
    | .idle | .finished none => False
  | .callingPrimary r | .callingSecondary r => E.detached = [] ∧ E.rowId = some r.rowId
  | .releasing r _ => E.detached = [] ∧ E.rowId = some r.rowId ∧ E.worker ≠ .idle ∧
    ∀ a, E.worker = .finished a → E.NoRow
  | .reconciling r _ charged => E.detached = [] ∧ E.rowId = some r.rowId ∧ E.worker ≠ .idle ∧
    ∀ a, E.worker = .finished a → E.charged = some charged ∧ E.Reconciled
  | .returned response => E.detached = [] ∧ E.charged = some response.tokensCharged ∧ E.Reconciled
  | .raised _ => E.detached = [] ∧ E.NoRow ∨ (∃ r, E.detached = [.release r] ∧ E.rowId = some r.rowId) ∨
    answered = false ∧ (E.detached = [] ∧ E.Reconciled ∨
      ∃ r n, E.detached = [.reconcile r n] ∧ E.rowId = some r.rowId)

structure Invariant (answered : Bool) (E : Execution) : Prop where
  id_le : ∀ id ∈ E.rowId, id ≤ E.db.sequence
  phase : E.Phase answered

variable {config limiter} {answered : Bool} {E E' : Execution} {r : Reservation}

theorem invariant_init (db : Database) (tenantKey : Text) (estimate : Int) (requestId : Text) :
    Invariant answered (init db tenantKey estimate requestId) := ⟨by simp [init], rfl, rfl⟩

theorem NoRow.frame (h : E.NoRow) {db : Database}
    (hrows : ∀ ρ ∈ db.rows, E.rowId = some ρ.id → ρ ∈ E.db.rows) : NoRow { E with db := db } :=
  fun ρ hρ hid => h ρ (hrows ρ hρ hid) hid

theorem Reconciled.frame (h : E.Reconciled) {db : Database}
    (hrows : ∀ ρ ∈ db.rows, E.rowId = some ρ.id → ρ ∈ E.db.rows) : Reconciled { E with db := db } :=
  fun ρ hρ hid => h ρ (hrows ρ hρ hid) hid

/-- The transactions of others take the row away or leave it as it is. -/
theorem Invariant.frame (h : E.Invariant answered) {db : Database} (hseq : E.db.sequence ≤ db.sequence)
    (hrows : ∀ ρ ∈ db.rows, E.rowId = some ρ.id → ρ ∈ E.db.rows) : Invariant answered { E with db := db } := by
  refine ⟨fun id hid => Nat.le_trans (h.id_le id hid) hseq, ?_⟩
  have hp := h.phase
  simp only [Phase] at hp ⊢
  cases hs : E.call.status with
  | reserving => simpa only [hs] using hp
  | callingPrimary r => simpa only [hs] using hp
  | callingSecondary r => simpa only [hs] using hp
  | releasing r exc =>
      simp only [hs] at hp ⊢
      exact ⟨hp.1, hp.2.1, hp.2.2.1, fun a ha => (hp.2.2.2 a ha).frame hrows⟩
  | reconciling r result charged =>
      simp only [hs] at hp ⊢
      exact ⟨hp.1, hp.2.1, hp.2.2.1, fun a ha => ⟨(hp.2.2.2 a ha).1, (hp.2.2.2 a ha).2.frame hrows⟩⟩
  | returned response =>
      simp only [hs] at hp ⊢
      exact ⟨hp.1, hp.2.1, hp.2.2.frame hrows⟩
  | raised exc =>
      simp only [hs] at hp ⊢
      rcases hp with ⟨hd, hn⟩ | hr | ⟨ha, ⟨hd, hc⟩ | hr⟩
      · exact Or.inl ⟨hd, hn.frame hrows⟩
      · exact Or.inr (Or.inl hr)
      · exact Or.inr (Or.inr ⟨ha, Or.inl ⟨hd, hc.frame hrows⟩⟩)
      · exact Or.inr (Or.inr ⟨ha, Or.inr hr⟩)

theorem Invariant.other (h : E.Invariant answered) {op : Other} (hstep : E.other limiter op = some E') :
    E'.Invariant answered := by
  cases op with
  | reserve tenantKey estimatedTokens now =>
      obtain rfl := Option.some.inj hstep
      rcases limiter.reserveSync_cases E.db tenantKey estimatedTokens now E.db with ⟨e, hraised⟩ | ⟨-, -, hadmitted⟩
      · rw [hraised]
        exact h
      · rw [hadmitted]
        refine h.frame (Nat.le_succ _) fun ρ hρ hid => ?_
        rcases List.mem_append.mp hρ with hρ | hρ
        · exact List.mem_of_mem_filter hρ
        · rw [List.mem_singleton.mp hρ] at hid
          exact absurd (h.id_le _ hid) (Nat.not_succ_le_self _)
  | release r =>
      simp only [Execution.other, Option.ite_none_right_eq_some, Option.some.injEq] at hstep
      obtain ⟨-, rfl⟩ := hstep
      exact h.frame (Nat.le_refl _) fun ρ hρ _ => List.mem_of_mem_filter hρ
  | reconcile r n =>
      simp only [Execution.other, Option.ite_none_right_eq_some] at hstep
      obtain ⟨⟨-, hne⟩, hstep⟩ := hstep
      cases hdb : TokenRateLimiter.reconcileSync E.db r n with
      | error e =>
          rw [hdb] at hstep
          rwa [← Option.some.inj hstep]
      | ok db =>
          rw [hdb] at hstep
          obtain rfl := Option.some.inj hstep
          obtain ⟨-, rfl⟩ := TokenRateLimiter.reconcileSync_ok hdb
          refine h.frame (Nat.le_refl _) fun ρ hρ hid => ?_
          obtain ⟨ρ', hρ', rfl⟩ := List.mem_map.mp hρ
          rw [Row.setTokens_id] at hid
          rwa [Row.setTokens, if_neg fun heq => hne (by rw [hid, heq])]

section Transact

variable {now : ℚ} {later : Database} {answer : Option Answer}

/-- A reserve worker raises and changes nothing, or inserts a row. -/
theorem transact_reserve (h : E.transact limiter now later .reserve = some (E', answer)) :
    (∃ e, E' = E ∧ answer = some (.error e)) ∨
      E' = { E with
        db := (E.db.evict (limiter.cutoff now)).insert E.call.tenantKey now E.call.estimate,
        rowId := some (E.db.sequence + 1) } ∧
      answer = some (.ok ⟨E.db.sequence + 1, E.call.tenantKey, E.call.estimate⟩) := by
  rw [transact] at h
  rcases limiter.reserveSync_cases E.db E.call.tenantKey E.call.estimate now later with ⟨e, hraised⟩ | ⟨-, -, hadmitted⟩
  · rw [hraised] at h
    cases e with
    | rateLimitExceeded exc =>
        obtain ⟨rfl, rfl⟩ := Prod.mk.inj (Option.some.inj h)
        exact Or.inl ⟨_, rfl, rfl⟩
    | database e => cases h
  · rw [hadmitted] at h
    obtain ⟨rfl, rfl⟩ := Prod.mk.inj (Option.some.inj h)
    exact Or.inr ⟨rfl, rfl⟩

theorem transact_release (h : E.transact limiter now later (.release r) = some (E', answer)) :
    E' = { E with db := TokenRateLimiter.releaseSync E.db r } := (Prod.mk.inj (Option.some.inj h)).1.symm

theorem transact_reconcile {n : Int} (h : E.transact limiter now later (.reconcile r n) = some (E', answer)) :
    E' = { E with db := E.db.setTokens r.rowId n, charged := some n } := by
  rw [transact] at h
  cases hdb : TokenRateLimiter.reconcileSync E.db r n with
  | error e =>
      rw [hdb] at h
      cases h
  | ok db =>
      rw [hdb] at h
      obtain ⟨-, rfl⟩ := TokenRateLimiter.reconcileSync_ok hdb
      exact (Prod.mk.inj (Option.some.inj h)).1.symm

end Transact

theorem noRow_release (hid : E.rowId = some r.rowId) : NoRow { E with db := TokenRateLimiter.releaseSync E.db r } := by
  intro ρ hρ hid'
  have hne := of_decide_eq_true (List.mem_filter.mp hρ).2
  exact hne (Option.some.inj (hid'.symm.trans hid))

theorem reconciled_reconcile (hid : E.rowId = some r.rowId) (n : Int) :
    Reconciled { E with db := E.db.setTokens r.rowId n, charged := some n } := by
  intro ρ hρ hid'
  obtain ⟨ρ', -, rfl⟩ := List.mem_map.mp hρ
  have heq : ρ'.id = r.rowId := by
    rw [Row.setTokens_id] at hid'
    exact Option.some.inj (hid'.symm.trans hid)
  rw [Row.setTokens, if_pos heq]

theorem Invariant.commit_reserve (h : E.Invariant answered) (hs : E.call.status = .reserving)
    (hw : E.worker = .running) {now : ℚ} {later : Database} {answer : Option Answer}
    (htransact : E.transact limiter now later .reserve = some (E', answer)) :
    Invariant answered { E' with worker := .finished answer } := by
  have hp := h.phase
  simp only [Phase, hs, hw] at hp
  rcases transact_reserve htransact with ⟨e, rfl, rfl⟩ | ⟨rfl, rfl⟩
  · refine ⟨h.id_le, ?_⟩
    simp only [Phase, hs]
    exact hp
  · refine ⟨fun id hid => ?_, ?_⟩
    · exact Nat.le_of_eq (Option.some.inj hid).symm
    · simp only [Phase, hs]
      exact ⟨hp.1, trivial⟩

theorem Invariant.commit_release (h : E.Invariant answered) {exc : Exn} (hs : E.call.status = .releasing r exc)
    {now : ℚ} {later : Database} {answer : Option Answer}
    (htransact : E.transact limiter now later (.release r) = some (E', answer)) :
    Invariant answered { E' with worker := .finished answer } := by
  have hp := h.phase
  simp only [Phase, hs] at hp
  obtain rfl := transact_release htransact
  refine ⟨h.id_le, ?_⟩
  simp only [Phase, hs]
  exact ⟨hp.1, hp.2.1, by simp, fun _ _ => noRow_release hp.2.1⟩

theorem Invariant.commit_reconcile (h : E.Invariant answered) {result : ProviderResult} {charged : Int}
    (hs : E.call.status = .reconciling r result charged) {now : ℚ} {later : Database} {answer : Option Answer}
    (htransact : E.transact limiter now later (.reconcile r charged) = some (E', answer)) :
    Invariant answered { E' with worker := .finished answer } := by
  have hp := h.phase
  simp only [Phase, hs] at hp
  obtain rfl := transact_reconcile htransact
  refine ⟨h.id_le, ?_⟩
  simp only [Phase, hs]
  exact ⟨hp.1, hp.2.1, by simp, fun _ _ => ⟨trivial, reconciled_reconcile hp.2.1 charged⟩⟩

theorem Invariant.commit (h : E.Invariant answered) {now : ℚ} {later : Database}
    (hstep : E.step config limiter (.commit now later) = some E') : E'.Invariant answered := by
  cases hw : E.worker <;> simp only [step, hw, reduceCtorEq] at hstep
  cases hs : E.call.status <;> simp only [hs, Status.job, reduceCtorEq, Option.map_eq_some_iff] at hstep <;>
    obtain ⟨⟨E₁, answer⟩, htransact, rfl⟩ := hstep
  case reserving => exact h.commit_reserve hs hw htransact
  case releasing => exact h.commit_release hs htransact
  case reconciling => exact h.commit_reconcile hs htransact

theorem Invariant.start (h : E.Invariant answered) (hstep : E.step config limiter .start = some E') :
    E'.Invariant answered := by
  have hp := h.phase
  cases hw : E.worker <;> simp only [step, hw, reduceCtorEq, Option.some.injEq] at hstep
  subst hstep
  refine ⟨h.id_le, ?_⟩
  simp only [Phase] at hp ⊢
  cases hs : E.call.status with
  | reserving =>
      simp only [hs, hw] at hp ⊢
      exact hp
  | releasing r exc =>
      simp only [hs] at hp ⊢
      exact ⟨hp.1, hp.2.1, by simp, fun _ ha => by simp at ha⟩
  | reconciling r result charged =>
      simp only [hs] at hp ⊢
      exact ⟨hp.1, hp.2.1, by simp, fun _ ha => by simp at ha⟩
  | _ =>
      simp only [hs] at hp ⊢
      exact hp

/-- With the reservation in hand the call goes on to a provider or to the
worker that settles it. -/
theorem Invariant.proceed (h : E.Invariant answered) {c : Call} (hd : E.detached = [])
    (hid : E.rowId = some r.rowId) (hc : c.status.holds = some r) : (E.proceed c).Invariant answered := by
  refine ⟨h.id_le, ?_⟩
  simp only [Phase, Execution.proceed]
  cases hs : c.status <;>
    simp only [hs, Status.holds, Option.some.injEq, reduceCtorEq] at hc <;> subst hc <;>
    simp only [Status.job, hd, hid, Option.isSome_some, if_true, true_and, ne_eq, reduceCtorEq,
      not_false_eq_true, false_implies, implies_true]

theorem Invariant.resume (h : E.Invariant answered) {answer : Option Answer} (hw : E.worker = .finished answer)
    (hstep : E.resume config answer = some E') : E'.Invariant answered := by
  have hp := h.phase
  cases hs : E.call.status <;> simp only [Phase, hs] at hp <;>
    simp only [Execution.resume, hs, reduceCtorEq, Option.some.injEq] at hstep
  case reserving =>
      cases answer with
      | none => simp only [reduceCtorEq] at hstep
      | some a =>
          simp only [hw] at hp
          simp only [Option.some.injEq] at hstep
          subst hstep
          cases a with
          | ok r => exact h.proceed hp.1 hp.2 rfl
          | error e =>
              obtain ⟨exc, hcall⟩ := E.call.afterReserve_error config e
              rw [hcall]
              refine ⟨h.id_le, Or.inl ⟨hp.1, fun ρ _ hid => ?_⟩⟩
              exact absurd (hp.2.symm.trans hid) (by simp)
  case releasing =>
      subst hstep
      exact ⟨h.id_le, Or.inl ⟨hp.1, hp.2.2.2 answer hw⟩⟩
  case reconciling =>
      subst hstep
      exact ⟨h.id_le, hp.1, hp.2.2.2 answer hw⟩

theorem Invariant.outcome (h : E.Invariant answered) {result : Except Exn ProviderResult}
    (hstep : E.outcome config result = some E') : E'.Invariant answered := by
  have hp := h.phase
  cases hs : E.call.status <;> simp only [Phase, hs] at hp <;>
    simp only [Execution.outcome, hs, reduceCtorEq, Option.some.injEq] at hstep <;> subst hstep
  case callingPrimary r => exact h.proceed hp.1 hp.2 (E.call.afterPrimary_spec config r result).1
  case callingSecondary r => exact h.proceed hp.1 hp.2 (E.call.afterSecondary_spec r result).1

theorem Invariant.cancel (h : E.Invariant answered) (ht : Timely answered E .cancel)
    (hexit : E.call.status.exited = false) : (E.cancel config).Invariant answered := by
  have hp := h.phase
  cases hs : E.call.status <;> simp only [Phase, hs] at hp <;> simp only [Timely, hs] at ht <;>
    simp only [hs, Status.exited, Bool.true_eq_false] at hexit
  case reserving =>
      cases hw : E.worker <;> simp only [hw, Bool.false_eq_true] at ht hp
      refine ⟨h.id_le, ?_⟩
      simp only [Phase, Execution.cancel, Execution.proceed, Call.cancel, hs, hw]
      exact Or.inl ⟨hp.1, fun ρ _ hid => absurd (hp.2.symm.trans hid) (by simp)⟩
  case callingPrimary r =>
      have hcall : E.cancel config = E.proceed (E.call.afterPrimary config r (.error .cancelled)) := by
        simp only [Execution.cancel, Call.cancel, hs, Status.job]
        cases E.worker <;> rfl
      rw [hcall]
      exact h.proceed hp.1 hp.2 (E.call.afterPrimary_spec config r _).1
  case callingSecondary r =>
      have hcall : E.cancel config = E.proceed (E.call.afterSecondary r (.error .cancelled)) := by
        simp only [Execution.cancel, Call.cancel, hs, Status.job]
        cases E.worker <;> rfl
      rw [hcall]
      exact h.proceed hp.1 hp.2 (E.call.afterSecondary_spec r _).1
  case releasing r exc =>
      obtain ⟨hd, hid, hidle, hfin⟩ := hp
      refine ⟨h.id_le, ?_⟩
      cases hw : E.worker <;> simp only [hw, ne_eq, not_true_eq_false, Bool.false_eq_true] at ht hidle <;>
        simp only [Phase, Execution.cancel, Execution.proceed, Call.cancel, hs, hw, Status.job]
      case running => exact Or.inr (Or.inl ⟨r, by rw [hd, List.nil_append], hid⟩)
      case finished answer => exact Or.inl ⟨hd, hfin answer hw⟩
  case reconciling r result charged =>
      obtain ⟨hd, hid, hidle, hfin⟩ := hp
      refine ⟨h.id_le, ?_⟩
      cases hw : E.worker <;> simp only [hw, ne_eq, not_true_eq_false, Bool.false_eq_true] at ht hidle <;>
        simp only [Phase, Execution.cancel, Execution.proceed, Call.cancel, hs, hw, Status.job]
      case running => exact Or.inr (Or.inr ⟨by simpa using ht, Or.inr ⟨r, charged, by rw [hd, List.nil_append], hid⟩⟩)
      case finished answer => exact Or.inr (Or.inr ⟨by simpa using ht, Or.inl ⟨hd, (hfin answer hw).2⟩⟩)

theorem Invariant.commitDetached (h : E.Invariant answered) {now : ℚ} {later : Database}
    (hstep : E.step config limiter (.commitDetached now later) = some E') : E'.Invariant answered := by
  have hp := h.phase
  cases hdet : E.detached with
  | nil => simp only [step, hdet, reduceCtorEq] at hstep
  | cons job detached =>
      simp only [step, hdet, Option.map_eq_some_iff] at hstep
      obtain ⟨⟨E₁, answer⟩, htransact, rfl⟩ := hstep
      cases hs : E.call.status <;>
        simp only [Phase, hs, hdet, reduceCtorEq, false_and, false_or, List.cons.injEq] at hp
      rcases hp with ⟨r, ⟨rfl, rfl⟩, hid⟩ | ⟨ha, r, n, ⟨rfl, rfl⟩, hid⟩
      · obtain rfl := transact_release htransact
        refine ⟨h.id_le, ?_⟩
        simp only [Phase, hs]
        exact Or.inl ⟨trivial, noRow_release hid⟩
      · obtain rfl := transact_reconcile htransact
        refine ⟨h.id_le, ?_⟩
        simp only [Phase, hs]
        exact Or.inr (Or.inr ⟨ha, Or.inl ⟨trivial, reconciled_reconcile hid n⟩⟩)

theorem Invariant.step (h : E.Invariant answered) {e : Event} (ht : Timely answered E e)
    (hstep : E.step config limiter e = some E') : E'.Invariant answered := by
  cases e with
  | start => exact h.start hstep
  | commit now later => exact h.commit hstep
  | resume =>
      cases hw : E.worker <;> simp only [Execution.step, hw, reduceCtorEq] at hstep
      exact h.resume hw hstep
  | outcome result => exact h.outcome hstep
  | cancel =>
      simp only [Execution.step, Option.ite_none_left_eq_some, Option.some.injEq] at hstep
      obtain ⟨hexit, rfl⟩ := hstep
      exact h.cancel ht (by simpa using hexit)
  | commitDetached now later => exact h.commitDetached hstep
  | other op => exact h.other hstep

theorem Invariant.run {events : List Event} (h : E.Invariant answered) (ht : TimelyRun config limiter answered E events)
    (hrun : E.run config limiter events = some E') : E'.Invariant answered := by
  induction events generalizing E with
  | nil => rwa [← Option.some.inj hrun]
  | cons e es ih =>
      obtain ⟨E₁, hstep, hrest⟩ := Option.bind_eq_some_iff.mp hrun
      simp only [TimelyRun, hstep, Option.all_some, Bool.and_eq_true] at ht
      exact ih (h.step ht.1 hstep) ht.2 hrest

theorem Invariant.reconciled (h : E.Invariant answered) (hdone : E.Done) : E.Reconciled := by
  have hp := h.phase
  obtain ⟨hexit, hd⟩ := hdone
  cases hs : E.call.status <;> simp only [hs, Status.exited, Bool.false_eq_true] at hexit <;>
    simp only [Phase, hs, hd, List.nil_eq, reduceCtorEq, false_and, exists_false, false_or, or_false, true_and] at hp
  case returned => exact hp.2
  case raised =>
      rcases hp with hn | ⟨-, hr⟩
      · exact fun ρ hρ hid => absurd hid (hn ρ hρ)
      · exact hr

theorem Invariant.settled (h : E.Invariant true) (hdone : E.Done) : E.Settled := by
  have hp := h.phase
  obtain ⟨hexit, hd⟩ := hdone
  cases hs : E.call.status <;> simp only [hs, Status.exited, Bool.false_eq_true] at hexit <;>
    simp only [Phase, hs, hd, List.nil_eq, reduceCtorEq, false_and, exists_false, or_false, true_and] at hp
  case returned response =>
      intro ρ hρ hid
      exact ⟨response, hs, Option.some.inj ((hp.2 ρ hρ hid).symm.trans hp.1)⟩
  case raised => exact fun ρ hρ hid => absurd hid (hp ρ hρ)

/-- Once the call and its workers are through, a run whose cancellations come in
time leaves no row that is still at the estimate: every row of the call has been
reconciled and, unless a cancellation came in between, the call has answered. -/
theorem run_settles (config : RouterConfig) (limiter : TokenRateLimiter) (db : Database) (tenantKey : Text)
    (estimate : Int) (requestId : Text) (events : List Event) {E : Execution}
    (hrun : (init db tenantKey estimate requestId).run config limiter events = some E) (hdone : E.Done) :
    (TimelyRun config limiter false (init db tenantKey estimate requestId) events → E.Reconciled) ∧
      (TimelyRun config limiter true (init db tenantKey estimate requestId) events → E.Settled) :=
  ⟨fun ht => ((invariant_init db tenantKey estimate requestId).run ht hrun).reconciled hdone,
    fun ht => ((invariant_init db tenantKey estimate requestId).run ht hrun).settled hdone⟩

theorem run_settles_cancelled :
    ∃ E, (init .empty (str "a") 16 (str "id")).run ⟨⟨str "p", [], [], 3⟩, ⟨str "s", [], [], 6⟩⟩ ⟨100, 60, .exact⟩
        [.start, .commit 0 .empty, .resume, .cancel, .start, .commit 1 .empty, .resume] = some E ∧ E.Settled :=
  ⟨_, rfl, (run_settles ⟨⟨str "p", [], [], 3⟩, ⟨str "s", [], [], 6⟩⟩ ⟨100, 60, .exact⟩ .empty (str "a") 16 (str "id")
    [.start, .commit 0 .empty, .resume, .cancel, .start, .commit 1 .empty, .resume] rfl ⟨rfl, rfl⟩).2 rfl⟩

/-- The client hangs up when the reserve worker has committed and the call has
not been resumed: the row stays, at the estimate. -/
theorem run_leaks :
    ∃ E, (init .empty (str "a") 16 (str "id")).run ⟨⟨str "p", [], [], 3⟩, ⟨str "s", [], [], 6⟩⟩ ⟨100, 60, .exact⟩
        [.start, .commit 0 .empty, .cancel] = some E ∧
      E.Done ∧ E.rowId = some 1 ∧ E.db.rows = [⟨1, str "a", 0, 16⟩] ∧ E.charged = none ∧
      ¬ E.Reconciled ∧ ¬ E.Settled := by
  refine ⟨_, rfl, ⟨rfl, rfl⟩, rfl, rfl, rfl, fun h => ?_, fun h => ?_⟩
  · have hnone : (none : Option Int) = some 16 := h ⟨1, str "a", 0, 16⟩ List.mem_cons_self rfl
    exact absurd hnone (by decide)
  · obtain ⟨response, hs, -⟩ := h ⟨1, str "a", 0, 16⟩ List.mem_cons_self rfl
    exact Status.noConfusion hs

end Execution

end LlmGateway.Router
