import LlmGateway.Router
import Mathlib.Logic.Relation

namespace LlmGateway.Router

open Limiter

/-- A call, with the reservation that it was given and when. -/
structure Tracked where
  call : Call
  booked : Option (Reservation × ℚ)

namespace Tracked

/-- What the call costs its tenant as things stand. -/
def amount (t : Tracked) : Int :=
  match t.call.status with
  | .returned response => response.tokensCharged
  | .raised _ => 0
  | _ => t.call.estimate

def row (t : Tracked) : Option Row :=
  t.booked.bind fun b =>
    match t.call.status with
    | .raised _ => none
    | _ => some ⟨b.1.rowId, b.1.tenantKey, b.2, t.amount⟩

def rowId (t : Tracked) : Option Nat := t.booked.map fun b => b.1.rowId

/-- The reservation that a suspended call has in its hands is the one it was given. -/
structure Coherent (t : Tracked) : Prop where
  tenantKey : ∀ b ∈ t.booked, b.1.tenantKey = t.call.tenantKey
  holds : ∀ r ∈ t.call.status.holds, ∃ ts, t.booked = some (r, ts)
  reserving : t.call.status = .reserving → t.booked = none
  returned : ∀ response, t.call.status = .returned response → t.booked.isSome

end Tracked

/-- The calls of any number of clients on one table, and the last clock reading. -/
structure System where
  db : Database
  last : Option ℚ
  calls : List Tracked

namespace System

def init : System := ⟨.empty, none, []⟩

variable (config : RouterConfig) (limiter : TokenRateLimiter) (charges : Int → Prop)

def resume (S : System) (i : Nat) (t : Tracked) (call : Call) : System :=
  { S with calls := S.calls.set i { t with call := call } }

def reserve (S : System) (i : Nat) (t : Tracked) (now : ℚ) (later : Database) : System :=
  let (answer, db) := limiter.reserveSync S.db t.call.tenantKey t.call.estimate now later
  ⟨db, some now, S.calls.set i ⟨t.call.afterReserve config answer, answer.toOption.map fun r => (r, now)⟩⟩

def reconcile (S : System) (i : Nat) (t : Tracked) (r : Reservation) (result : ProviderResult) (charged : Int) : System :=
  match TokenRateLimiter.reconcileSync S.db r charged with
  | .ok db => { S with db := db }.resume i t (t.call.afterReconcile result charged)
  | .error e => S.resume i t (t.call.failReconcile e)

/-- One step of one of the calls, where what a call is reconciled to is one of
the charges. No call is cancelled. -/
inductive Step : System → System → Prop
  | arrive (S : System) (tenantKey : Text) (estimate : Int) (requestId : Text) :
      Step S { S with calls := S.calls ++ [⟨Call.start tenantKey estimate requestId, none⟩] }
  | reserve (S : System) (i : Nat) (t : Tracked) (now : ℚ) (later : Database) :
      S.calls[i]? = some t → t.call.status = .reserving → (∀ l ∈ S.last, l ≤ now) →
      Step S (S.reserve config limiter i t now later)
  | primary (S : System) (i : Nat) (t : Tracked) (r : Reservation) (outcome : Except Exn ProviderResult) :
      S.calls[i]? = some t → t.call.status = .callingPrimary r → outcome ≠ .error .cancelled →
      Step S (S.resume i t (t.call.afterPrimary config r outcome))
  | secondary (S : System) (i : Nat) (t : Tracked) (r : Reservation) (outcome : Except Exn ProviderResult) :
      S.calls[i]? = some t → t.call.status = .callingSecondary r → outcome ≠ .error .cancelled →
      Step S (S.resume i t (t.call.afterSecondary r outcome))
  | release (S : System) (i : Nat) (t : Tracked) (r : Reservation) (exc : Exn) :
      S.calls[i]? = some t → t.call.status = .releasing r exc →
      Step S ({ S with db := TokenRateLimiter.releaseSync S.db r }.resume i t (t.call.afterRelease exc))
  | reconcile (S : System) (i : Nat) (t : Tracked) (r : Reservation) (result : ProviderResult) (charged : Int) :
      S.calls[i]? = some t → t.call.status = .reconciling r result charged → charges charged →
      Step S (S.reconcile i t r result charged)

def Reachable (S : System) : Prop := Relation.ReflTransGen (Step config limiter charges) init S

/-- The tenant's admitted calls that were reserved at the cutoff or later. -/
def admittedSince (S : System) (tenantKey : Text) (cutoff : ℚ) : List Tracked :=
  S.calls.filter fun t => t.call.tenantKey = tenantKey ∧ t.booked.any fun b => cutoff ≤ b.2

/-- The table has the rows of the calls that there are to see. -/
structure Balanced (limiter : TokenRateLimiter) (S : System) : Prop where
  coherent : ∀ t ∈ S.calls, t.Coherent
  id_le : ∀ t ∈ S.calls, ∀ id ∈ t.rowId, id ≤ S.db.sequence
  id_nodup : (S.calls.filterMap Tracked.rowId).Nodup
  covers : Covers limiter S.last S.db (S.calls.filterMap Tracked.row)

end System

namespace Tracked

variable {t : Tracked} {r : Reservation} {ts : ℚ}

theorem rowId_of_row {ρ : Row} (h : t.row = some ρ) : t.rowId = some ρ.id := by
  obtain ⟨b, hb, hρ⟩ := Option.bind_eq_some_iff.mp h
  rw [rowId, hb, Option.map_some]
  cases hs : t.call.status <;> simp only [hs, Option.some.injEq, reduceCtorEq] at hρ <;> rw [← hρ]

theorem row_of_booked (hb : t.booked = some (r, ts)) (hs : ∀ exc, t.call.status ≠ .raised exc) :
    t.row = some ⟨r.rowId, r.tenantKey, ts, t.amount⟩ := by
  rw [row, hb, Option.bind_some]
  cases h : t.call.status <;> first | rfl | exact absurd h (hs _)

theorem row_of_raised {exc : Exn} (hs : t.call.status = .raised exc) : t.row = none := by
  rw [row, hs]
  cases t.booked <;> rfl

theorem amount_of_holds (h : t.call.status.holds = some r) : t.amount = t.call.estimate := by
  rw [amount]
  cases hs : t.call.status <;> first | rfl | simp [hs, Status.holds] at h

theorem Coherent.row_of_holds (hc : t.Coherent) (h : t.call.status.holds = some r) :
    ∃ ts, t.booked = some (r, ts) ∧ t.row = some ⟨r.rowId, r.tenantKey, ts, t.call.estimate⟩ := by
  obtain ⟨ts, hb⟩ := hc.holds r h
  refine ⟨ts, hb, ?_⟩
  rw [row_of_booked hb (fun exc hs => by simp [hs, Status.holds] at h), amount_of_holds h]

/-- A call that is resumed with the reservation still in hand stays coherent
and keeps its row. -/
theorem Coherent.resume (hc : t.Coherent) {c : Call} (h : t.call.status.holds = some r)
    (h' : c.status.holds = some r) (hkey : c.tenantKey = t.call.tenantKey) (hest : c.estimate = t.call.estimate) :
    Coherent ⟨c, t.booked⟩ ∧ row ⟨c, t.booked⟩ = t.row := by
  obtain ⟨ts, hb, hrow⟩ := hc.row_of_holds h
  have hc' : Coherent ⟨c, t.booked⟩ := by
    refine ⟨fun b hb' => (hc.tenantKey b hb').trans hkey.symm, fun r' hr' => ?_, fun hs => ?_, fun response hs => ?_⟩
    · obtain rfl := Option.some.inj (h'.symm.trans hr')
      exact ⟨ts, hb⟩
    · exact absurd (h'.symm.trans (congrArg Status.holds hs)) (by simp [Status.holds])
    · exact absurd (h'.symm.trans (congrArg Status.holds hs)) (by simp [Status.holds])
  obtain ⟨ts', hb', hrow'⟩ := hc'.row_of_holds h'
  refine ⟨hc', ?_⟩
  obtain rfl := (Prod.mk.inj (Option.some.inj (hb'.symm.trans hb))).2
  rw [hrow', hrow, hest]

end Tracked

namespace System

variable {config : RouterConfig} {limiter : TokenRateLimiter} {S : System} {i : Nat} {t t' : Tracked}
  {pre post : List Tracked} {r : Reservation}

theorem exists_split (hi : S.calls[i]? = some t) :
    ∃ pre post, S.calls = pre ++ t :: post ∧ ∀ t', S.calls.set i t' = pre ++ t' :: post := by
  obtain ⟨hlt, rfl⟩ := List.getElem?_eq_some_iff.mp hi
  refine ⟨S.calls.take i, S.calls.drop (i + 1), ?_, fun t' => ?_⟩
  · rw [List.getElem_cons_drop, List.take_append_drop]
  · rw [List.set_eq_take_append_cons_drop, if_pos hlt]

theorem Balanced.set (h : Balanced limiter S) (hi : S.calls[i]? = some t) {c : Call} {db : Database}
    (hseq : db.sequence = S.db.sequence) (hc : Tracked.Coherent ⟨c, t.booked⟩)
    (hsh : ∀ pre post, S.calls = pre ++ t :: post →
      Covers limiter S.last db ((pre ++ ⟨c, t.booked⟩ :: post).filterMap Tracked.row)) :
    Balanced limiter ({ S with db := db }.resume i t c) := by
  obtain ⟨pre, post, heq, hset⟩ := exists_split hi
  have hmem {P : Tracked → Prop} (hall : ∀ x ∈ S.calls, P x) (hc : P ⟨c, t.booked⟩) :
      ∀ x ∈ pre ++ ⟨c, t.booked⟩ :: post, P x := by
    rw [heq, List.forall_mem_append, List.forall_mem_cons] at hall
    rw [List.forall_mem_append, List.forall_mem_cons]
    exact ⟨hall.1, hc, hall.2.2⟩
  have hid : Tracked.rowId ⟨c, t.booked⟩ = t.rowId := rfl
  refine ⟨?_, ?_, ?_, ?_⟩ <;> simp only [System.resume, hset]
  · exact hmem h.coherent hc
  · rw [hseq]
    refine hmem h.id_le ?_
    rw [hid]
    exact h.id_le t (List.mem_of_getElem? hi)
  · have hn := h.id_nodup
    rwa [heq, List.filterMap_append, List.filterMap_cons, ← hid, ← List.filterMap_cons,
      ← List.filterMap_append] at hn
  · exact hsh pre post heq

theorem Balanced.resume (h : Balanced limiter S) (hi : S.calls[i]? = some t) {c : Call}
    (hc : Tracked.Coherent ⟨c, t.booked⟩) (hrow : Tracked.row ⟨c, t.booked⟩ = t.row) :
    Balanced limiter (S.resume i t c) := by
  refine h.set hi rfl hc fun pre post heq => ?_
  have hs := h.covers
  rwa [heq, List.filterMap_append, List.filterMap_cons, ← hrow, ← List.filterMap_cons,
    ← List.filterMap_append] at hs

theorem Balanced.id_ne (h : Balanced limiter S) (heq : S.calls = pre ++ t :: post) (hid : t.rowId = some r.rowId) :
    (∀ ρ ∈ pre.filterMap Tracked.row, ρ.id ≠ r.rowId) ∧ ∀ ρ ∈ post.filterMap Tracked.row, ρ.id ≠ r.rowId := by
  have hn := h.id_nodup
  rw [heq, List.filterMap_append, List.filterMap_cons, hid] at hn
  have hmid := (List.perm_middle.nodup_iff).mp hn
  have hnot := (List.nodup_cons.mp hmid).1
  have hrow (x : Tracked) (ρ : Row) (hρ : x.row = some ρ) (he : ρ.id = r.rowId) : x.rowId = some r.rowId := by
    rw [Tracked.rowId_of_row hρ, he]
  constructor <;> intro ρ hρ he <;> obtain ⟨x, hx, hxρ⟩ := List.mem_filterMap.mp hρ
  · exact hnot (List.mem_append_left _ (List.mem_filterMap.mpr ⟨x, hx, hrow x ρ hxρ he⟩))
  · exact hnot (List.mem_append_right _ (List.mem_filterMap.mpr ⟨x, hx, hrow x ρ hxρ he⟩))

theorem coherent_of (h : Balanced limiter S) (hi : S.calls[i]? = some t) : t.Coherent :=
  h.coherent t (List.mem_of_getElem? hi)

theorem Balanced.provider (h : Balanced limiter S) (hi : S.calls[i]? = some t) {c : Call}
    (hr : t.call.status.holds = some r)
    (hc : c.status.holds = some r ∧ c.tenantKey = t.call.tenantKey ∧ c.estimate = t.call.estimate) :
    Balanced limiter (S.resume i t c) := by
  obtain ⟨hcoh, hrow⟩ := (coherent_of h hi).resume hr hc.1 hc.2.1 hc.2.2
  exact h.resume hi hcoh hrow

theorem Balanced.arrive (h : Balanced limiter S) (tenantKey : Text) (estimate : Int) (requestId : Text) :
    Balanced limiter { S with calls := S.calls ++ [⟨Call.start tenantKey estimate requestId, none⟩] } := by
  refine ⟨?_, ?_, ?_, ?_⟩
  · rw [List.forall_mem_append, List.forall_mem_singleton]
    exact ⟨h.coherent, by simp, by simp [Call.start, Status.holds], fun _ => rfl, by simp [Call.start]⟩
  · rw [List.forall_mem_append, List.forall_mem_singleton]
    exact ⟨h.id_le, by simp [Tracked.rowId]⟩
  · have hnone : [(⟨Call.start tenantKey estimate requestId, none⟩ : Tracked)].filterMap Tracked.rowId = [] := rfl
    rw [List.filterMap_append, hnone, List.append_nil]
    exact h.id_nodup
  · have hnone : [(⟨Call.start tenantKey estimate requestId, none⟩ : Tracked)].filterMap Tracked.row = [] := rfl
    rw [List.filterMap_append, hnone, List.append_nil]
    exact h.covers

theorem Balanced.release (h : Balanced limiter S) (hi : S.calls[i]? = some t) {exc : Exn}
    (hs : t.call.status = .releasing r exc) :
    Balanced limiter ({ S with db := TokenRateLimiter.releaseSync S.db r }.resume i t (t.call.afterRelease exc)) := by
  have hcoh := coherent_of h hi
  obtain ⟨ts, hb, hrow⟩ := hcoh.row_of_holds (r := r) (by rw [hs, Status.holds])
  refine h.set hi rfl ⟨hcoh.tenantKey, ?_, ?_, ?_⟩ fun pre post heq => ?_
  · simp [Call.afterRelease, Status.holds]
  · simp [Call.afterRelease]
  · simp [Call.afterRelease]
  · have hid : t.rowId = some r.rowId := by rw [Tracked.rowId, hb, Option.map_some]
    obtain ⟨hpre, hpost⟩ := h.id_ne heq hid
    have hkeep {l : List Row} (hl : ∀ ρ ∈ l, ρ.id ≠ r.rowId) : (l.filter fun ρ => ρ.id ≠ r.rowId) = l :=
      List.filter_eq_self.mpr fun ρ hρ => by simpa using hl ρ hρ
    have hsh := h.covers.keep fun ρ => ρ.id ≠ r.rowId
    rw [heq, List.filterMap_append, List.filterMap_cons, hrow, List.filter_append, hkeep hpre,
      List.filter_cons_of_neg (by simp), hkeep hpost] at hsh
    rw [List.filterMap_append, List.filterMap_cons, Tracked.row_of_raised rfl]
    exact hsh

theorem Balanced.reconcile (h : Balanced limiter S) (hi : S.calls[i]? = some t) {result : ProviderResult}
    {charged : Int} (hs : t.call.status = .reconciling r result charged) (hstorable : isStorable charged) :
    Balanced limiter (S.reconcile i t r result charged) := by
  have hcoh := coherent_of h hi
  obtain ⟨ts, hb, hrow⟩ := hcoh.row_of_holds (r := r) (by rw [hs, Status.holds])
  rw [System.reconcile, TokenRateLimiter.reconcileSync_eq hstorable]
  refine h.set hi rfl ⟨hcoh.tenantKey, ?_, ?_, ?_⟩ fun pre post heq => ?_
  · simp [Call.afterReconcile, Status.holds]
  · simp [Call.afterReconcile]
  · simp [hb]
  · have hid : t.rowId = some r.rowId := by rw [Tracked.rowId, hb, Option.map_some]
    obtain ⟨hpre, hpost⟩ := h.id_ne heq hid
    have hkeep {l : List Row} (hl : ∀ ρ ∈ l, ρ.id ≠ r.rowId) : l.map (Row.setTokens r.rowId charged) = l :=
      (List.map_congr_left fun ρ hρ => if_neg (hl ρ hρ)).trans (List.map_id l)
    have hsh := h.covers.setTokens r.rowId charged
    rw [heq, List.filterMap_append, List.filterMap_cons, hrow, List.map_append, hkeep hpre, List.map_cons,
      hkeep hpost, Row.setTokens, if_pos rfl] at hsh
    have hrow' : Tracked.row ⟨t.call.afterReconcile result charged, t.booked⟩ =
        some ⟨r.rowId, r.tenantKey, ts, charged⟩ :=
      Tracked.row_of_booked (t := ⟨t.call.afterReconcile result charged, t.booked⟩) hb
        (by simp [Call.afterReconcile])
    rw [List.filterMap_append, List.filterMap_cons, hrow']
    exact hsh

/-- A reserve that raises only tells the time. -/
theorem Balanced.raised (config : RouterConfig) (h : Balanced limiter S) (hi : S.calls[i]? = some t)
    (hs : t.call.status = .reserving) {now : ℚ} (hnow : ∀ l ∈ S.last, l ≤ now) (e : ReserveError) :
    Balanced limiter ({ S with last := some now }.resume i t (t.call.afterReserve config (.error e))) := by
  have hb := (coherent_of h hi).reserving hs
  obtain ⟨exc, hcall⟩ := t.call.afterReserve_error config e
  have hlast : Balanced limiter { S with last := some now } :=
    ⟨h.coherent, h.id_le, h.id_nodup, h.covers.later hnow⟩
  rw [hcall]
  refine hlast.resume hi ⟨?_, ?_, ?_, ?_⟩ ?_
  · simp [hb]
  · simp [Status.holds]
  · simp
  · simp
  · rw [Tracked.row, Tracked.row, hb]
    rfl

theorem Balanced.admitted (h : Balanced limiter S) (hi : S.calls[i]? = some t) (hs : t.call.status = .reserving)
    {now : ℚ} (hnow : ∀ l ∈ S.last, l ≤ now) (hr : r = ⟨S.db.sequence + 1, t.call.tenantKey, t.call.estimate⟩) :
    Balanced limiter ⟨(S.db.evict (limiter.cutoff now)).insert t.call.tenantKey now t.call.estimate, some now,
      S.calls.set i ⟨t.call.afterReserve config (.ok r), some (r, now)⟩⟩ := by
  obtain ⟨pre, post, heq, hset⟩ := exists_split hi
  have hb := (coherent_of h hi).reserving hs
  have hid : t.rowId = none := by rw [Tracked.rowId, hb, Option.map_none]
  have hrow : t.row = none := by rw [Tracked.row, hb, Option.bind_none]
  have hle := h.id_le
  have hcoh := h.coherent
  have hnodup := h.id_nodup
  have hsh := h.covers.insert hnow t.call.tenantKey t.call.estimate
  rw [heq, List.forall_mem_append, List.forall_mem_cons] at hle hcoh
  rw [heq, List.filterMap_append, List.filterMap_cons, hid] at hnodup
  rw [heq, List.filterMap_append, List.filterMap_cons, hrow] at hsh
  refine ⟨?_, ?_, ?_, ?_⟩ <;> simp only [hset]
  · rw [List.forall_mem_append, List.forall_mem_cons]
    refine ⟨hcoh.1, ⟨?_, ?_, ?_, ?_⟩, hcoh.2.2⟩
    · simp [hr, Call.afterReserve]
    · simp [Call.afterReserve, Status.holds]
    · simp [Call.afterReserve]
    · simp
  · rw [List.forall_mem_append, List.forall_mem_cons]
    refine ⟨fun x hx id hxid => Nat.le_succ_of_le (hle.1 x hx id hxid), ?_,
      fun x hx id hxid => Nat.le_succ_of_le (hle.2.2 x hx id hxid)⟩
    simp [Tracked.rowId, hr, Database.insert, Database.evict, Database.keep]
  · have hnew : Tracked.rowId ⟨t.call.afterReserve config (.ok r), some (r, now)⟩ = some (S.db.sequence + 1) := by
      rw [Tracked.rowId, hr, Option.map_some]
    rw [List.filterMap_append, List.filterMap_cons, hnew]
    refine (List.perm_middle.nodup_iff).mpr (List.nodup_cons.mpr ⟨fun hmem => ?_, hnodup⟩)
    rcases List.mem_append.mp hmem with hmem | hmem <;> obtain ⟨x, hx, hxid⟩ := List.mem_filterMap.mp hmem
    · exact Nat.not_succ_le_self _ (hle.1 x hx _ hxid)
    · exact Nat.not_succ_le_self _ (hle.2.2 x hx _ hxid)
  · have hnew : Tracked.row ⟨t.call.afterReserve config (.ok r), some (r, now)⟩ =
        some ⟨S.db.sequence + 1, t.call.tenantKey, now, t.call.estimate⟩ := by
      rw [hr]
      rfl
    rw [List.filterMap_append, List.filterMap_cons, hnew]
    obtain ⟨full, hperm, hshadows⟩ := hsh
    exact ⟨full, hperm.trans List.perm_middle.symm, hshadows⟩

theorem Balanced.reserve (h : Balanced limiter S) (hi : S.calls[i]? = some t) (hs : t.call.status = .reserving)
    {now : ℚ} (hnow : ∀ l ∈ S.last, l ≤ now) (later : Database) :
    Balanced limiter (S.reserve config limiter i t now later) := by
  rw [System.reserve]
  rcases limiter.reserveSync_cases S.db t.call.tenantKey t.call.estimate now later with ⟨e, hraised⟩ | ⟨-, -, hadmitted⟩
  · have hb := (coherent_of h hi).reserving hs
    have hrej := h.raised config hi hs hnow e
    rw [System.resume, hb] at hrej
    rw [hraised]
    exact hrej
  · rw [hadmitted]
    exact h.admitted hi hs hnow rfl

theorem balanced_init : Balanced limiter init :=
  ⟨by simp [init], by simp [init], by simp [init], [], List.Perm.refl _, Shadows.empty⟩

theorem Balanced.step {S' : System} (h : Balanced limiter S) (hstep : Step config limiter (fun n => isStorable n) S S') :
    Balanced limiter S' := by
  cases hstep with
  | arrive tenantKey estimate requestId => exact h.arrive tenantKey estimate requestId
  | reserve i t now later hi hs hnow => exact h.reserve hi hs hnow later
  | primary i t r outcome hi hs _ => exact h.provider hi (by rw [hs, Status.holds]) (t.call.afterPrimary_spec config r outcome)
  | secondary i t r outcome hi hs _ => exact h.provider hi (by rw [hs, Status.holds]) (t.call.afterSecondary_spec r outcome)
  | release i t r exc hi hs => exact h.release hi hs
  | reconcile i t r result charged hi hs hstorable => exact h.reconcile hi hs hstorable

theorem balanced_of_reachable (h : Reachable config limiter (fun n => isStorable n) S) : Balanced limiter S := by
  induction h with
  | refl => exact balanced_init
  | tail _ hstep ih => exact ih.step hstep

/-- What the calls cost that were reserved at the cutoff or later. -/
def amountsSince (S : System) (tenantKey : Text) (cutoff : ℚ) : List Int :=
  (S.admittedSince tenantKey cutoff).map Tracked.amount

/-- An admitted call costs what its row holds, and nothing if it has none. -/
theorem amount_eq (hb : t.booked.isSome) : t.amount = (t.row.map Row.tokens).getD 0 := by
  obtain ⟨b, hb⟩ := Option.isSome_iff_exists.mp hb
  rw [Tracked.row, hb, Option.bind_some, Tracked.amount]
  cases t.call.status <;> rfl

theorem tokensSince_rows {calls : List Tracked} (hc : ∀ t ∈ calls, t.Coherent) (tenantKey : Text) (c : ℚ) :
    tokensSince (calls.filterMap Tracked.row) tenantKey c = (calls.filter fun t => t.call.tenantKey = tenantKey ∧
      t.booked.any fun b => c ≤ b.2).filterMap fun t => t.row.map Row.tokens := by
  rw [tokensSince, List.filter_filterMap, List.map_filterMap, List.filterMap_filter]
  refine List.filterMap_congr fun t ht => ?_
  cases hb : t.booked with
  | none => simp [Tracked.row, hb]
  | some b =>
      have hkey := (hc t ht).tenantKey b hb
      rw [Tracked.row, hb, Option.bind_some]
      cases t.call.status <;> by_cases h : t.call.tenantKey = tenantKey ∧ c ≤ b.2 <;> simp [Option.filter, hkey, h]

/-- The rows of the calls hold, in some order, what they cost. -/
theorem sums_of_balanced (h : Balanced limiter S) (tenantKey : Text) {now : ℚ} (hnow : ∀ l ∈ S.last, l ≤ now) :
    total S.db.rows tenantKey (limiter.cutoff now) = (S.amountsSince tenantKey (limiter.cutoff now)).sum ∧
      ((tokensSince S.db.rows tenantKey (limiter.cutoff now)).map Int.natAbs).sum =
        ((S.amountsSince tenantKey (limiter.cutoff now)).map Int.natAbs).sum := by
  have hperm := h.covers.tokensSince_perm hnow tenantKey
  have hamounts : S.amountsSince tenantKey (limiter.cutoff now) =
      (S.admittedSince tenantKey (limiter.cutoff now)).map fun t => (t.row.map Row.tokens).getD 0 := by
    refine List.map_congr_left fun t ht => ?_
    have hsince := (of_decide_eq_true (List.mem_filter.mp ht).2).2
    apply amount_eq
    cases hb : t.booked with
    | none => simp [hb] at hsince
    | some b => rfl
  have hrows := tokensSince_rows h.coherent tenantKey (limiter.cutoff now)
  constructor
  · rw [total, hperm.sum_eq, hrows, hamounts]
    exact sum_filterMap (fun t => rfl) _
  · rw [(hperm.map Int.natAbs).sum_eq, hrows, hamounts, List.map_filterMap, List.map_map]
    refine sum_filterMap (fun t => ?_) _
    rw [Function.comp_apply]
    cases t.row <;> rfl

/-- A tenant's window can be summed up. -/
def Countable (S : System) (tenantKey : Text) (cutoff : ℚ) : Prop :=
  Utf8.scalar tenantKey ∧ ((S.amountsSince tenantKey cutoff).map Int.natAbs).sum < 9223372036854775808

/-- In a run that reconciles to nothing but what can be stored, a tenant has used
at every clock reading what its admitted calls cost since the cutoff, if that can
be summed up: the estimate of a call in flight, what an answered call was
charged, and nothing for a failed one. Every answered call is one of the admitted
ones. Amounts that are not negative are summed up in no other case. -/
theorem used_eq_charges (config : RouterConfig) (limiter : TokenRateLimiter) {S : System}
    (h : Reachable config limiter (fun n => isStorable n) S) (tenantKey : Text) (now : ℚ) (hnow : ∀ l ∈ S.last, l ≤ now) :
    (S.Countable tenantKey (limiter.cutoff now) →
      limiter.usedSync S.db tenantKey now = .ok (S.amountsSince tenantKey (limiter.cutoff now)).sum) ∧
    ((∀ n ∈ S.amountsSince tenantKey (limiter.cutoff now), 0 ≤ n) →
      limiter.usedSync S.db tenantKey now = .ok (S.amountsSince tenantKey (limiter.cutoff now)).sum →
      S.Countable tenantKey (limiter.cutoff now)) ∧
    ∀ t ∈ S.calls, ∀ response, t.call.status = .returned response → t.booked.isSome := by
  have hb := balanced_of_reachable h
  obtain ⟨htotal, habs⟩ := sums_of_balanced hb tenantKey hnow
  refine ⟨?_, ?_, fun t ht => (hb.coherent t ht).returned⟩
  · rintro ⟨hkey, hfits⟩
    rw [← habs] at hfits
    exact sum_ok_iff.mpr ⟨hkey, sumsStorable_of_natAbs hfits, htotal.symm⟩
  · intro hnonneg hused
    obtain ⟨hkey, hsums, -⟩ := sum_ok_iff.mp hused
    have hlt := (isStorable_iff.mp hsums.sum).2
    rw [← total, htotal] at hlt
    have hsum := natAbs_sum_of_nonneg hnonneg
    exact ⟨hkey, by omega⟩

theorem used_eq_charges_failover :
    ∃ S, Reachable ⟨⟨str "p", [], [], 3⟩, ⟨str "s", [], [], 6⟩⟩ ⟨100, 60, .exact⟩ (fun n => isStorable n) S ∧
      TokenRateLimiter.usedSync ⟨100, 60, .exact⟩ S.db (str "a") 5 = .ok 30 := by
  have hrun := ((((Relation.ReflTransGen.refl (r := Step ⟨⟨str "p", [], [], 3⟩, ⟨str "s", [], [], 6⟩⟩
      ⟨100, 60, .exact⟩ (fun n => isStorable n)) (a := init)).tail
    (.arrive _ (str "a") 16 (str "id"))).tail
    (.reserve _ 0 _ 1 .empty rfl rfl (by simp [init]))).tail
    (.primary _ 0 _ ⟨1, str "a", 16⟩ (.error (.providerRateLimited (str "p") none)) rfl rfl (by simp))).tail
    (.secondary _ 0 _ ⟨1, str "a", 16⟩ (.ok ⟨str "s", [], [], 10, 20⟩) rfl rfl (by simp)) |>.tail
    (.reconcile _ 0 _ ⟨1, str "a", 16⟩ ⟨str "s", [], [], 10, 20⟩ 30 rfl rfl (by decide))
  refine ⟨_, hrun, ((used_eq_charges _ _ hrun (str "a") 5 ?_).1 ?_).trans ?_⟩
  · decide +kernel
  · exact ⟨by decide +kernel, by decide +kernel⟩
  · decide +kernel

/-- A call that is charged 2 ^ 63 - 1 tokens next to one in flight leaves a usage
that cannot be summed up, and one that is to be charged 2 ^ 63 ends in an error
while its row stays at the estimate. -/
theorem used_overflows :
    (∃ S, Reachable ⟨⟨str "p", [], [], 3⟩, ⟨str "s", [], [], 6⟩⟩ ⟨100, 60, .exact⟩ (fun _ => True) S ∧
      S.last = some 2 ∧ S.amountsSince (str "a") (TokenRateLimiter.cutoff ⟨100, 60, .exact⟩ 2) = [9223372036854775807, 16] ∧
      TokenRateLimiter.usedSync ⟨100, 60, .exact⟩ S.db (str "a") 2 = .error .operationalError) ∧
    ∃ S, Reachable ⟨⟨str "p", [], [], 3⟩, ⟨str "s", [], [], 6⟩⟩ ⟨100, 60, .exact⟩ (fun _ => True) S ∧
      S.last = some 1 ∧ S.amountsSince (str "a") (TokenRateLimiter.cutoff ⟨100, 60, .exact⟩ 1) = [0] ∧
      TokenRateLimiter.usedSync ⟨100, 60, .exact⟩ S.db (str "a") 1 = .ok 16 := by
  have hstart := Relation.ReflTransGen.refl (r := Step ⟨⟨str "p", [], [], 3⟩, ⟨str "s", [], [], 6⟩⟩
    ⟨100, 60, .exact⟩ (fun _ => True)) (a := init)
  constructor
  · have hrun := ((((hstart.tail
      (.arrive _ (str "a") 16 (str "id"))).tail
      (.arrive _ (str "a") 16 (str "id2"))).tail
      (.reserve _ 0 _ 1 .empty rfl rfl (by simp [init]))).tail
      (.reserve _ 1 _ 2 .empty rfl rfl (by decide +kernel))).tail
      (.primary _ 0 _ ⟨1, str "a", 16⟩ (.ok ⟨str "p", [], [], 9223372036854775807, 0⟩) rfl rfl (by simp)) |>.tail
      (.reconcile _ 0 _ ⟨1, str "a", 16⟩ ⟨str "p", [], [], 9223372036854775807, 0⟩ 9223372036854775807 rfl rfl trivial)
    exact ⟨_, hrun, rfl, by decide +kernel, by decide +kernel⟩
  · have hrun := ((hstart.tail
      (.arrive _ (str "a") 16 (str "id"))).tail
      (.reserve _ 0 _ 1 .empty rfl rfl (by simp [init]))).tail
      (.primary _ 0 _ ⟨1, str "a", 16⟩ (.ok ⟨str "p", [], [], 9223372036854775808, 0⟩) rfl rfl (by simp)) |>.tail
      (.reconcile _ 0 _ ⟨1, str "a", 16⟩ ⟨str "p", [], [], 9223372036854775808, 0⟩ 9223372036854775808 rfl rfl trivial)
    exact ⟨_, hrun, rfl, by decide +kernel, by decide +kernel⟩

end System

end LlmGateway.Router
