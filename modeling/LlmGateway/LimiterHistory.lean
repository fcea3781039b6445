import LlmGateway.Limiter
import LlmGateway.SlidingWindow
import Mathlib.Algebra.Order.Group.Int

namespace LlmGateway.Limiter

open SlidingWindow

/-- A reservation that a client was given, when it was made and what has
become of it. -/
structure Booking where
  reservation : Reservation
  ts : ℚ
  settlement : Settlement Int
  deriving DecidableEq

namespace Booking

def settle (f : Settlement Int → Settlement Int) (b : Booking) : Booking := { b with settlement := f b.settlement }

/-- The settlement of the booking with number n, for any booking. -/
def settleAt (f : Settlement Int → Settlement Int) (n : Nat) (b : Booking) : Booking :=
  if b.reservation.rowId = n + 1 then b.settle f else b

@[simp] theorem settleAt_reservation (f : Settlement Int → Settlement Int) (n : Nat) (b : Booking) :
    (b.settleAt f n).reservation = b.reservation := by
  rw [settleAt]
  split <;> rfl

def row (b : Booking) : Option Row :=
  match b.settlement with
  | .unsettled => some ⟨b.reservation.rowId, b.reservation.tenantKey, b.ts, b.reservation.reserved⟩
  | .reconciled actual => some ⟨b.reservation.rowId, b.reservation.tenantKey, b.ts, actual⟩
  | .released => none

def entry (b : Booking) : Entry ℚ Int := ⟨b.reservation.rowId - 1, b.ts, b.reservation.reserved, b.settlement⟩

theorem row_spec {b : Booking} {r : Row} (h : b.row = some r) :
    r.id = b.reservation.rowId ∧ r.tenantKey = b.reservation.tenantKey ∧ r.ts = b.ts ∧
      r.tokens = b.entry.charge := by
  cases hs : b.settlement <;> simp only [row, hs, Option.some.injEq, reduceCtorEq] at h <;> subst h <;>
    simp [entry, Entry.charge, hs]

theorem row_none {b : Booking} (h : b.row = none) : b.entry.charge = 0 := by
  cases hs : b.settlement <;> simp only [row, hs, reduceCtorEq] at h
  simp [entry, Entry.charge, hs]

end Booking

/-- The charges of a log from a point in time on. -/
def chargesSince (log : List (Entry ℚ Int)) (cutoff : ℚ) : List Int :=
  (log.filter fun e => cutoff ≤ e.time).map Entry.charge

/-- The shared table and, in the order of their admission, the reservations
that the clients hold. -/
structure World where
  db : Database
  bookings : List Booking

/-- One call of a client, with the clock reading inside the transaction and the
table that a rejected call sees afterwards. -/
inductive Event
  | reserve (tenantKey : Text) (estimatedTokens : Int) (now : ℚ) (later : Database)
  | reconcile (number : Nat) (actualTokens : Int)
  | release (number : Nat)

def Event.request : Event → Request Text ℚ Int
  | reserve tenantKey estimatedTokens now _ => .reserve tenantKey now estimatedTokens
  | reconcile number actualTokens => .reconcile number actualTokens
  | release number => .release number

abbrev Answer := Except ReserveError Reservation

/-- What a reserve decides, if it comes to a decision. -/
def decision : Answer → Option (Decision Int)
  | .ok _ => some .admitted
  | .error (.rateLimitExceeded exc) => some (.rejected exc.used)
  | .error (.database _) => none

def TokenRateLimiter.policy (self : TokenRateLimiter) : Policy ℚ Int := ⟨self.limit, self.cutoff⟩

namespace World

def init : World := ⟨.empty, []⟩

variable (self : TokenRateLimiter)

/-- A settlement by the client that holds the reservation with the number. -/
def settle (w : World) (number : Nat) (sync : Database → Reservation → Except DatabaseError Database)
    (f : Settlement Int → Settlement Int) : World × Option Answer :=
  match w.bookings[number]? with
  | none => (w, none)
  | some b =>
    match sync w.db b.reservation with
    | .error e => (w, some (.error (.database e)))
    | .ok db => (⟨db, w.bookings.modify number (Booking.settle f)⟩, none)

/-- The call, and what the client gets: a settlement that does not raise returns
nothing. -/
def step (w : World) : Event → World × Option Answer
  | .reserve tenantKey estimatedTokens now later =>
    match self.reserveSync w.db tenantKey estimatedTokens now later with
    | (.ok reservation, db) => (⟨db, w.bookings ++ [⟨reservation, now, .unsettled⟩]⟩, some (.ok reservation))
    | (.error e, db) => (⟨db, w.bookings⟩, some (.error e))
  | .reconcile number actualTokens =>
    w.settle number (TokenRateLimiter.reconcileSync · · actualTokens) (Settlement.reconcile actualTokens)
  | .release number => w.settle number (fun db r => .ok (TokenRateLimiter.releaseSync db r)) Settlement.release

def run : World → List Event → World × List Answer
  | w, [] => (w, [])
  | w, e :: es =>
    let (w', a) := w.step self e
    let (w'', as) := w'.run es
    (w'', a.toList ++ as)

theorem run_cons (w : World) (e : Event) (es : List Event) :
    w.run self (e :: es) =
      (((w.step self e).1.run self es).1, (w.step self e).2.toList ++ ((w.step self e).1.run self es).2) := rfl

/-- Of a reserve, that the tenant's window can be summed up and the estimate be
stored, or the refusal be written. Of a settlement, that the amount can be stored. -/
def InRange (L : Ledger Text ℚ Int) : Request Text ℚ Int → Prop
  | .reserve tenantKey now estimatedTokens =>
    Utf8.scalar tenantKey ∧ SumsStorable (chargesSince (L.logs tenantKey) (self.cutoff now)) ∧
      (used (L.logs tenantKey) (self.cutoff now) + estimatedTokens ≤ self.limit → isStorable estimatedTokens) ∧
      (self.limit < used (L.logs tenantKey) (self.cutoff now) + estimatedTokens →
        isPrintable self.limit ∧ isPrintable estimatedTokens)
  | .reconcile number actualTokens => number < L.issued.length → isStorable actualTokens
  | .release _ => True

instance (L : Ledger Text ℚ Int) (r : Request Text ℚ Int) : Decidable (InRange self L r) :=
  match r with
  | .reserve _ _ _ => inferInstanceAs (Decidable (_ ∧ _ ∧ (_ → _) ∧ (_ → _)))
  | .reconcile _ _ => inferInstanceAs (Decidable (_ → _))
  | .release _ => inferInstanceAs (Decidable True)

/-- Every call of a run is in range of the logs that it finds. -/
def InRangeRun : Ledger Text ℚ Int → List (Request Text ℚ Int) → Prop
  | _, [] => True
  | L, r :: rs => InRange self L r ∧ InRangeRun (L.step self.policy r).1 rs

instance decidableInRangeRun : (L : Ledger Text ℚ Int) → (rs : List (Request Text ℚ Int)) → Decidable (InRangeRun self L rs)
  | _, [] => inferInstanceAs (Decidable True)
  | L, r :: rs =>
    have := decidableInRangeRun (L.step self.policy r).1 rs
    inferInstanceAs (Decidable (_ ∧ _))

/-- The bookings as separate logs. -/
def ledger (w : World) : Ledger Text ℚ Int where
  logs key := (w.bookings.filter fun b => b.reservation.tenantKey = key).map Booking.entry
  issued := w.bookings.map fun b => b.reservation.tenantKey

/-- Every booking has the id that is one more than its number. -/
def Numbered (bookings : List Booking) : Prop := ∀ k b, bookings[k]? = some b → b.reservation.rowId = k + 1

/-- The table after a run whose last clock reading was last. -/
structure Consistent (limiter : TokenRateLimiter) (last : Option ℚ) (w : World) : Prop where
  numbered : Numbered w.bookings
  sequence : w.db.sequence = w.bookings.length
  shadows : Shadows limiter last w.db (w.bookings.filterMap Booking.row)

end World

section Bookings

variable {bookings : List Booking} {n : Nat} {f : Settlement Int → Settlement Int}

open World

theorem World.Numbered.eq_of_rowId (h : Numbered bookings) {b b' : Booking} (hb : bookings[n]? = some b)
    (hb' : b' ∈ bookings) (hid : b'.reservation.rowId = n + 1) : b' = b := by
  obtain ⟨k, hk⟩ := List.getElem?_of_mem hb'
  have hkn := h k b' hk
  obtain rfl : k = n := by omega
  exact Option.some.inj (hk.symm.trans hb)

theorem World.Numbered.modify_eq_map (h : Numbered bookings) (f : Settlement Int → Settlement Int) :
    bookings.modify n (Booking.settle f) = bookings.map (Booking.settleAt f n) := by
  refine List.ext_getElem? fun k => ?_
  rw [List.getElem?_modify, List.getElem?_map]
  cases hk : bookings[k]? with
  | none => rfl
  | some b =>
      have hid := h k b hk
      simp only [Option.map_eq_map, Option.map_some, Booking.settleAt, hid]
      by_cases hkn : n = k
      · simp [hkn]
      · simp [hkn, Ne.symm hkn]

theorem World.Numbered.modify (h : Numbered bookings) : Numbered (bookings.modify n (Booking.settle f)) := by
  intro k b hb
  rw [List.getElem?_modify] at hb
  obtain ⟨b', hb', rfl⟩ := Option.map_eq_some_iff.mp hb
  have hid := h k b' hb'
  split <;> exact hid

theorem Booking.charge_eq (b : Booking) : b.entry.charge = (b.row.map Row.tokens).getD 0 := by
  cases hr : b.row with
  | none => exact Booking.row_none hr
  | some r => exact (Booking.row_spec hr).2.2.2.symm

theorem tokensSince_rows (bookings : List Booking) (tenantKey : Text) (c : ℚ) :
    tokensSince (bookings.filterMap Booking.row) tenantKey c =
      (bookings.filter fun b => b.reservation.tenantKey = tenantKey ∧ c ≤ b.ts).filterMap fun b => b.row.map Row.tokens := by
  rw [tokensSince, List.filter_filterMap, List.map_filterMap, List.filterMap_filter]
  refine congrArg (List.filterMap · bookings) (funext fun b => ?_)
  cases hr : b.row with
  | none => simp
  | some r =>
      obtain ⟨-, hkey, hts, -⟩ := Booking.row_spec hr
      by_cases h : b.reservation.tenantKey = tenantKey ∧ c ≤ b.ts <;> simp [Option.filter, hkey, hts, h]

theorem chargesSince_entries (bookings : List Booking) (tenantKey : Text) (c : ℚ) :
    chargesSince ((bookings.filter fun b => b.reservation.tenantKey = tenantKey).map Booking.entry) c =
      (bookings.filter fun b => b.reservation.tenantKey = tenantKey ∧ c ≤ b.ts).map fun b => b.entry.charge := by
  rw [chargesSince, List.filter_map, List.filter_filter, List.map_map]
  refine congrArg (List.map _) (List.filter_congr fun b _ => Bool.eq_iff_iff.mpr ?_)
  simp only [Booking.entry, Function.comp_def, Bool.and_eq_true, decide_eq_true_iff]
  exact ⟨fun h => ⟨h.2, of_decide_eq_true h.1⟩, fun h => ⟨decide_eq_true h.2, h.1⟩⟩

/-- What the table would charge if it never lost a row is what the tenant's log charges. -/
theorem total_eq_used (bookings : List Booking) (tenantKey : Text) (c : ℚ) :
    total (bookings.filterMap Booking.row) tenantKey c =
      used ((bookings.filter fun b => b.reservation.tenantKey = tenantKey).map Booking.entry) c := by
  rw [total, tokensSince_rows, sum_filterMap Booking.charge_eq, ← chargesSince_entries]
  rfl

theorem sumsStorable_rows (bookings : List Booking) (tenantKey : Text) (c : ℚ) :
    SumsStorable (tokensSince (bookings.filterMap Booking.row) tenantKey c) ↔
      SumsStorable (chargesSince ((bookings.filter fun b => b.reservation.tenantKey = tenantKey).map Booking.entry) c) := by
  rw [tokensSince_rows, sumsStorable_filterMap Booking.charge_eq, ← chargesSince_entries]

theorem World.Numbered.rows_reconcile (h : Numbered bookings) (actual : Int) :
    (bookings.modify n (Booking.settle (Settlement.reconcile actual))).filterMap Booking.row =
      (bookings.filterMap Booking.row).map (Row.setTokens (n + 1) actual) := by
  rw [h.modify_eq_map, List.filterMap_map, List.map_filterMap]
  refine congrArg (List.filterMap · bookings) (funext fun b => ?_)
  by_cases hid : b.reservation.rowId = n + 1
  · cases hs : b.settlement <;>
      simp [Booking.settleAt, Booking.settle, Booking.row, Settlement.reconcile, Row.setTokens, hid, hs]
  · cases hs : b.settlement <;> simp [Booking.settleAt, Booking.row, Row.setTokens, hid, hs]

theorem World.Numbered.rows_release (h : Numbered bookings) :
    (bookings.modify n (Booking.settle Settlement.release)).filterMap Booking.row =
      (bookings.filterMap Booking.row).filter fun r => r.id ≠ n + 1 := by
  rw [h.modify_eq_map, List.filterMap_map, List.filter_filterMap]
  refine congrArg (List.filterMap · bookings) (funext fun b => ?_)
  by_cases hid : b.reservation.rowId = n + 1
  · cases hs : b.settlement <;>
      simp [Booking.settleAt, Booking.settle, Booking.row, Settlement.release, Option.filter, hid, hs]
  · cases hs : b.settlement <;> simp [Booking.settleAt, Booking.row, Option.filter, hid, hs]

theorem World.Numbered.entry_settleAt (h : Numbered bookings) {b : Booking} (hb : b ∈ bookings) :
    (b.settleAt f n).entry = b.entry.settle f n := by
  obtain ⟨k, hk⟩ := List.getElem?_of_mem hb
  have hid := h k b hk
  by_cases hkn : k = n
  · simp [Booking.settleAt, Booking.settle, Booking.entry, Entry.settle, hid, hkn]
  · simp [Booking.settleAt, Booking.entry, Entry.settle, hid, hkn]

theorem World.Numbered.ledger_settle {w : World} {db : Database} {b : Booking} (h : Numbered w.bookings)
    (hb : w.bookings[n]? = some b) :
    World.ledger ⟨db, w.bookings.modify n (Booking.settle f)⟩ = w.ledger.settle f n := by
  have hissued : w.ledger.issued[n]? = some b.reservation.tenantKey := by
    rw [World.ledger, List.getElem?_map, hb, Option.map_some]
  have hlog (key : Text) : ((w.bookings.map (Booking.settleAt f n)).filter fun b => b.reservation.tenantKey = key).map
      Booking.entry = (w.ledger.logs key).map (Entry.settle f n) := by
    rw [List.filter_map, List.map_map, World.ledger, List.map_map]
    simp only [Function.comp_def, Booking.settleAt_reservation]
    exact List.map_congr_left fun b' hb' => h.entry_settleAt (List.mem_of_mem_filter hb')
  have hother (key : Text) (hne : key ≠ b.reservation.tenantKey) :
      (w.ledger.logs key).map (Entry.settle f n) = w.ledger.logs key := by
    refine (List.map_congr_left fun e he => Entry.settle_of_ne fun hen => hne ?_).trans (List.map_id _)
    obtain ⟨b', hb', rfl⟩ := List.mem_map.mp he
    obtain ⟨hmem, hkey⟩ := List.mem_filter.mp hb'
    obtain ⟨k, hk⟩ := List.getElem?_of_mem hmem
    have hid := h k b' hk
    simp only [Booking.entry, hid, Nat.add_sub_cancel] at hen
    rw [← h.eq_of_rowId hb hmem (by rw [hid, hen]), of_decide_eq_true hkey]
  rw [Ledger.settle, hissued, World.ledger, h.modify_eq_map]
  refine congrArg₂ Ledger.mk (funext fun key => ?_) ?_
  · rw [Function.update_apply, hlog]
    split
    · next heq => rw [heq]
    · next hne => exact hother key hne
  · simp only [List.map_map, Function.comp_def, Booking.settleAt_reservation]
    rfl

end Bookings

section Step

variable {limiter : TokenRateLimiter} {last : Option ℚ} {w : World}

namespace World

theorem consistent_init : Consistent limiter none init := ⟨by simp [Numbered, init], rfl, Shadows.empty⟩

theorem Consistent.later (h : Consistent limiter last w) {now : ℚ} (hnow : ∀ t ∈ last, t ≤ now) :
    Consistent limiter (some now) w := ⟨h.numbered, h.sequence, h.shadows.later hnow⟩

theorem Consistent.usedAt_ok_iff (h : Consistent limiter last w) {now : ℚ} (hnow : ∀ t ∈ last, t ≤ now)
    {tenantKey : Text} {n : Int} : limiter.usedAt w.db tenantKey now = .ok n ↔ Utf8.scalar tenantKey ∧
      SumsStorable (chargesSince (w.ledger.logs tenantKey) (limiter.cutoff now)) ∧
      n = used (w.ledger.logs tenantKey) (limiter.cutoff now) := by
  rw [h.shadows.usedAt_ok_iff hnow, sumsStorable_rows, total_eq_used]
  rfl

/-- A call that fails in the database and leaves everything as it is. -/
def Fails (limiter : TokenRateLimiter) (w : World) (e : Event) : Prop :=
  ∃ err, w.step limiter e = (w, some (.error (.database err)))

/-- The simulation of one call by the separate logs. -/
structure Simulates (limiter : TokenRateLimiter) (last : Option ℚ) (w : World) (e : Event) : Prop where
  consistent : Consistent limiter last (w.step limiter e).1
  ledger : (w.step limiter e).1.ledger = (w.ledger.step limiter.policy e.request).1
  decision : (w.step limiter e).2.map decision = (w.ledger.step limiter.policy e.request).2.map some

theorem Numbered.append {bookings : List Booking} (h : Numbered bookings) {b : Booking}
    (hb : b.reservation.rowId = bookings.length + 1) : Numbered (bookings ++ [b]) := by
  intro k b' hk
  rw [List.getElem?_append] at hk
  split at hk
  · exact h k b' hk
  · next hlen =>
      have hlt := (List.getElem?_eq_some_iff.mp hk).1
      rw [List.length_singleton] at hlt
      obtain rfl : k = bookings.length := by omega
      simp only [Nat.sub_self, List.getElem?_cons_zero, Option.some.injEq] at hk
      rw [← hk, hb]

theorem ledger_append (w : World) (db : Database) (b : Booking) (hb : b.reservation.rowId = w.bookings.length + 1) :
    ledger ⟨db, w.bookings ++ [b]⟩ = ⟨Function.update w.ledger.logs b.reservation.tenantKey
      (w.ledger.logs b.reservation.tenantKey ++
        [⟨w.ledger.issued.length, b.ts, b.reservation.reserved, b.settlement⟩]),
      w.ledger.issued ++ [b.reservation.tenantKey]⟩ := by
  have hentry : b.entry = ⟨w.ledger.issued.length, b.ts, b.reservation.reserved, b.settlement⟩ := by
    rw [Booking.entry, hb, ledger, List.length_map, Nat.add_sub_cancel]
  refine congrArg₂ Ledger.mk (funext fun key => ?_) ?_
  · rw [Function.update_apply, List.filter_append, List.map_append]
    split
    · next hkey =>
        rw [hkey, List.filter_cons_of_pos (by simp), List.filter_nil, List.map_singleton, hentry]
        rfl
    · next hkey =>
        rw [List.filter_cons_of_neg (by simpa using Ne.symm hkey), List.filter_nil, List.map_nil, List.append_nil]
        rfl
  · rw [List.map_append, List.map_singleton]
    rfl

section Reserve

variable {tenantKey : Text} {estimatedTokens n : Int} {now : ℚ} {later : Database}

theorem step_raised {e : ReserveError} (h : limiter.reserveSync w.db tenantKey estimatedTokens now later = (.error e, w.db)) :
    w.step limiter (.reserve tenantKey estimatedTokens now later) = (w, some (.error e)) := by rw [step, h]

theorem step_admitted (h : limiter.usedAt w.db tenantKey now = .ok n) (hfit : n + estimatedTokens ≤ limiter.limit)
    (hstorable : isStorable estimatedTokens) :
    w.step limiter (.reserve tenantKey estimatedTokens now later) =
      (⟨(w.db.evict (limiter.cutoff now)).insert tenantKey now estimatedTokens,
        w.bookings ++ [⟨⟨w.db.sequence + 1, tenantKey, estimatedTokens⟩, now, .unsettled⟩]⟩,
        some (.ok ⟨w.db.sequence + 1, tenantKey, estimatedTokens⟩)) := by
  rw [step, TokenRateLimiter.reserveSync_admitted h hfit hstorable]

theorem Consistent.reserve_rejected (h : Consistent limiter last w) (hnow : ∀ t ∈ last, t ≤ now)
    (hused : limiter.usedAt w.db tenantKey now = .ok n) (hover : limiter.limit < n + estimatedTokens)
    (hlimit : isPrintable limiter.limit) (hestimate : isPrintable estimatedTokens) :
    Simulates limiter (some now) w (.reserve tenantKey estimatedTokens now later) := by
  obtain ⟨-, hsums, rfl⟩ := (h.usedAt_ok_iff hnow).mp hused
  have hraised := (@RateLimitExceeded.raised_iff (limiter.exceeded tenantKey estimatedTokens
    (used (w.ledger.logs tenantKey) (limiter.cutoff now)) now later) hsums.sum).mpr ⟨hlimit, hestimate⟩
  have hledger : w.ledger.step limiter.policy (.reserve tenantKey now estimatedTokens) =
      (w.ledger, some (.rejected (used (w.ledger.logs tenantKey) (limiter.cutoff now)))) := if_pos hover
  constructor <;> rw [step_raised (TokenRateLimiter.reserveSync_rejected hused hover)]
  · exact h.later hnow
  · rw [Event.request, hledger]
  · rw [Event.request, hledger, hraised]
    rfl

theorem Consistent.reserve_admitted (h : Consistent limiter last w) (hnow : ∀ t ∈ last, t ≤ now)
    (hused : limiter.usedAt w.db tenantKey now = .ok n) (hfit : n + estimatedTokens ≤ limiter.limit)
    (hstorable : isStorable estimatedTokens) :
    Simulates limiter (some now) w (.reserve tenantKey estimatedTokens now later) := by
  obtain ⟨-, -, rfl⟩ := (h.usedAt_ok_iff hnow).mp hused
  have hid : w.db.sequence + 1 = w.bookings.length + 1 := by rw [h.sequence]
  have hledger : w.ledger.step limiter.policy (.reserve tenantKey now estimatedTokens) = (_, some .admitted) :=
    if_neg (not_lt.mpr hfit)
  constructor <;> rw [step_admitted hused hfit hstorable]
  · refine ⟨h.numbered.append hid, ?_, ?_⟩
    · rw [List.length_append]
      exact hid
    · rw [List.filterMap_append]
      exact (h.shadows.evict hnow).insert tenantKey now estimatedTokens
  · rw [Event.request, hledger]
    exact ledger_append w _ _ hid
  · rw [Event.request, hledger]
    rfl

theorem Consistent.reserve_inRange (h : Consistent limiter last w) (hnow : ∀ t ∈ last, t ≤ now)
    (hrange : InRange limiter w.ledger (.reserve tenantKey now estimatedTokens)) :
    Simulates limiter (some now) w (.reserve tenantKey estimatedTokens now later) := by
  obtain ⟨hkey, hsums, hstorable, hprintable⟩ := hrange
  have hused := (h.usedAt_ok_iff hnow).mpr ⟨hkey, hsums, rfl⟩
  rcases lt_or_ge limiter.limit (used (w.ledger.logs tenantKey) (limiter.cutoff now) + estimatedTokens) with hover | hfit
  · exact h.reserve_rejected hnow hused hover (hprintable hover).1 (hprintable hover).2
  · exact h.reserve_admitted hnow hused hfit (hstorable hfit)

/-- What is out of range fails: the condition is exact. -/
theorem Consistent.reserve_fails (h : Consistent limiter last w) (hnow : ∀ t ∈ last, t ≤ now)
    (hrange : ¬ InRange limiter w.ledger (.reserve tenantKey now estimatedTokens)) :
    Fails limiter w (.reserve tenantKey estimatedTokens now later) := by
  cases hused : limiter.usedAt w.db tenantKey now with
  | error e => exact ⟨e, step_raised (TokenRateLimiter.reserveSync_failed hused)⟩
  | ok n =>
      obtain ⟨hkey, hsums, rfl⟩ := (h.usedAt_ok_iff hnow).mp hused
      rcases lt_or_ge limiter.limit (used (w.ledger.logs tenantKey) (limiter.cutoff now) + estimatedTokens) with hover | hfit
      · have hraised : (limiter.exceeded tenantKey estimatedTokens (used (w.ledger.logs tenantKey) (limiter.cutoff now))
            now later).raised = .database .operationalError := by
          rw [RateLimitExceeded.raised, if_neg]
          intro hprintable
          simp only [TokenRateLimiter.exceeded, Bool.and_eq_true] at hprintable
          exact hrange ⟨hkey, hsums, fun hle => absurd hover (not_lt.mpr hle), fun _ => ⟨hprintable.1.2, hprintable.2⟩⟩
        exact ⟨_, (step_raised (TokenRateLimiter.reserveSync_rejected hused hover)).trans (by rw [hraised])⟩
      · have hstorable : ¬ isStorable estimatedTokens := fun hs =>
          hrange ⟨hkey, hsums, fun _ => hs, fun hlt => absurd hfit (not_le.mpr hlt)⟩
        exact ⟨_, step_raised (TokenRateLimiter.reserveSync_overflow hused hfit hstorable)⟩

end Reserve

section Settle

variable {sync : Database → Reservation → Except DatabaseError Database} {f : Settlement Int → Settlement Int}

theorem settle_none {n : Nat} (hb : w.bookings[n]? = none) :
    w.settle n sync f = (w, none) ∧ w.ledger.settle f n = w.ledger := by
  constructor
  · rw [World.settle, hb]
  · rw [Ledger.settle, ledger, List.getElem?_map, hb]
    rfl

theorem Consistent.settle (h : Consistent limiter last w) (n : Nat) {op : Database → Reservation → Database}
    (hsync : ∀ r, sync w.db r = .ok (op w.db r)) (hseq : ∀ r, (op w.db r).sequence = w.db.sequence)
    (hrows : ∀ r, r.rowId = n + 1 → Shadows limiter last (op w.db r)
      ((w.bookings.modify n (Booking.settle f)).filterMap Booking.row)) :
    Consistent limiter last (w.settle n sync f).1 ∧ (w.settle n sync f).1.ledger = w.ledger.settle f n ∧
      (w.settle n sync f).2 = none := by
  cases hb : w.bookings[n]? with
  | none =>
      obtain ⟨hsettle, hledger⟩ := @settle_none w sync f n hb
      rw [hsettle, hledger]
      exact ⟨h, rfl, rfl⟩
  | some b =>
      have hsettle : w.settle n sync f = (⟨op w.db b.reservation, w.bookings.modify n (Booking.settle f)⟩, none) := by
        simp only [World.settle, hb, hsync]
      rw [hsettle]
      refine ⟨⟨h.numbered.modify, ?_, hrows _ (h.numbered n b hb)⟩, h.numbered.ledger_settle hb, rfl⟩
      rw [hseq, h.sequence, List.length_modify]

theorem Consistent.reconcile_inRange (h : Consistent limiter last w) {n : Nat} {actualTokens : Int}
    (hrange : InRange limiter w.ledger (.reconcile n actualTokens)) : Simulates limiter last w (.reconcile n actualTokens) := by
  by_cases hn : n < w.bookings.length
  · have hstorable := hrange (by rwa [ledger, List.length_map])
    obtain ⟨hc, hl, hd⟩ := @Consistent.settle _ _ _ (TokenRateLimiter.reconcileSync · · actualTokens)
      (Settlement.reconcile actualTokens) h n (fun db r => db.setTokens r.rowId actualTokens)
      (fun _ => TokenRateLimiter.reconcileSync_eq hstorable) (fun _ => rfl) fun r hr => by
        rw [h.numbered.rows_reconcile, hr]
        exact h.shadows.setTokens (n + 1) actualTokens
    exact ⟨hc, hl, congrArg (Option.map Limiter.decision) hd⟩
  · obtain ⟨hsettle, hledger⟩ := @settle_none w (TokenRateLimiter.reconcileSync · · actualTokens)
      (Settlement.reconcile actualTokens) n (List.getElem?_eq_none (not_lt.mp hn))
    refine ⟨?_, ?_, ?_⟩ <;> rw [World.step, hsettle]
    · exact h
    · exact hledger.symm
    · rfl

theorem reconcile_fails {n : Nat} {actualTokens : Int} (hrange : ¬ InRange limiter w.ledger (.reconcile n actualTokens)) :
    Fails limiter w (.reconcile n actualTokens) := by
  simp only [InRange, Classical.not_imp] at hrange
  obtain ⟨hn, hstorable⟩ := hrange
  rw [ledger, List.length_map] at hn
  have hsync (b : Booking) : TokenRateLimiter.reconcileSync w.db b.reservation actualTokens = .error .overflowError :=
    if_neg hstorable
  refine ⟨.overflowError, ?_⟩
  simp only [World.step, World.settle, List.getElem?_eq_getElem hn, hsync]

theorem Consistent.release (h : Consistent limiter last w) (n : Nat) :
    Simulates limiter last w (.release n) := by
  obtain ⟨hc, hl, hd⟩ := @Consistent.settle _ _ _ (fun db r => .ok (TokenRateLimiter.releaseSync db r)) Settlement.release
    h n TokenRateLimiter.releaseSync (fun _ => rfl) (fun _ => rfl) fun r hr => by
      rw [h.numbered.rows_release, TokenRateLimiter.releaseSync, hr]
      exact h.shadows.keep _
  exact ⟨hc, hl, congrArg (Option.map Limiter.decision) hd⟩

end Settle

theorem Consistent.step_inRange (h : Consistent limiter last w) (e : Event)
    (hnow : ∀ t ∈ last, ∀ now ∈ e.request.reading, t ≤ now) (hrange : InRange limiter w.ledger e.request) :
    Simulates limiter (e.request.reading.or last) w e := by
  cases e with
  | reserve tenantKey estimatedTokens now later => exact h.reserve_inRange (fun t ht => hnow t ht now rfl) hrange
  | reconcile n actualTokens => exact h.reconcile_inRange hrange
  | release n => exact h.release n

theorem Consistent.step_fails (h : Consistent limiter last w) (e : Event)
    (hnow : ∀ t ∈ last, ∀ now ∈ e.request.reading, t ≤ now) (hrange : ¬ InRange limiter w.ledger e.request) :
    Fails limiter w e ∧ Consistent limiter (e.request.reading.or last) w := by
  cases e with
  | reserve tenantKey estimatedTokens now later =>
      have hnow' (t : ℚ) (ht : t ∈ last) : t ≤ now := hnow t ht now rfl
      exact ⟨h.reserve_fails hnow' hrange, h.later hnow'⟩
  | reconcile n actualTokens => exact ⟨reconcile_fails hrange, h⟩
  | release n => exact absurd trivial hrange

/-- The clock readings of a run that starts after the reading last. -/
def Nondecreasing (last : Option ℚ) (events : List Event) : Prop :=
  (last.toList ++ events.filterMap fun e => e.request.reading).Pairwise (· ≤ ·)

instance (last : Option ℚ) (events : List Event) : Decidable (Nondecreasing last events) :=
  inferInstanceAs (Decidable (List.Pairwise _ _))

theorem Nondecreasing.cons {e : Event} {events : List Event} (h : Nondecreasing last (e :: events)) :
    (∀ t ∈ last, ∀ now ∈ e.request.reading, t ≤ now) ∧ Nondecreasing (e.request.reading.or last) events := by
  rw [Nondecreasing, List.filterMap_cons] at h
  cases hr : e.request.reading with
  | none => exact ⟨fun _ _ now hn => by simp at hn, by simpa only [hr, Option.none_or, Nondecreasing] using h⟩
  | some now =>
      simp only [hr] at h
      refine ⟨fun t ht now' hn => ?_, ?_⟩
      · rw [← Option.some.inj hn]
        exact (List.pairwise_append.mp h).2.2 t (Option.mem_toList.mpr ht) now List.mem_cons_self
      · exact (List.pairwise_append.mp h).2.1

/-- The answers of a run are the decisions of the separate logs as long as every
call is in range, and no longer. -/
theorem Consistent.run_inRange_iff (h : Consistent limiter last w) {events : List Event} (hclock : Nondecreasing last events) :
    (w.run limiter events).2.map decision = (w.ledger.run limiter.policy (events.map Event.request)).2.map some ↔
      InRangeRun limiter w.ledger (events.map Event.request) := by
  induction events generalizing w last with
  | nil => exact iff_of_true rfl trivial
  | cons e events ih =>
      obtain ⟨hnow, hrest⟩ := hclock.cons
      rw [run_cons, List.map_cons, Ledger.run_cons, List.map_append, List.map_append, InRangeRun]
      by_cases hrange : InRange limiter w.ledger e.request
      · obtain ⟨hc, hl, hd⟩ := h.step_inRange e hnow hrange
        rw [← Option.toList_map, hd, Option.toList_map, List.append_right_inj, ← hl, ih hc hrest]
        exact ⟨fun hr => ⟨hrange, hr⟩, fun hr => hr.2⟩
      · obtain ⟨⟨err, hstep⟩, -⟩ := h.step_fails e hnow hrange
        refine iff_of_false (fun heq => ?_) fun hr => hrange hr.1
        have hnone : none ∈ ((w.ledger.step limiter.policy e.request).2.toList.map some ++
            ((w.ledger.step limiter.policy e.request).1.run limiter.policy (events.map Event.request)).2.map some) := by
          rw [← heq, hstep]
          exact List.mem_cons_self
        simp at hnone

/-- In the end the logs are those of the calls that did not fail. -/
theorem Consistent.run (h : Consistent limiter last w) {events : List Event} (hclock : Nondecreasing last events) :
    (∃ last', Consistent limiter last' (w.run limiter events).1) ∧
      ∃ requests : List (Request Text ℚ Int), requests.Sublist (events.map Event.request) ∧
        (w.run limiter events).1.ledger = (w.ledger.run limiter.policy requests).1 := by
  induction events generalizing w last with
  | nil => exact ⟨⟨last, h⟩, [], List.Sublist.refl _, rfl⟩
  | cons e events ih =>
      obtain ⟨hnow, hrest⟩ := hclock.cons
      rw [run_cons]
      by_cases hrange : InRange limiter w.ledger e.request
      · have hsim := h.step_inRange e hnow hrange
        obtain ⟨hc', requests, hsub, hl⟩ := ih hsim.consistent hrest
        refine ⟨hc', e.request :: requests, hsub.cons_cons _, ?_⟩
        rw [Ledger.run_cons, ← hsim.ledger]
        exact hl
      · obtain ⟨⟨err, hstep⟩, hc⟩ := h.step_fails e hnow hrange
        obtain ⟨hc', requests, hsub, hl⟩ := ih hc hrest
        rw [hstep]
        exact ⟨hc', requests, hsub.cons _, hl⟩

theorem Consistent.row_of_id (h : Consistent limiter last w) {n : Nat} {b : Booking} (hb : w.bookings[n]? = some b)
    {r : Row} (hr : r ∈ w.db.rows) (hid : r.id = b.reservation.rowId) :
    r.tenantKey = b.reservation.tenantKey ∧ r.ts = b.ts := by
  obtain ⟨b', hb', hrow⟩ := List.mem_filterMap.mp (h.shadows.sub r hr)
  obtain ⟨hid', hkey, hts, -⟩ := Booking.row_spec hrow
  obtain rfl := h.numbered.eq_of_rowId hb hb' (by rw [← hid', hid, h.numbered n b hb])
  exact ⟨hkey, hts⟩

/-- Under the id of booking b, the n-th, the table has no row but its own, and
settling it leaves every other row as it is. -/
structure OwnsRow (w : World) (n : Nat) (b : Booking) : Prop where
  unique : ∀ m b', w.bookings[m]? = some b' → b'.reservation.rowId = b.reservation.rowId → m = n
  own : ∀ r ∈ w.db.rows, r.id = b.reservation.rowId → r.tenantKey = b.reservation.tenantKey ∧ r.ts = b.ts
  reconcile : ∀ actualTokens db, TokenRateLimiter.reconcileSync w.db b.reservation actualTokens = .ok db →
    ∀ r, r.id ≠ b.reservation.rowId → (r ∈ db.rows ↔ r ∈ w.db.rows)
  release : ∀ r, r.id ≠ b.reservation.rowId →
    (r ∈ (TokenRateLimiter.releaseSync w.db b.reservation).rows ↔ r ∈ w.db.rows)

theorem Consistent.ownsRow (h : Consistent limiter last w) {n : Nat} {b : Booking} (hb : w.bookings[n]? = some b) :
    OwnsRow w n b := by
  refine ⟨fun m b' hb' hid => ?_, fun r hr hid => h.row_of_id hb hr hid, fun actualTokens db hdb r hr => ?_, fun r hr => ?_⟩
  · have h1 := h.numbered n b hb
    have h2 := h.numbered m b' hb'
    omega
  · obtain ⟨-, rfl⟩ := TokenRateLimiter.reconcileSync_ok hdb
    simp only [Database.setTokens, List.mem_map]
    constructor
    · rintro ⟨r', hr', rfl⟩
      rw [Row.setTokens_id] at hr
      rwa [Row.setTokens, if_neg hr]
    · exact fun hmem => ⟨r, hmem, if_neg hr⟩
  · simp only [TokenRateLimiter.releaseSync, Database.keep, List.mem_filter]
    simp [hr]

/-- Every reserve is decided as one complete log for each tenant does, and no
settlement raises, exactly as long as every call is in range. In every run a settlement
reaches the row of its own reservation or none. -/
theorem run_refines_iff (limiter : TokenRateLimiter) (events : List Event) (hclock : Nondecreasing none events) :
    ((init.run limiter events).2.map decision =
        (Ledger.init.run limiter.policy (events.map Event.request)).2.map some ↔
      InRangeRun limiter Ledger.init (events.map Event.request)) ∧
      ∀ n b, (init.run limiter events).1.bookings[n]? = some b → OwnsRow (init.run limiter events).1 n b := by
  obtain ⟨⟨last, h⟩, -⟩ := consistent_init.run hclock
  exact ⟨consistent_init.run_inRange_iff hclock, fun n b hb => h.ownsRow hb⟩

/-- A settlement that comes after the eviction of its row changes no decision. -/
theorem run_refines_iff_late_settlement :
    (init.run ⟨100, 60, .exact⟩ [.reserve (str "a") 60 0 .empty, .reserve (str "a") 50 30 .empty,
        .reconcile 0 30, .reserve (str "a") 50 40 .empty, .reserve (str "b") 1 62 .empty, .reconcile 0 90,
        .reserve (str "a") 51 63 .empty]).2.map decision =
      [some .admitted, some (.rejected 60), some .admitted, some .admitted, some (.rejected 50)] := by
  rw [(run_refines_iff ⟨100, 60, .exact⟩ _ (by decide +kernel)).1.mpr (by decide +kernel)]
  decide +kernel

/-- A tenant that is charged 2 ^ 63 - 1 tokens can have its usage summed up only
as long as there is nothing else in its window. -/
theorem run_overflows :
    let events := [Event.reserve (str "a") 10 0 .empty, .reserve (str "a") 10 1 .empty,
      .reconcile 0 9223372036854775807, .reserve (str "a") 10 2 .empty]
    (init.run ⟨50000, 60, .exact⟩ events).2 =
        [.ok ⟨1, str "a", 10⟩, .ok ⟨2, str "a", 10⟩, .error (.database .operationalError)] ∧
      (Ledger.init.run (TokenRateLimiter.policy ⟨50000, 60, .exact⟩) (events.map Event.request)).2 =
        [.admitted, .admitted, .rejected 9223372036854775817] ∧
      (init.run ⟨50000, 60, .exact⟩ events).2.map decision ≠
        (Ledger.init.run (TokenRateLimiter.policy ⟨50000, 60, .exact⟩) (events.map Event.request)).2.map some := by
  decide +kernel

end World

end Step

end LlmGateway.Limiter
