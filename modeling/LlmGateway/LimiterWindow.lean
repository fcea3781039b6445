import LlmGateway.LimiterHistory

namespace LlmGateway.Limiter

open SlidingWindow

namespace Booking

/-- The tokens that the reservation costs the tenant in the end. -/
def finalCharge (b : Booking) : Int :=
  match b.settlement with
  | .unsettled => b.reservation.reserved
  | .reconciled actual => actual
  | .released => 0

/-- By how much the actual amount exceeds the estimate. -/
def excess (b : Booking) : Int :=
  match b.settlement with
  | .reconciled actual => max 0 (actual - b.reservation.reserved)
  | _ => 0

theorem entry_charge (b : Booking) : b.entry.charge = b.finalCharge := by
  cases hs : b.settlement <;> simp [entry, Entry.charge, finalCharge, hs]

theorem entry_overrun (b : Booking) : b.entry.overrun = b.excess := by
  cases hs : b.settlement <;> simp [entry, Entry.overrun, excess, hs]

end Booking

namespace World

variable {limiter : TokenRateLimiter} {w : World}

/-- The reservations of the tenant that were made in the closed interval. -/
def madeIn (w : World) (tenantKey : Text) (a b : ℚ) : List Booking :=
  w.bookings.filter fun k => k.reservation.tenantKey = tenantKey ∧ a ≤ k.ts ∧ k.ts ≤ b

theorem within_ledger (w : World) (tenantKey : Text) (a b : ℚ) :
    within (w.ledger.logs tenantKey) a b = (w.madeIn tenantKey a b).map Booking.entry := by
  rw [within, ledger, List.filter_map, List.filter_filter, madeIn]
  refine congrArg (List.map Booking.entry) (List.filter_congr fun k _ => Bool.eq_iff_iff.mpr ?_)
  simp only [Booking.entry, Function.comp_def, Bool.and_eq_true, decide_eq_true_iff]
  exact ⟨fun h => ⟨h.2, of_decide_eq_true h.1⟩, fun h => ⟨decide_eq_true h.2, h.1⟩⟩

theorem settle_ts {P : ℚ → Prop} (h : ∀ b ∈ w.bookings, P b.ts) (n : Nat)
    (sync : Database → Reservation → Except DatabaseError Database) (f : Settlement Int → Settlement Int) :
    ∀ b ∈ (w.settle n sync f).1.bookings, P b.ts := by
  rw [settle]
  split
  · exact h
  · split
    · exact h
    · intro b hb
      obtain ⟨k, hk⟩ := List.getElem?_of_mem hb
      rw [List.getElem?_modify] at hk
      obtain ⟨b', hb', rfl⟩ := Option.map_eq_some_iff.mp hk
      have hp := h b' (List.mem_of_getElem? hb')
      split <;> exact hp

theorem step_ts {P : ℚ → Prop} (h : ∀ b ∈ w.bookings, P b.ts) {e : Event}
    (he : ∀ now ∈ e.request.reading, P now) : ∀ b ∈ (w.step limiter e).1.bookings, P b.ts := by
  cases e with
  | reserve tenantKey estimatedTokens now later =>
      rcases limiter.reserveSync_cases w.db tenantKey estimatedTokens now later with
        ⟨err, hraised⟩ | ⟨⟨n, hused, hfit⟩, hstorable, -⟩
      · rw [step_raised hraised]
        exact h
      · rw [step_admitted hused hfit hstorable, List.forall_mem_append, List.forall_mem_singleton]
        exact ⟨h, he now rfl⟩
  | reconcile n actualTokens => exact settle_ts h n _ _
  | release n => exact settle_ts h n _ _

theorem run_ts (limiter : TokenRateLimiter) {P : ℚ → Prop} (h : ∀ b ∈ w.bookings, P b.ts) {events : List Event}
    (he : ∀ e ∈ events, ∀ now ∈ e.request.reading, P now) : ∀ b ∈ (w.run limiter events).1.bookings, P b.ts := by
  induction events generalizing w with
  | nil => exact h
  | cons e events ih =>
      obtain ⟨he1, he2⟩ := List.forall_mem_cons.mp he
      exact ih (step_ts h he1) he2

theorem fits_window (h : ∀ b ∈ w.bookings, limiter.arithmetic.Representable b.ts) (tenantKey : Text) (a : ℚ) :
    Fits limiter.policy (w.ledger.logs tenantKey) a (a + limiter.windowSeconds) := by
  intro x hx e _ hax heb
  obtain ⟨k, hk, rfl⟩ := List.mem_map.mp hx
  exact TokenRateLimiter.cutoff_le (h k (List.mem_of_mem_filter hk)) hax heb

/-- Wherever a window of window_seconds is placed, what the reservations made in
it cost in the end is within the limit and the excess of their settlements, and
within the limit where no settlement exceeds its estimate. A negative limit
admits nothing, and no charges at all are not within it. -/
theorem madeIn_charge_le (limiter : TokenRateLimiter) (events : List Event) (hclock : Nondecreasing none events)
    (hread : ∀ e ∈ events, ∀ now ∈ e.request.reading, limiter.arithmetic.Representable now)
    (hnonneg : ∀ e ∈ events, e.request.Nonneg)
    (honce : (events.filterMap fun e => e.request.settles).Nodup) (tenantKey : Text) (a : ℚ) :
    let made := (init.run limiter events).1.madeIn tenantKey a (a + limiter.windowSeconds)
    0 ≤ limiter.limit ∨ made ≠ [] →
      (made.map Booking.finalCharge).sum ≤ limiter.limit + (made.map Booking.excess).sum ∧
      ((∀ b ∈ made, b.excess = 0) → (made.map Booking.finalCharge).sum ≤ limiter.limit) := by
  intro made hne
  obtain ⟨-, requests, hsub, hl⟩ := consistent_init.run hclock
  have hmade := within_ledger (init.run limiter events).1 tenantKey a (a + limiter.windowSeconds)
  have hts := run_ts limiter (w := init) (P := limiter.arithmetic.Representable) (by simp [init]) hread
  have hfits := fits_window hts tenantKey a
  rw [hl] at hmade hfits
  have hsome : 0 ≤ limiter.limit ∨ made.map Booking.entry ≠ [] := hne.imp id (mt List.map_eq_nil_iff.mp)
  rw [← hmade] at hsome
  have hnonneg' : ∀ r ∈ requests, r.Nonneg := fun r hr => (List.forall_mem_map.mpr hnonneg) r (hsub.subset hr)
  have honce' : (requests.filterMap Request.settles).Nodup :=
    (hsub.filterMap Request.settles).nodup (by rwa [List.filterMap_map])
  have hbound := Ledger.run_within_le limiter.policy requests hnonneg' honce' tenantKey hfits hsome
  have hle : (made.map Booking.finalCharge).sum ≤ limiter.limit + (made.map Booking.excess).sum := by
    have hb : within ((Ledger.init.run limiter.policy requests).1.logs tenantKey) a
      (a + limiter.windowSeconds) = made.map Booking.entry := hmade
    rw [hb, List.map_map, List.map_map] at hbound
    simp only [Function.comp_def, Booking.entry_charge, Booking.entry_overrun] at hbound
    exact hbound
  refine ⟨hle, fun hexcess => ?_⟩
  have hzero : (made.map Booking.excess).sum = 0 := List.sum_eq_zero (by simpa using hexcess)
  rwa [hzero, add_zero] at hle

theorem madeIn_charge_le_reconciled :
    (((init.run ⟨100, 60, .exact⟩ [.reserve (str "a") 60 0 .empty, .reserve (str "a") 40 60 .empty,
      .reconcile 0 70]).1.madeIn (str "a") 0 (0 + 60)).map Booking.finalCharge).sum ≤
    100 + (((init.run ⟨100, 60, .exact⟩ [.reserve (str "a") 60 0 .empty, .reserve (str "a") 40 60 .empty,
      .reconcile 0 70]).1.madeIn (str "a") 0 (0 + 60)).map Booking.excess).sum :=
  (madeIn_charge_le ⟨100, 60, .exact⟩ [.reserve (str "a") 60 0 .empty, .reserve (str "a") 40 60 .empty,
    .reconcile 0 70] (by decide +kernel) (fun _ _ now _ => ⟨now, rfl⟩) (by simp [Event.request, Request.Nonneg])
    (by decide) (str "a") 0 (Or.inl (by decide))).1

end World

end LlmGateway.Limiter
