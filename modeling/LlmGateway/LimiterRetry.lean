import LlmGateway.LimiterHistory
import Mathlib.Data.Rat.Floor

namespace LlmGateway.Limiter

variable {rows : List Row} {tenantKey : Text} {c c' : ℚ}

section Total

theorem total_le (hnonneg : ∀ r ∈ rows, 0 ≤ r.tokens) (h : c ≤ c') : total rows tenantKey c' ≤ total rows tenantKey c := by
  induction rows with
  | nil => exact le_refl _
  | cons r rows ih =>
      obtain ⟨hr, hrows⟩ := List.forall_mem_cons.mp hnonneg
      rw [total_cons, total_cons]
      refine add_le_add ?_ (ih hrows)
      by_cases h' : r.tenantKey = tenantKey ∧ c' ≤ r.ts
      · rw [if_pos h', if_pos ⟨h'.1, le_trans h h'.2⟩]
      · rw [if_neg h']
        split
        · exact hr
        · exact le_refl _

theorem total_congr (h : ∀ r ∈ rows, r.tenantKey = tenantKey → (c ≤ r.ts ↔ c' ≤ r.ts)) :
    total rows tenantKey c = total rows tenantKey c' := by
  rw [total, total, tokensSince, tokensSince]
  refine congrArg (fun rs => (rs.map Row.tokens).sum) (List.filter_congr fun r hr => ?_)
  by_cases hk : r.tenantKey = tenantKey
  · simp only [hk, h r hr hk]
  · simp only [hk, false_and]

/-- Where a later sum can be taken none of the earlier ones is needed. -/
theorem sumsStorable_later (hnonneg : ∀ r ∈ rows, 0 ≤ r.tokens) (h : c ≤ c')
    (hsums : SumsStorable (tokensSince rows tenantKey c)) : SumsStorable (tokensSince rows tenantKey c') := by
  have hsince (c : ℚ) : ∀ n ∈ tokensSince rows tenantKey c, 0 ≤ n := by
    intro n hn
    obtain ⟨r, hr, rfl⟩ := List.mem_map.mp hn
    exact hnonneg r (List.mem_of_mem_filter hr)
  rw [sumsStorable_iff_of_nonneg (hsince _)] at hsums ⊢
  exact lt_of_le_of_lt (total_le hnonneg h) hsums

end Total

namespace TokenRateLimiter

/-- The Retry-After header of a rejection: int() truncates. -/
def retryAfterHeader (d : ℚ) : Int := d.num.tdiv d.den + 1

theorem lt_retryAfterHeader {d : ℚ} (h : 0 ≤ d) : d < retryAfterHeader d := by
  rw [retryAfterHeader, Int.tdiv_eq_ediv_of_nonneg (Rat.num_nonneg.mpr h), ← Rat.floor_def]
  exact Rat.lt_floor_add_one d

variable (self : TokenRateLimiter) (db : Database) (tenantKey : Text) (e : Int)

/-- A reserve at t is rejected; no writer comes between its ROLLBACK and the
query for retry_after. -/
def Rejects (t : ℚ) : Prop := ∃ exc, (self.reserveSync db tenantKey e t db).1 = .error (.rateLimitExceeded exc)

def Admits (t : ℚ) : Prop := ∃ reservation, (self.reserveSync db tenantKey e t db).1 = .ok reservation

/-- What a client may conclude from retry_after = d at the reading now, of the
readings that the clock can give. -/
structure RightWait (now d : ℚ) : Prop where
  rejected : ∀ t, self.arithmetic.Representable t → now ≤ t → t ≤ now + d → self.Rejects db tenantKey e t
  admitted : ∀ t, self.arithmetic.Representable t → now + d < t → self.Admits db tenantKey e t
  header : ∀ t, self.arithmetic.Representable t → now + retryAfterHeader d ≤ t → self.Admits db tenantKey e t

/-- The oldest of the tenant's rows in the window. -/
def oldest (now : ℚ) : Option ℚ := ((db.select tenantKey (self.cutoff now)).map Row.ts).min?

/-- The newest of them that leaves no room for the request, together with those
that are newer still. -/
def blocking (now : ℚ) : Option ℚ :=
  (((db.select tenantKey (self.cutoff now)).filter fun r => self.limit < total db.rows tenantKey r.ts + e).map Row.ts).max?

/-- The time until a row leaves the window, as the machine computes it. -/
def wait (ts now : ℚ) : ℚ := max 0 (self.arithmetic.round (self.arithmetic.round (ts + self.windowSeconds) - now))

/-- The readings that the time to the oldest row's end covers are those at which
the blocking row is in the window. -/
def WaitsForBlocking (now : ℚ) : Prop :=
  ∀ first ∈ self.oldest db tenantKey now, ∀ last ∈ self.blocking db tenantKey e now,
    ∀ t, self.arithmetic.Representable t → now ≤ t → (t ≤ now + self.wait first now ↔ self.cutoff t ≤ last)

variable {self db tenantKey e} {now t : ℚ} {exc : RateLimitExceeded} {later : Database}

theorem wait_nonneg (ts now : ℚ) : 0 ≤ self.wait ts now := le_max_left _ _

/-- What a rejection says of the table that it has found. -/
structure Rejected (limiter : TokenRateLimiter) (db : Database) (tenantKey : Text) (e : Int) (now : ℚ) : Prop where
  key : Utf8.scalar tenantKey
  sums : SumsStorable (tokensSince db.rows tenantKey (limiter.cutoff now))
  full : limiter.limit < total db.rows tenantKey (limiter.cutoff now) + e
  printable : isPrintable limiter.limit ∧ isPrintable e

theorem rejected_of_reserveSync (h : self.reserveSync db tenantKey e now db = (.error (.rateLimitExceeded exc), later)) :
    self.Rejected db tenantKey e now ∧ later = db ∧
      exc.retryAfter = self.retryAfter db tenantKey (self.cutoff now) now := by
  cases hused : self.usedAt db tenantKey now with
  | error err =>
      rw [reserveSync_failed hused] at h
      cases h
  | ok n =>
      rcases lt_or_ge self.limit (n + e) with hover | hfit
      · rw [reserveSync_rejected hused hover] at h
        obtain ⟨hraised, rfl⟩ := Prod.mk.inj h
        have hraised := Except.error.inj hraised
        rw [usedAt_eq, sum_ok_iff] at hused
        obtain ⟨hkey, hsums, rfl⟩ := hused
        obtain rfl : self.exceeded tenantKey e (total db.rows tenantKey (self.cutoff now)) now db = exc := by
          rw [RateLimitExceeded.raised] at hraised
          split at hraised
          · exact ReserveError.rateLimitExceeded.inj hraised
          · cases hraised
        have hprintable := (@RateLimitExceeded.raised_iff (self.exceeded tenantKey e (total db.rows tenantKey (self.cutoff now))
          now db) hsums.sum).mp hraised
        exact ⟨⟨hkey, hsums, hover, hprintable⟩, rfl, rfl⟩
      · by_cases hstorable : isStorable e
        · rw [reserveSync_admitted hused hfit hstorable] at h
          cases h
        · rw [reserveSync_overflow hused hfit hstorable] at h
          cases h

section Readings

variable (hnonneg : ∀ r ∈ db.rows, 0 ≤ r.tokens) (hnow : now ≤ t)
include hnonneg hnow

theorem Rejected.usedAt (h : self.Rejected db tenantKey e now) :
    self.usedAt db tenantKey t = .ok (total db.rows tenantKey (self.cutoff t)) := by
  rw [usedAt_eq, sum_ok_iff]
  exact ⟨h.key, sumsStorable_later hnonneg (cutoff_mono hnow) h.sums, rfl⟩

theorem Rejected.rejects_iff (h : self.Rejected db tenantKey e now) :
    self.Rejects db tenantKey e t ↔ self.limit < total db.rows tenantKey (self.cutoff t) + e := by
  have hused := h.usedAt hnonneg hnow
  have hsums := sumsStorable_later hnonneg (cutoff_mono hnow) h.sums
  rw [Rejects]
  rcases lt_or_ge self.limit (total db.rows tenantKey (self.cutoff t) + e) with hover | hfit
  · rw [reserveSync_rejected hused hover]
    have hraised := (@RateLimitExceeded.raised_iff (self.exceeded tenantKey e (total db.rows tenantKey (self.cutoff t))
      t db) hsums.sum).mpr h.printable
    exact iff_of_true ⟨_, congrArg Except.error hraised⟩ hover
  · apply iff_of_false _ (not_lt.mpr hfit)
    rintro ⟨exc, hexc⟩
    by_cases hstorable : isStorable e
    · rw [reserveSync_admitted hused hfit hstorable] at hexc
      cases hexc
    · rw [reserveSync_overflow hused hfit hstorable] at hexc
      cases hexc

theorem Rejected.admits_iff (h : self.Rejected db tenantKey e now) :
    self.Admits db tenantKey e t ↔ isStorable e ∧ total db.rows tenantKey (self.cutoff t) + e ≤ self.limit := by
  have hused := h.usedAt hnonneg hnow
  rw [Admits]
  rcases lt_or_ge self.limit (total db.rows tenantKey (self.cutoff t) + e) with hover | hfit
  · rw [reserveSync_rejected hused hover]
    apply iff_of_false _ fun hfit => not_le.mpr hover hfit.2
    rintro ⟨reservation, hreservation⟩
    cases hreservation
  · by_cases hstorable : isStorable e
    · rw [reserveSync_admitted hused hfit hstorable]
      exact iff_of_true ⟨_, rfl⟩ ⟨hstorable, hfit⟩
    · rw [reserveSync_overflow hused hfit hstorable]
      apply iff_of_false _ fun h => hstorable h.1
      rintro ⟨reservation, hreservation⟩
      cases hreservation

end Readings

/-- A tenant that has no room though its request is within the limit has an
oldest row. -/
theorem exists_oldest (he : e ≤ self.limit) (hover : self.limit < total db.rows tenantKey c + e) :
    ∃ r ∈ db.select tenantKey c, (∀ r' ∈ db.select tenantKey c, r.ts ≤ r'.ts) ∧
      ((db.select tenantKey c).map Row.ts).min? = some r.ts := by
  cases hmin : ((db.select tenantKey c).map Row.ts).min? with
  | none =>
      have hnil := List.map_eq_nil_iff.mp (List.min?_eq_none_iff.mp hmin)
      rw [total, tokensSince, ← Database.select, hnil, List.map_nil, List.sum_nil, zero_add] at hover
      exact absurd he (not_le.mpr hover)
  | some ts =>
      obtain ⟨hmem, hle⟩ := List.min?_eq_some_iff.mp hmin
      obtain ⟨r, hr, rfl⟩ := List.mem_map.mp hmem
      exact ⟨r, hr, fun r' hr' => hle r'.ts (List.mem_map_of_mem hr'), rfl⟩

theorem mem_select {r : Row} : r ∈ db.select tenantKey c ↔ r ∈ db.rows ∧ r.tenantKey = tenantKey ∧ c ≤ r.ts := by
  rw [Database.select, List.mem_filter, decide_eq_true_iff]

/-- There is no room from a cutoff on because some row that it keeps leaves none. -/
theorem exists_blocking (he : e ≤ self.limit) (hover : self.limit < total db.rows tenantKey c + e) :
    ∃ r ∈ db.select tenantKey c, self.limit < total db.rows tenantKey r.ts + e := by
  obtain ⟨r, hr, hmin, -⟩ := exists_oldest he hover
  refine ⟨r, hr, ?_⟩
  have hcongr : total db.rows tenantKey r.ts = total db.rows tenantKey c := by
    apply total_congr
    intro r' hr' hk
    exact ⟨fun h => le_trans (mem_select.mp hr).2.2 h, fun h => hmin r' (mem_select.mpr ⟨hr', hk, h⟩)⟩
  rwa [hcongr]

/-- There is no room exactly as long as the blocking row is in the window. -/
theorem over_iff (hnonneg : ∀ r ∈ db.rows, 0 ≤ r.tokens) (he : e ≤ self.limit) {last : ℚ}
    (hlast : self.blocking db tenantKey e now = some last) (hc : self.cutoff now ≤ c) :
    self.limit < total db.rows tenantKey c + e ↔ c ≤ last := by
  obtain ⟨hmem, hle⟩ := List.max?_eq_some_iff.mp hlast
  obtain ⟨r, hr, rfl⟩ := List.mem_map.mp hmem
  constructor
  · intro hover
    obtain ⟨r', hr', hover'⟩ := exists_blocking he hover
    obtain ⟨hrow, hkey, hseen⟩ := mem_select.mp hr'
    have hwindow : r' ∈ db.select tenantKey (self.cutoff now) := mem_select.mpr ⟨hrow, hkey, le_trans hc hseen⟩
    exact le_trans hseen (hle r'.ts (List.mem_map_of_mem (List.mem_filter.mpr ⟨hwindow, decide_eq_true hover'⟩)))
  · intro hcr
    have hover := of_decide_eq_true (List.mem_filter.mp hr).2
    exact lt_of_lt_of_le hover (add_le_add_left (total_le hnonneg hcr) e)

theorem exists_blocking_now (he : e ≤ self.limit) (h : self.Rejected db tenantKey e now) :
    ∃ last, self.blocking db tenantKey e now = some last := by
  obtain ⟨r, hr, hover⟩ := exists_blocking he h.full
  cases hlast : self.blocking db tenantKey e now with
  | some last => exact ⟨last, rfl⟩
  | none =>
      have hnil := List.map_eq_nil_iff.mp (List.max?_eq_none_iff.mp hlast)
      exact absurd hover (by simpa using List.filter_eq_nil_iff.mp hnil r hr)

/-- The clock arithmetic rounds in any way. retry_after tells when the oldest row
leaves the window, and a request is admitted once the blocking row has. It is the
right wait exactly when the two come to the same at every reading of the clock
and the amount can be stored. -/
theorem rightWait_iff (self : TokenRateLimiter) (db later : Database) (hnonneg : ∀ r ∈ db.rows, 0 ≤ r.tokens)
    (tenantKey : Text) (e : Int) (he : e ≤ self.limit) (now : ℚ) (exc : RateLimitExceeded)
    (h : self.reserveSync db tenantKey e now db = (.error (.rateLimitExceeded exc), later))
    (hclock : ∃ t, self.arithmetic.Representable t ∧ now + exc.retryAfter < t) :
    self.RightWait later tenantKey e now exc.retryAfter ↔ isStorable e ∧ self.WaitsForBlocking db tenantKey e now := by
  obtain ⟨hrej, rfl, hwait⟩ := rejected_of_reserveSync h
  obtain ⟨r, hr, -, hfirst⟩ := exists_oldest he hrej.full
  obtain ⟨last, hlast⟩ := exists_blocking_now he hrej
  have hd : exc.retryAfter = self.wait r.ts now := by rw [hwait, retryAfter, hfirst, wait]
  have hover (t : ℚ) (hnow : now ≤ t) := over_iff hnonneg he hlast (cutoff_mono hnow)
  have hwaits : self.WaitsForBlocking later tenantKey e now ↔
      ∀ t, self.arithmetic.Representable t → now ≤ t → (t ≤ now + self.wait r.ts now ↔ self.cutoff t ≤ last) := by
    simp only [WaitsForBlocking, oldest, hfirst, hlast, Option.mem_some_iff, forall_eq']
  have hle : now ≤ now + self.wait r.ts now := le_add_of_nonneg_right (wait_nonneg r.ts now)
  rw [hd] at hclock ⊢
  rw [hwaits]
  constructor
  · rintro ⟨hrejected, hadmitted, -⟩
    obtain ⟨t, ht, hlt⟩ := hclock
    refine ⟨((hrej.admits_iff hnonneg (le_trans hle hlt.le)).mp (hadmitted t ht hlt)).1, fun t ht hnow => ?_⟩
    rw [← hover t hnow, ← hrej.rejects_iff hnonneg hnow]
    constructor
    · exact hrejected t ht hnow
    · intro hrejects
      by_contra hlt
      have hadmits := (hrej.admits_iff hnonneg hnow).mp (hadmitted t ht (not_le.mp hlt))
      exact not_lt.mpr hadmits.2 ((hrej.rejects_iff hnonneg hnow).mp hrejects)
  · rintro ⟨hstorable, hreadings⟩
    have hadmits (t : ℚ) (ht : self.arithmetic.Representable t) (hlt : now + self.wait r.ts now < t) :
        self.Admits later tenantKey e t := by
      have hnow : now ≤ t := le_trans hle hlt.le
      refine (hrej.admits_iff hnonneg hnow).mpr ⟨hstorable, not_lt.mp fun hfull => ?_⟩
      exact not_le.mpr hlt ((hreadings t ht hnow).mpr ((hover t hnow).mp hfull))
    refine ⟨fun t ht hnow hle => ?_, hadmits, fun t ht hheader => hadmits t ht ?_⟩
    · exact (hrej.rejects_iff hnonneg hnow).mpr ((hover t hnow).mpr ((hreadings t ht hnow).mp hle))
    · exact lt_of_lt_of_le (add_lt_add_right (lt_retryAfterHeader (wait_nonneg r.ts now)) now) hheader

section Exact

/-- Where nothing is rounded, the wait is right exactly when the blocking row is
as old as the oldest one. -/
theorem waitsForBlocking_iff_of_exact {first last : ℚ} (hfirst : self.oldest db tenantKey now = some first)
    (hlast : self.blocking db tenantKey e now = some last) (hwait : self.wait first now = first + self.windowSeconds - now)
    (hcutoff : ∀ t, self.arithmetic.Representable t → now ≤ t → self.cutoff t = t - self.windowSeconds)
    (hend : self.arithmetic.Representable (last + self.windowSeconds)) :
    self.WaitsForBlocking db tenantKey e now ↔ first = last := by
  have hle : first ≤ last := by
    obtain ⟨r, hr, rfl⟩ := List.mem_map.mp (List.max?_eq_some_iff.mp hlast).1
    exact (List.min?_eq_some_iff.mp hfirst).2 r.ts (List.mem_map_of_mem (List.mem_of_mem_filter hr))
  have hnow : now ≤ first + self.windowSeconds := by
    have hnonneg := @wait_nonneg self first now
    rwa [hwait, sub_nonneg] at hnonneg
  have hreading (t : ℚ) (ht : self.arithmetic.Representable t) (hlater : now ≤ t) :
      (t ≤ now + self.wait first now ↔ self.cutoff t ≤ last) ↔
        (t ≤ first + self.windowSeconds ↔ t ≤ last + self.windowSeconds) := by
    rw [hwait, hcutoff t ht hlater, add_sub_cancel, sub_le_iff_le_add]
  simp only [WaitsForBlocking, hfirst, hlast, Option.mem_some_iff, forall_eq']
  constructor
  · intro h
    have hlater : now ≤ last + self.windowSeconds := le_trans hnow (add_le_add_left hle _)
    have hiff := (hreading _ hend hlater).mp (h _ hend hlater)
    exact le_antisymm hle (le_of_add_le_add_right (hiff.mpr (le_refl _)))
  · rintro rfl t ht hlater
    exact (hreading t ht hlater).mpr Iff.rfl

/-- A limiter that computes with the readings of its clock exactly. -/
abbrev ideal (limit : Int) (windowSeconds : ℚ) : TokenRateLimiter := ⟨limit, windowSeconds, .exact⟩

/-- The table after two reserves half a minute apart. -/
def twoRows (first second : Int) : Database :=
  (World.init.run (ideal 100 60) [.reserve (str "a") first 0 .empty, .reserve (str "a") second 30 .empty]).1.db

theorem rightWait_large_first : (ideal 100 60).RightWait (twoRows 60 40) (str "a") 50 40 20 := by
  apply (rightWait_iff (ideal 100 60) (twoRows 60 40) (twoRows 60 40) (by decide +kernel) (str "a") 50 (by decide) 40
    ⟨str "a", 100, 50, 100, 20⟩ (Prod.ext (by decide +kernel) ?_) ⟨61, ⟨61, rfl⟩, by decide +kernel⟩).mpr
  · refine ⟨by decide, ?_⟩
    have hfirst : (ideal 100 60).oldest (twoRows 60 40) (str "a") 40 = some 0 := by decide +kernel
    have hlast : (ideal 100 60).blocking (twoRows 60 40) (str "a") 50 40 = some 0 := by decide +kernel
    exact (waitsForBlocking_iff_of_exact hfirst hlast (by decide +kernel) (fun _ _ _ => rfl) ⟨_, rfl⟩).mpr rfl
  · have hused : (ideal 100 60).usedAt (twoRows 60 40) (str "a") 40 = .ok 100 := by decide +kernel
    rw [reserveSync_rejected hused (by decide)]

/-- The older of two rows holds less than the request lacks. -/
theorem rightWait_small_first :
    ((ideal 100 60).reserveSync (twoRows 40 60) (str "a") 50 40 (twoRows 40 60)).1 =
        .error (.rateLimitExceeded ⟨str "a", 100, 50, 100, 20⟩) ∧
      ¬ (ideal 100 60).RightWait (twoRows 40 60) (str "a") 50 40 20 := by
  refine ⟨by decide +kernel, ?_⟩
  rintro ⟨-, hadmits, -⟩
  obtain ⟨reservation, hreservation⟩ := hadmits 61 ⟨61, rfl⟩ (by decide +kernel)
  have hused : (ideal 100 60).usedAt (twoRows 40 60) (str "a") 61 = .ok 60 := by decide +kernel
  rw [reserveSync_rejected hused (by decide)] at hreservation
  cases hreservation

end Exact

end TokenRateLimiter

end LlmGateway.Limiter
