import LlmGateway.Utf8
import Mathlib.Algebra.BigOperators.Group.List.Basic
import Mathlib.Algebra.GroupWithZero.Nat
import Mathlib.Algebra.Order.BigOperators.Group.List
import Mathlib.Algebra.Order.Group.Int
import Mathlib.Algebra.Order.Group.Nat
import Mathlib.Algebra.Order.Ring.Rat
import Mathlib.Data.List.Infix
import Mathlib.Order.Monotone.Defs

namespace LlmGateway

/-- How the results of clock arithmetic are rounded. Any monotone rounding
onto a set of representable times will do. -/
structure Rounding where
  round : ℚ → ℚ
  mono : Monotone round
  idem : ∀ x, round (round x) = round x

namespace Rounding

def exact : Rounding := ⟨id, monotone_id, fun _ => rfl⟩

def Representable (R : Rounding) (t : ℚ) : Prop := ∃ x, R.round x = t

theorem Representable.round_eq {R : Rounding} {t : ℚ} (h : R.Representable t) : R.round t = t := by
  obtain ⟨x, rfl⟩ := h
  exact R.idem x

end Rounding

namespace Limiter

/-- The exceptions of a call to SQLite, by their class. -/
inductive DatabaseError
  | overflowError
  | operationalError
  | unicodeEncodeError
  deriving DecidableEq

def DatabaseError.name : DatabaseError → Text
  | overflowError => str "OverflowError"
  | operationalError => str "OperationalError"
  | unicodeEncodeError => str "UnicodeEncodeError"

section Integers

/-- An int that can be bound to a column of SQLite. -/
def isStorable (n : Int) : Bool := -9223372036854775808 ≤ n && n < 9223372036854775808

/-- An int that str() can write: it has at most 4300 digits. -/
def isPrintable (n : Int) : Bool := n.natAbs < 10 ^ 4300

/-- SUM over INTEGER values, from a partial sum on. -/
def sumFrom (partialSum : Int) : List Int → Except DatabaseError Int
  | [] => .ok partialSum
  | n :: ns => if isStorable (partialSum + n) then sumFrom (partialSum + n) ns else .error .operationalError

/-- No partial sum leaves 64 bits. -/
def SumsStorable (ns : List Int) : Prop := ∀ p ∈ ns.inits, isStorable p.sum

instance (ns : List Int) : Decidable (SumsStorable ns) := inferInstanceAs (Decidable (∀ _ ∈ _, _))

variable {ns ms : List Int} {n partialSum : Int}

theorem isStorable_iff : isStorable n ↔ -9223372036854775808 ≤ n ∧ n < 9223372036854775808 := by simp [isStorable]

theorem isPrintable_of_isStorable (h : isStorable n) : isPrintable n := by
  rw [isStorable_iff] at h
  have hle : n.natAbs ≤ 9223372036854775808 := by omega
  have hdigits : 9223372036854775808 < 10 ^ 4300 := by decide +kernel
  exact decide_eq_true (lt_of_le_of_lt hle hdigits)

theorem sumFrom_ok (h : sumFrom partialSum ns = .ok n) : n = partialSum + ns.sum := by
  induction ns generalizing partialSum with
  | nil =>
      cases h
      rw [List.sum_nil, add_zero]
  | cons m ns ih =>
      rw [sumFrom] at h
      split at h
      · rw [ih h, List.sum_cons, add_assoc]
      · cases h

theorem sumFrom_eq_iff (hstart : isStorable partialSum) :
    sumFrom partialSum ns = .ok (partialSum + ns.sum) ↔ ∀ p ∈ ns.inits, isStorable (partialSum + p.sum) := by
  induction ns generalizing partialSum with
  | nil => simp [sumFrom, hstart]
  | cons m ns ih =>
      rw [sumFrom, List.inits_cons, List.forall_mem_cons, List.forall_mem_map, List.sum_nil, add_zero]
      simp only [List.sum_cons, ← add_assoc]
      by_cases hm : isStorable (partialSum + m)
      · rw [if_pos hm, ih hm]
        exact ⟨fun h => ⟨hstart, h⟩, fun h => h.2⟩
      · rw [if_neg hm]
        refine iff_of_false (fun h => by cases h) fun h => hm ?_
        simpa using h.2 [] (List.mem_inits _ _ |>.mpr List.nil_prefix)

theorem sumFrom_zero_iff : sumFrom 0 ns = .ok ns.sum ↔ SumsStorable ns := by
  have h := @sumFrom_eq_iff ns 0 (by decide)
  simpa only [zero_add, SumsStorable] using h

theorem SumsStorable.sum (h : SumsStorable ns) : isStorable ns.sum := h ns ((List.mem_inits ns ns).mpr List.prefix_rfl)

theorem sum_filterMap {α M : Type} [AddMonoid M] {f : α → Option M} {g : α → M} (h : ∀ a, g a = (f a).getD 0)
    (l : List α) : (l.filterMap f).sum = (l.map g).sum := by
  induction l with
  | nil => rfl
  | cons a l ih =>
      rw [List.filterMap_cons, List.map_cons, List.sum_cons, h, ← ih]
      cases f a with
      | none => exact (zero_add _).symm
      | some n => exact List.sum_cons

/-- What does not count in a sum does not count in its partial sums. -/
theorem sumFrom_filterMap {α : Type} {f : α → Option Int} {g : α → Int} (h : ∀ a, g a = (f a).getD 0)
    (hstart : isStorable partialSum) (l : List α) : sumFrom partialSum (l.filterMap f) = sumFrom partialSum (l.map g) := by
  induction l generalizing partialSum with
  | nil => rfl
  | cons a l ih =>
      rw [List.filterMap_cons, List.map_cons, h]
      cases f a with
      | none =>
          rw [Option.getD_none, sumFrom, add_zero, if_pos hstart]
          exact ih hstart
      | some n =>
          rw [Option.getD_some, sumFrom, sumFrom]
          by_cases hn : isStorable (partialSum + n)
          · rw [if_pos hn, if_pos hn]
            exact ih hn
          · rw [if_neg hn, if_neg hn]

theorem sumsStorable_filterMap {α : Type} {f : α → Option Int} {g : α → Int} (h : ∀ a, g a = (f a).getD 0) (l : List α) :
    SumsStorable (l.filterMap f) ↔ SumsStorable (l.map g) := by
  rw [← sumFrom_zero_iff, ← sumFrom_zero_iff, sumFrom_filterMap h (by decide), sum_filterMap h]

theorem guard_getD (n : Int) : n = (Option.guard (fun n => decide (n ≠ 0)) n).getD 0 := by
  by_cases hn : n = 0 <;> simp [Option.guard, hn]

/-- Nor do zeros. -/
theorem sumsStorable_nonzero (ns : List Int) : SumsStorable (ns.filter fun n => n ≠ 0) ↔ SumsStorable ns := by
  have h := @sumsStorable_filterMap Int (Option.guard fun n => decide (n ≠ 0)) id guard_getD ns
  rwa [List.map_id, List.filterMap_eq_filter] at h

theorem sum_nonzero (ns : List Int) : (ns.filter fun n => n ≠ 0).sum = ns.sum := by
  have h := @sum_filterMap Int Int _ (Option.guard fun n => decide (n ≠ 0)) id guard_getD ns
  rwa [List.map_id, List.filterMap_eq_filter] at h

theorem natAbs_sum_le (ns : List Int) : ns.sum.natAbs ≤ (ns.map Int.natAbs).sum := by
  induction ns with
  | nil => exact le_refl 0
  | cons n ns ih =>
      rw [List.map_cons, List.sum_cons, List.sum_cons]
      exact le_trans (Int.natAbs_add_le n ns.sum) (Nat.add_le_add_left ih _)

theorem natAbs_sum_of_nonneg (h : ∀ n ∈ ns, 0 ≤ n) : ((ns.map Int.natAbs).sum : Int) = ns.sum := by
  induction ns with
  | nil => rfl
  | cons n ns ih =>
      obtain ⟨hn, hns⟩ := List.forall_mem_cons.mp h
      rw [List.map_cons, List.sum_cons, List.sum_cons, Nat.cast_add, ih hns, Int.natAbs_of_nonneg hn]

/-- Amounts that are small together can be summed up in every order. -/
theorem sumsStorable_of_natAbs (h : (ns.map Int.natAbs).sum < 9223372036854775808) : SumsStorable ns := by
  intro p hp
  have hsub := ((List.mem_inits p ns).mp hp).sublist.map Int.natAbs
  have hle := hsub.sum_le_sum (fun n _ => Nat.zero_le n)
  have habs := natAbs_sum_le p
  rw [isStorable_iff]
  omega

theorem sumsStorable_iff_of_nonneg (h : ∀ n ∈ ns, 0 ≤ n) : SumsStorable ns ↔ ns.sum < 9223372036854775808 := by
  constructor
  · intro hns
    exact (isStorable_iff.mp hns.sum).2
  · intro hlt p hp
    have hsub := ((List.mem_inits p ns).mp hp).sublist
    have hle := hsub.sum_le_sum h
    have hnonneg := List.sum_nonneg fun n hn => h n (hsub.subset hn)
    rw [isStorable_iff]
    omega

end Integers

structure Row where
  id : Nat
  tenantKey : Text
  ts : ℚ
  tokens : Int
  deriving DecidableEq

/-- The usage table in the order of its ids, and the largest id that
AUTOINCREMENT has given out. -/
structure Database where
  rows : List Row
  sequence : Nat
  id_le : ∀ r ∈ rows, r.id ≤ sequence
  id_lt : rows.Pairwise fun r r' => r.id < r'.id

def Row.setTokens (id : Nat) (tokens : Int) (r : Row) : Row :=
  if r.id = id then { r with tokens := tokens } else r

@[simp] theorem Row.setTokens_id (id : Nat) (tokens : Int) (r : Row) : (r.setTokens id tokens).id = r.id := by
  rw [setTokens]
  split <;> rfl

@[simp] theorem Row.setTokens_ts (id : Nat) (tokens : Int) (r : Row) : (r.setTokens id tokens).ts = r.ts := by
  rw [setTokens]
  split <;> rfl

namespace Database

def empty : Database := ⟨[], 0, by simp, List.Pairwise.nil⟩

/-- DELETE FROM usage WHERE not p. -/
def keep (db : Database) (p : Row → Bool) : Database where
  rows := db.rows.filter p
  sequence := db.sequence
  id_le r hr := db.id_le r (List.mem_of_mem_filter hr)
  id_lt := db.id_lt.filter p

/-- INSERT INTO usage (tenant_key, ts, tokens). -/
def insert (db : Database) (tenantKey : Text) (ts : ℚ) (tokens : Int) : Database where
  rows := db.rows ++ [⟨db.sequence + 1, tenantKey, ts, tokens⟩]
  sequence := db.sequence + 1
  id_le := by
    rw [List.forall_mem_append, List.forall_mem_singleton]
    exact ⟨fun r hr => Nat.le_succ_of_le (db.id_le r hr), Nat.le_refl _⟩
  id_lt := by
    refine List.pairwise_append.mpr ⟨db.id_lt, List.pairwise_singleton _ _, fun r hr r' hr' => ?_⟩
    rw [List.mem_singleton.mp hr']
    exact Nat.lt_succ_of_le (db.id_le r hr)

/-- UPDATE usage SET tokens = ? WHERE id = ?. -/
def setTokens (db : Database) (id : Nat) (tokens : Int) : Database where
  rows := db.rows.map (Row.setTokens id tokens)
  sequence := db.sequence
  id_le := by
    refine List.forall_mem_map.mpr fun r hr => ?_
    rw [Row.setTokens_id]
    exact db.id_le r hr
  id_lt := by
    rw [List.pairwise_map]
    simpa only [Row.setTokens_id] using db.id_lt

/-- The rows of a tenant from the cutoff on. -/
def select (db : Database) (tenantKey : Text) (cutoff : ℚ) : List Row :=
  db.rows.filter fun r => r.tenantKey = tenantKey ∧ cutoff ≤ r.ts

def evict (db : Database) (cutoff : ℚ) : Database := db.keep fun r => ¬ r.ts < cutoff

/-- The rows come in the order of their ids, which is that of the index as long
as the clock does not step back. A lone surrogate cannot be bound. -/
def sum (db : Database) (tenantKey : Text) (cutoff : ℚ) : Except DatabaseError Int :=
  if Utf8.scalar tenantKey then sumFrom 0 ((db.select tenantKey cutoff).map Row.tokens) else .error .unicodeEncodeError

end Database

structure RateLimitExceeded where
  tenantKey : Text
  used : Int
  requested : Int
  limit : Int
  retryAfter : ℚ
  deriving DecidableEq

/-- What a reserve raises. -/
inductive ReserveError
  | rateLimitExceeded (exc : RateLimitExceeded)
  | database (e : DatabaseError)
  deriving DecidableEq

/-- raise RateLimitExceeded(..). Where its message cannot be written the second
ROLLBACK has no transaction to roll back. -/
def RateLimitExceeded.raised (exc : RateLimitExceeded) : ReserveError :=
  if isPrintable exc.used && isPrintable exc.limit && isPrintable exc.requested then .rateLimitExceeded exc
  else .database .operationalError

theorem RateLimitExceeded.raised_iff {exc : RateLimitExceeded} (hused : isStorable exc.used) :
    exc.raised = .rateLimitExceeded exc ↔ isPrintable exc.limit ∧ isPrintable exc.requested := by
  rw [raised, isPrintable_of_isStorable hused, Bool.true_and, ← Bool.and_eq_true]
  split
  · next h => exact iff_of_true rfl h
  · next h => exact iff_of_false (fun he => by cases he) h

structure Reservation where
  rowId : Nat
  tenantKey : Text
  reserved : Int
  deriving DecidableEq

structure TokenRateLimiter where
  limit : Int
  windowSeconds : ℚ
  arithmetic : Rounding

namespace TokenRateLimiter

variable (self : TokenRateLimiter)

/-- now - window_seconds, as the machine computes it. -/
def cutoff (now : ℚ) : ℚ := self.arithmetic.round (now - self.windowSeconds)

def retryAfter (db : Database) (tenantKey : Text) (cutoff now : ℚ) : ℚ :=
  match ((db.select tenantKey cutoff).map Row.ts).min? with
  | none => 0
  | some ts => max 0 (self.arithmetic.round (self.arithmetic.round (ts + self.windowSeconds) - now))

/-- One BEGIN IMMEDIATE transaction, in which the clock reads now. The query
for retry_after comes after the ROLLBACK and sees a later table. -/
def reserveSync (db : Database) (tenantKey : Text) (estimatedTokens : Int) (now : ℚ) (later : Database) :
    Except ReserveError Reservation × Database :=
  let cutoff := self.cutoff now
  let evicted := db.evict cutoff
  match evicted.sum tenantKey cutoff with
  | .error e => (.error (.database e), db)
  | .ok used =>
    if used + estimatedTokens > self.limit then
      (.error (RateLimitExceeded.raised
        ⟨tenantKey, used, estimatedTokens, self.limit, self.retryAfter later tenantKey cutoff now⟩), db)
    else if isStorable estimatedTokens then
      let inserted := evicted.insert tenantKey now estimatedTokens
      (.ok ⟨inserted.sequence, tenantKey, estimatedTokens⟩, inserted)
    else (.error (.database .overflowError), db)

def reconcileSync (db : Database) (reservation : Reservation) (actualTokens : Int) : Except DatabaseError Database :=
  if isStorable actualTokens then .ok (db.setTokens reservation.rowId actualTokens) else .error .overflowError

def releaseSync (db : Database) (reservation : Reservation) : Database :=
  db.keep fun r => r.id ≠ reservation.rowId

def usedSync (db : Database) (tenantKey : Text) (now : ℚ) : Except DatabaseError Int := db.sum tenantKey (self.cutoff now)

def rowsSync (db : Database) : Nat := db.rows.length

variable {self}

theorem cutoff_mono : Monotone self.cutoff := fun _ _ h =>
  self.arithmetic.mono (sub_le_sub_right h self.windowSeconds)

/-- A representable time in a closed window is not before the cutoff of its end. -/
theorem cutoff_le {a ts now : ℚ} (hts : self.arithmetic.Representable ts) (ha : a ≤ ts)
    (hnow : now ≤ a + self.windowSeconds) : self.cutoff now ≤ ts := by
  rw [← hts.round_eq]
  exact self.arithmetic.mono (le_trans (sub_le_iff_le_add.mpr hnow) ha)

section Reserve

variable {db later : Database} {tenantKey : Text} {estimatedTokens used : Int} {now : ℚ}

/-- The usage that a reserve at now decides on. -/
def usedAt (self : TokenRateLimiter) (db : Database) (tenantKey : Text) (now : ℚ) : Except DatabaseError Int :=
  (db.evict (self.cutoff now)).sum tenantKey (self.cutoff now)

/-- What a rejected reserve at now says. -/
def exceeded (self : TokenRateLimiter) (tenantKey : Text) (estimatedTokens used : Int) (now : ℚ) (later : Database) :
    RateLimitExceeded :=
  ⟨tenantKey, used, estimatedTokens, self.limit, self.retryAfter later tenantKey (self.cutoff now) now⟩

theorem reserveSync_failed {e : DatabaseError} (h : self.usedAt db tenantKey now = .error e) :
    self.reserveSync db tenantKey estimatedTokens now later = (.error (.database e), db) := by
  rw [usedAt] at h
  simp only [reserveSync, h]

theorem reserveSync_rejected (h : self.usedAt db tenantKey now = .ok used) (hover : self.limit < used + estimatedTokens) :
    self.reserveSync db tenantKey estimatedTokens now later =
      (.error (self.exceeded tenantKey estimatedTokens used now later).raised, db) := by
  rw [usedAt] at h
  simp only [reserveSync, h, gt_iff_lt, if_pos hover]
  rfl

theorem reserveSync_admitted (h : self.usedAt db tenantKey now = .ok used) (hfit : used + estimatedTokens ≤ self.limit)
    (hstorable : isStorable estimatedTokens) :
    self.reserveSync db tenantKey estimatedTokens now later =
      (.ok ⟨db.sequence + 1, tenantKey, estimatedTokens⟩,
        (db.evict (self.cutoff now)).insert tenantKey now estimatedTokens) := by
  rw [usedAt] at h
  simp only [reserveSync, h, gt_iff_lt, if_neg (not_lt.mpr hfit), if_pos hstorable]
  rfl

theorem reserveSync_overflow (h : self.usedAt db tenantKey now = .ok used) (hfit : used + estimatedTokens ≤ self.limit)
    (hstorable : ¬ isStorable estimatedTokens) :
    self.reserveSync db tenantKey estimatedTokens now later = (.error (.database .overflowError), db) := by
  rw [usedAt] at h
  simp only [reserveSync, h, gt_iff_lt, if_neg (not_lt.mpr hfit), if_neg hstorable]

/-- A reserve depends on the table through the tenant's usage. -/
theorem reserveSync_eq (self : TokenRateLimiter) (db : Database) (tenantKey : Text) (estimatedTokens : Int) (now : ℚ)
    (later : Database) : self.reserveSync db tenantKey estimatedTokens now later =
      match self.usedAt db tenantKey now with
      | .error e => (.error (.database e), db)
      | .ok used =>
        if self.limit < used + estimatedTokens then (.error (self.exceeded tenantKey estimatedTokens used now later).raised, db)
        else if isStorable estimatedTokens then
          (.ok ⟨db.sequence + 1, tenantKey, estimatedTokens⟩, (db.evict (self.cutoff now)).insert tenantKey now estimatedTokens)
        else (.error (.database .overflowError), db) := rfl

/-- A reserve raises and changes nothing, or it is admitted. -/
theorem reserveSync_cases (self : TokenRateLimiter) (db : Database) (tenantKey : Text) (estimatedTokens : Int) (now : ℚ)
    (later : Database) :
    (∃ e, self.reserveSync db tenantKey estimatedTokens now later = (.error e, db)) ∨
      (∃ used, self.usedAt db tenantKey now = .ok used ∧ used + estimatedTokens ≤ self.limit) ∧
        isStorable estimatedTokens ∧
        self.reserveSync db tenantKey estimatedTokens now later =
          (.ok ⟨db.sequence + 1, tenantKey, estimatedTokens⟩,
            (db.evict (self.cutoff now)).insert tenantKey now estimatedTokens) := by
  cases hused : self.usedAt db tenantKey now with
  | error e => exact Or.inl ⟨_, reserveSync_failed hused⟩
  | ok used =>
      rcases lt_or_ge self.limit (used + estimatedTokens) with hover | hfit
      · exact Or.inl ⟨_, reserveSync_rejected hused hover⟩
      · by_cases hstorable : isStorable estimatedTokens
        · exact Or.inr ⟨⟨used, rfl, hfit⟩, hstorable, reserveSync_admitted hused hfit hstorable⟩
        · exact Or.inl ⟨_, reserveSync_overflow hused hfit hstorable⟩

theorem reconcileSync_eq {reservation : Reservation} {actualTokens : Int} (h : isStorable actualTokens) :
    reconcileSync db reservation actualTokens = .ok (db.setTokens reservation.rowId actualTokens) := if_pos h

theorem reconcileSync_ok {reservation : Reservation} {actualTokens : Int} {db' : Database}
    (h : reconcileSync db reservation actualTokens = .ok db') :
    isStorable actualTokens ∧ db' = db.setTokens reservation.rowId actualTokens := by
  rw [reconcileSync] at h
  split at h
  · next hstorable => exact ⟨hstorable, (Except.ok.inj h).symm⟩
  · cases h

end Reserve

end TokenRateLimiter

/-- The tokens of a tenant's rows from the cutoff on. -/
def tokensSince (rows : List Row) (tenantKey : Text) (cutoff : ℚ) : List Int :=
  (rows.filter fun r => r.tenantKey = tenantKey ∧ cutoff ≤ r.ts).map Row.tokens

def total (rows : List Row) (tenantKey : Text) (cutoff : ℚ) : Int := (tokensSince rows tenantKey cutoff).sum

theorem total_cons (r : Row) (rows : List Row) (tenantKey : Text) (c : ℚ) :
    total (r :: rows) tenantKey c =
      (if r.tenantKey = tenantKey ∧ c ≤ r.ts then r.tokens else 0) + total rows tenantKey c := by
  simp only [total, tokensSince, List.filter_cons, decide_eq_true_eq]
  split
  · rw [List.map_cons, List.sum_cons]
  · rw [zero_add]

section Sum

variable {db : Database} {tenantKey : Text} {c : ℚ} {n : Int}

theorem sum_ok_iff : db.sum tenantKey c = .ok n ↔
    Utf8.scalar tenantKey ∧ SumsStorable (tokensSince db.rows tenantKey c) ∧ n = total db.rows tenantKey c := by
  rw [Database.sum]
  change (if Utf8.scalar tenantKey then sumFrom 0 (tokensSince db.rows tenantKey c) else _) = _ ↔ _
  by_cases hkey : Utf8.scalar tenantKey
  · rw [if_pos hkey, ← sumFrom_zero_iff]
    constructor
    · intro h
      have hn : n = total db.rows tenantKey c := by rw [sumFrom_ok h, zero_add, total]
      rw [hn] at h
      exact ⟨hkey, h, hn⟩
    · rintro ⟨-, h, rfl⟩
      exact h
  · rw [if_neg hkey]
    exact iff_of_false (fun h => by cases h) fun h => hkey h.1

theorem select_evict (db : Database) (tenantKey : Text) (c : ℚ) : (db.evict c).select tenantKey c = db.select tenantKey c := by
  rw [Database.select, Database.evict, Database.keep, List.filter_filter]
  refine List.filter_congr fun r _ => ?_
  by_cases hr : c ≤ r.ts <;> simp [hr]

theorem usedAt_eq (limiter : TokenRateLimiter) (db : Database) (tenantKey : Text) (now : ℚ) :
    limiter.usedAt db tenantKey now = db.sum tenantKey (limiter.cutoff now) := by
  rw [TokenRateLimiter.usedAt, Database.sum, select_evict, Database.sum]

end Sum

/-- The table holds rows of full only, and every row of it that a cutoff of a
reading after the last one can see. -/
structure Shadows (limiter : TokenRateLimiter) (last : Option ℚ) (db : Database) (full : List Row) : Prop where
  sub : ∀ r ∈ db.rows, r ∈ full
  visible : ∀ c, (∀ t ∈ last, limiter.cutoff t ≤ c) →
    (db.rows.filter fun r => c ≤ r.ts) = full.filter fun r => c ≤ r.ts

namespace Shadows

variable {limiter : TokenRateLimiter} {last : Option ℚ} {db : Database} {full : List Row} {now : ℚ}

theorem empty : Shadows limiter none .empty [] := ⟨by simp [Database.empty], fun _ _ => rfl⟩

theorem tokensSince_eq (h : Shadows limiter last db full) {c : ℚ} (hc : ∀ t ∈ last, limiter.cutoff t ≤ c)
    (tenantKey : Text) : tokensSince db.rows tenantKey c = tokensSince full tenantKey c := by
  have hsplit (rows : List Row) : (rows.filter fun r => r.tenantKey = tenantKey ∧ c ≤ r.ts) =
      (rows.filter fun r => c ≤ r.ts).filter fun r => r.tenantKey = tenantKey := by
    simp only [List.filter_filter, Bool.decide_and]
  rw [tokensSince, tokensSince, hsplit, hsplit, h.visible c hc]

theorem later (h : Shadows limiter last db full) (hnow : ∀ t ∈ last, t ≤ now) : Shadows limiter (some now) db full :=
  ⟨h.sub, fun c hc => h.visible c fun t ht => le_trans (TokenRateLimiter.cutoff_mono (hnow t ht)) (hc now rfl)⟩

theorem evict (h : Shadows limiter last db full) (hnow : ∀ t ∈ last, t ≤ now) :
    Shadows limiter (some now) (db.evict (limiter.cutoff now)) full := by
  refine ⟨fun r hr => h.sub r (List.mem_of_mem_filter hr), fun c hc => ?_⟩
  have hkeep : ((db.evict (limiter.cutoff now)).rows.filter fun r => c ≤ r.ts) = db.rows.filter fun r => c ≤ r.ts := by
    rw [Database.evict, Database.keep, List.filter_filter]
    refine List.filter_congr fun r _ => ?_
    have hle := hc now rfl
    by_cases hr : c ≤ r.ts
    · simp [hr, le_trans hle hr]
    · simp [hr]
  rw [hkeep]
  exact (h.later hnow).visible c hc

theorem usedAt_ok_iff (h : Shadows limiter last db full) (hnow : ∀ t ∈ last, t ≤ now) {tenantKey : Text} {n : Int} :
    limiter.usedAt db tenantKey now = .ok n ↔ Utf8.scalar tenantKey ∧
      SumsStorable (tokensSince full tenantKey (limiter.cutoff now)) ∧ n = total full tenantKey (limiter.cutoff now) := by
  have hsince := h.tokensSince_eq (fun t ht => TokenRateLimiter.cutoff_mono (hnow t ht)) tenantKey
  rw [usedAt_eq, sum_ok_iff, total, total, hsince]

theorem insert (h : Shadows limiter last db full) (tenantKey : Text) (ts : ℚ) (tokens : Int) :
    Shadows limiter last (db.insert tenantKey ts tokens) (full ++ [⟨db.sequence + 1, tenantKey, ts, tokens⟩]) := by
  refine ⟨?_, fun c hc => ?_⟩
  · rw [Database.insert, List.forall_mem_append, List.forall_mem_singleton]
    exact ⟨fun r hr => List.mem_append_left _ (h.sub r hr), List.mem_append_right _ List.mem_cons_self⟩
  · rw [Database.insert, List.filter_append, List.filter_append, h.visible c hc]

theorem setTokens (h : Shadows limiter last db full) (id : Nat) (tokens : Int) :
    Shadows limiter last (db.setTokens id tokens) (full.map (Row.setTokens id tokens)) := by
  refine ⟨List.forall_mem_map.mpr fun r hr => List.mem_map_of_mem (h.sub r hr), fun c hc => ?_⟩
  rw [Database.setTokens, List.filter_map, List.filter_map]
  simp only [Function.comp_def, Row.setTokens_ts]
  rw [h.visible c hc]

theorem keep (h : Shadows limiter last db full) (p : Row → Bool) :
    Shadows limiter last (db.keep p) (full.filter p) := by
  refine ⟨fun r hr => ?_, fun c hc => ?_⟩
  · obtain ⟨hr, hp⟩ := List.mem_filter.mp hr
    exact List.mem_filter.mpr ⟨h.sub r hr, hp⟩
  · rw [Database.keep, List.filter_comm, List.filter_comm (l := full), h.visible c hc]

end Shadows

/-- The table shadows the rows, in whatever order they are listed. -/
def Covers (limiter : TokenRateLimiter) (last : Option ℚ) (db : Database) (rows : List Row) : Prop :=
  ∃ full, full.Perm rows ∧ Shadows limiter last db full

namespace Covers

variable {limiter : TokenRateLimiter} {last : Option ℚ} {db : Database} {rows : List Row} {now : ℚ}

theorem later (h : Covers limiter last db rows) (hnow : ∀ t ∈ last, t ≤ now) : Covers limiter (some now) db rows :=
  h.imp fun _ hfull => ⟨hfull.1, hfull.2.later hnow⟩

theorem insert (h : Covers limiter last db rows) (hnow : ∀ t ∈ last, t ≤ now) (tenantKey : Text) (tokens : Int) :
    Covers limiter (some now) ((db.evict (limiter.cutoff now)).insert tenantKey now tokens)
      (⟨db.sequence + 1, tenantKey, now, tokens⟩ :: rows) := by
  obtain ⟨full, hperm, hshadows⟩ := h
  exact ⟨_, (List.perm_append_singleton _ full).trans (hperm.cons _), (hshadows.evict hnow).insert tenantKey now tokens⟩

theorem setTokens (h : Covers limiter last db rows) (id : Nat) (tokens : Int) :
    Covers limiter last (db.setTokens id tokens) (rows.map (Row.setTokens id tokens)) := by
  obtain ⟨full, hperm, hshadows⟩ := h
  exact ⟨_, hperm.map _, hshadows.setTokens id tokens⟩

theorem keep (h : Covers limiter last db rows) (p : Row → Bool) : Covers limiter last (db.keep p) (rows.filter p) := by
  obtain ⟨full, hperm, hshadows⟩ := h
  exact ⟨_, hperm.filter p, hshadows.keep p⟩

theorem tokensSince_perm (h : Covers limiter last db rows) (hnow : ∀ t ∈ last, t ≤ now) (tenantKey : Text) :
    (tokensSince db.rows tenantKey (limiter.cutoff now)).Perm (tokensSince rows tenantKey (limiter.cutoff now)) := by
  obtain ⟨full, hperm, hshadows⟩ := h
  rw [hshadows.tokensSince_eq fun t ht => TokenRateLimiter.cutoff_mono (hnow t ht)]
  exact (hperm.filter _).map _

end Covers

end Limiter

end LlmGateway
