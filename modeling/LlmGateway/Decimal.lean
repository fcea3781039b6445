import Mathlib.Algebra.Order.Field.Basic
import Mathlib.Algebra.Order.Ring.Rat
import Mathlib.Data.Rat.Cast.Order
import Mathlib.Tactic.Ring

namespace LlmGateway

/-- A finite decimal number, coeff * 10 ^ exp. -/
structure Decimal where
  coeff : Int
  exp : Int
  deriving DecidableEq, Repr

namespace Decimal

def pow10 : Nat → Nat
  | 0 => 1
  | n + 1 => pow10 n * 10

theorem pow10_pos (n : Nat) : 0 < pow10 n := by
  induction n with
  | zero => exact Nat.one_pos
  | succ n ih => exact Nat.mul_pos ih (by decide)

theorem pow10_add (m n : Nat) : pow10 (m + n) = pow10 m * pow10 n := by
  induction n with
  | zero => exact (Nat.mul_one _).symm
  | succ n ih => rw [← Nat.add_assoc, pow10, ih, pow10, Nat.mul_assoc]

def digitsFrom : Nat → Nat → Nat
  | 0, _ => 0
  | fuel + 1, n => if n = 0 then 0 else digitsFrom fuel (n / 10) + 1

/-- The number of decimal digits of n. -/
def digits (n : Nat) : Nat := digitsFrom n n

theorem pow10_le_of_lt_digitsFrom {fuel k n : Nat} (h : k < digitsFrom fuel n) : pow10 k ≤ n := by
  induction fuel generalizing k n with
  | zero => exact absurd h (Nat.not_lt_zero k)
  | succ fuel ih =>
      rw [digitsFrom] at h
      by_cases hn : n = 0
      · rw [if_pos hn] at h
        exact absurd h (Nat.not_lt_zero k)
      · rw [if_neg hn] at h
        cases k with
        | zero => exact Nat.pos_of_ne_zero hn
        | succ k => exact (Nat.le_div_iff_mul_le (by decide)).mp (ih (Nat.lt_of_succ_lt_succ h))

theorem pow10_le {k n : Nat} (h : k < digits n) : pow10 k ≤ n := pow10_le_of_lt_digitsFrom h

section HalfEven

/-- n / d, rounded to the nearest number and from the middle to the even one. -/
def halfEven (n d : Nat) : Nat :=
  let q := n / d
  let r := n % d
  if 2 * r < d then q else if d < 2 * r then q + 1 else if q % 2 = 0 then q else q + 1

theorem halfEven_le (n d : Nat) : halfEven n d ≤ n / d + 1 := by
  rw [halfEven]
  split
  · exact Nat.le_succ _
  · split
    · exact Nat.le_refl _
    · split
      · exact Nat.le_succ _
      · exact Nat.le_refl _

theorem halfEven_mul_eq_iff {n d : Nat} (hd : 0 < d) : halfEven n d * d = n ↔ d ∣ n := by
  constructor
  · intro h
    exact ⟨halfEven n d, by rw [Nat.mul_comm, h]⟩
  · intro h
    have hr : n % d = 0 := Nat.mod_eq_zero_of_dvd h
    rw [halfEven, hr, if_pos (by omega)]
    exact Nat.div_mul_cancel h

end HalfEven

/-- The number itself. -/
def val (d : Decimal) : ℚ := d.coeff * (10 : ℚ) ^ d.exp

theorem scale_pos (e : Int) : (0 : ℚ) < (10 : ℚ) ^ e := zpow_pos (by decide +kernel) e

theorem scale_add (e : Int) (k : Nat) : (10 : ℚ) ^ (e + k) = pow10 k * (10 : ℚ) ^ e := by
  induction k with
  | zero =>
      change (10 : ℚ) ^ (e + 0) = (1 : Nat) * (10 : ℚ) ^ e
      rw [add_zero, Nat.cast_one, one_mul]
  | succ k ih =>
      have hsucc : e + (k + 1 : Nat) = e + k + 1 := by omega
      rw [hsucc, zpow_add_one₀ (by decide +kernel), ih, pow10, Nat.cast_mul, Nat.cast_ofNat]
      exact mul_right_comm _ _ _

section Aligned

/-- The coefficient of d under the exponent e, which is not above its own. -/
def aligned (d : Decimal) (e : Int) : Int := d.coeff * pow10 (d.exp - e).toNat

theorem aligned_val (d : Decimal) {e : Int} (he : e ≤ d.exp) : d.aligned e * (10 : ℚ) ^ e = d.val := by
  have hexp : e + ((d.exp - e).toNat : Nat) = d.exp := by omega
  rw [aligned, val, Int.cast_mul, Int.cast_natCast, mul_assoc, ← scale_add, hexp]

def add (a b : Decimal) : Decimal :=
  let e := min a.exp b.exp
  ⟨a.aligned e + b.aligned e, e⟩

def sub (a b : Decimal) : Decimal :=
  let e := min a.exp b.exp
  ⟨a.aligned e - b.aligned e, e⟩

def lt (a b : Decimal) : Prop := (a.sub b).coeff < 0

instance (a b : Decimal) : Decidable (a.lt b) := inferInstanceAs (Decidable ((a.sub b).coeff < 0))

@[simp] theorem val_add (a b : Decimal) : (a.add b).val = a.val + b.val := by
  rw [← a.aligned_val (min_le_left a.exp b.exp), ← b.aligned_val (min_le_right a.exp b.exp), ← add_mul, ← Int.cast_add]
  rfl

@[simp] theorem val_sub (a b : Decimal) : (a.sub b).val = a.val - b.val := by
  rw [← a.aligned_val (min_le_left a.exp b.exp), ← b.aligned_val (min_le_right a.exp b.exp), ← sub_mul, ← Int.cast_sub]
  rfl

theorem val_pos_iff {d : Decimal} : 0 < d.val ↔ 0 < d.coeff := by
  rw [val, mul_pos_iff_of_pos_right (scale_pos _), Int.cast_pos]

theorem val_nonneg_iff {d : Decimal} : 0 ≤ d.val ↔ 0 ≤ d.coeff := by
  rw [val, mul_nonneg_iff_of_pos_right (scale_pos _), Int.cast_nonneg_iff]

@[simp] theorem lt_iff {a b : Decimal} : a.lt b ↔ a.val < b.val := by
  rw [lt, ← not_le, ← val_nonneg_iff, val_sub, sub_nonneg, not_le]

end Aligned

section Round

/-- d to at most prec significant digits. A coefficient that is rounded up to
one digit more loses its last zero. -/
def round (prec : Nat) (d : Decimal) : Decimal :=
  let n := d.coeff.natAbs
  let excess := digits n - prec
  let q := halfEven n (pow10 excess)
  if q = pow10 prec then ⟨d.coeff.sign * pow10 (prec - 1), d.exp + excess + 1⟩
  else ⟨d.coeff.sign * q, d.exp + excess⟩

/-- prec significant digits are enough for d. -/
def Fits (prec : Nat) (d : Decimal) : Prop := pow10 (digits d.coeff.natAbs - prec) ∣ d.coeff.natAbs

instance (prec : Nat) (d : Decimal) : Decidable (d.Fits prec) :=
  inferInstanceAs (Decidable (pow10 (digits d.coeff.natAbs - prec) ∣ d.coeff.natAbs))

variable {prec : Nat} {d b : Decimal}

theorem val_round (hprec : 0 < prec) :
    (d.round prec).val =
      d.coeff.sign * (halfEven d.coeff.natAbs (pow10 (digits d.coeff.natAbs - prec)) *
        pow10 (digits d.coeff.natAbs - prec) : Nat) * (10 : ℚ) ^ d.exp := by
  have hval (q k : Nat) (e : Int) : (⟨d.coeff.sign * q, e + k⟩ : Decimal).val =
      d.coeff.sign * (q * pow10 k : Nat) * (10 : ℚ) ^ e := by
    rw [val, scale_add, Int.cast_mul, Int.cast_natCast, Nat.cast_mul]
    ring
  rw [round]
  split
  · next hq =>
      have hcarry : pow10 prec = pow10 (prec - 1) * pow10 1 := by
        obtain ⟨p, rfl⟩ := Nat.exists_eq_succ_of_ne_zero (Nat.ne_of_gt hprec)
        rfl
      have hexp : d.exp + (digits d.coeff.natAbs - prec : Nat) + 1 =
          d.exp + ((1 + (digits d.coeff.natAbs - prec) : Nat) : Int) := by omega
      rw [hq, hcarry, hexp, hval, pow10_add, Nat.mul_assoc]
  · exact hval _ _ _

theorem val_eq_sign (d : Decimal) : d.val = d.coeff.sign * d.coeff.natAbs * (10 : ℚ) ^ d.exp := by
  rw [val, ← Int.cast_natCast, ← Int.cast_mul, Int.sign_mul_natAbs]

theorem val_round_eq_iff (hprec : 0 < prec) : (d.round prec).val = d.val ↔ d.Fits prec := by
  rw [val_round hprec, val_eq_sign, Fits, ← halfEven_mul_eq_iff (pow10_pos _)]
  by_cases hd : d.coeff = 0
  · rw [hd]
    apply iff_of_true
    · simp
    · exact (halfEven_mul_eq_iff (pow10_pos _)).mpr (dvd_zero _)
  · have hsign : (d.coeff.sign : ℚ) ≠ 0 := by
      rw [Ne, Int.cast_eq_zero, Int.sign_eq_zero_iff_zero]
      exact hd
    rw [mul_left_inj' (scale_pos d.exp).ne', mul_right_inj' hsign, Nat.cast_inj]

theorem fits_of_digits_le (h : digits d.coeff.natAbs ≤ prec) : d.Fits prec := by
  rw [Fits, Nat.sub_eq_zero_of_le h]
  exact one_dvd _

/-- Nothing is rounded off a coefficient of at most prec digits. -/
theorem round_of_lt (h : d.coeff.natAbs < pow10 prec) : d.round prec = d := by
  have hdigits : digits d.coeff.natAbs - prec = 0 :=
    Nat.sub_eq_zero_of_le (not_lt.mp fun hlt => absurd (pow10_le hlt) (not_le.mpr h))
  have heven : halfEven d.coeff.natAbs 1 = d.coeff.natAbs := by
    have hmul := (@halfEven_mul_eq_iff d.coeff.natAbs 1 Nat.one_pos).mpr (one_dvd _)
    rwa [Nat.mul_one] at hmul
  rw [round, hdigits, pow10, heven, if_neg h.ne, Int.sign_mul_natAbs, Nat.cast_zero, add_zero]

/-- Between n and the next multiple of 10 ^ k there is no multiple of any power
of ten that has fewer digits than n without its last k. -/
theorem next_multiple_le {n m k : Nat} {e f : Int} (hk : 0 < k) (hn : pow10 (prec + (k - 1)) ≤ n) (hm : m < pow10 prec)
    (h : n * (10 : ℚ) ^ e < m * (10 : ℚ) ^ f) :
    ((n / pow10 k + 1) * pow10 k : Nat) * (10 : ℚ) ^ e ≤ m * (10 : ℚ) ^ f := by
  by_cases hf : e + k ≤ f
  · obtain ⟨i, hi⟩ := Int.eq_ofNat_of_zero_le (sub_nonneg.mpr hf)
    have hscale : m * (10 : ℚ) ^ f = (m * pow10 i * pow10 k : Nat) * (10 : ℚ) ^ e := by
      have hexp : f = e + k + i := by omega
      rw [hexp, scale_add, scale_add, Nat.cast_mul, Nat.cast_mul]
      ring
    rw [hscale] at h ⊢
    have hlt := Nat.cast_lt.mp (lt_of_mul_lt_mul_right h (scale_pos e).le)
    have hdiv : n / pow10 k < m * pow10 i := (Nat.div_lt_iff_lt_mul (pow10_pos k)).mpr hlt
    apply mul_le_mul_of_nonneg_right _ (scale_pos e).le
    exact Nat.cast_le.mpr (Nat.mul_le_mul_right _ hdiv)
  · exfalso
    apply not_le.mpr h
    calc m * (10 : ℚ) ^ f ≤ pow10 prec * (10 : ℚ) ^ (e + (k - 1 : Nat)) := by
          apply mul_le_mul _ _ (scale_pos f).le (Nat.cast_nonneg _)
          · exact Nat.cast_le.mpr hm.le
          · exact zpow_le_zpow_right₀ (by decide +kernel) (by omega)
      _ = (pow10 (prec + (k - 1)) : Nat) * (10 : ℚ) ^ e := by
          rw [scale_add, pow10_add, Nat.cast_mul, mul_assoc]
      _ ≤ n * (10 : ℚ) ^ e := by
          apply mul_le_mul_of_nonneg_right _ (scale_pos e).le
          exact Nat.cast_le.mpr hn

/-- No number of prec digits lies between d and its rounding. -/
theorem round_le (hprec : 0 < prec) (hb : b.coeff.natAbs < pow10 prec) (hpos : 0 < b.val) (h : d.val < b.val) :
    (d.round prec).val ≤ b.val := by
  by_cases hfits : d.Fits prec
  · rw [(val_round_eq_iff hprec).mpr hfits]
    exact h.le
  · have hlong : prec < digits d.coeff.natAbs := lt_of_not_ge fun hle => hfits (fits_of_digits_le hle)
    rw [val_round hprec]
    by_cases hd : d.coeff ≤ 0
    · apply le_trans _ hpos.le
      apply mul_nonpos_of_nonpos_of_nonneg _ (scale_pos d.exp).le
      apply mul_nonpos_of_nonpos_of_nonneg
      · exact Int.cast_nonpos.mpr (Int.sign_nonpos_iff.mpr hd)
      · exact Nat.cast_nonneg _
    · have hbval : b.val = b.coeff.natAbs * (10 : ℚ) ^ b.exp := by
        rw [val_eq_sign, Int.sign_eq_one_of_pos (val_pos_iff.mp hpos), Int.cast_one, one_mul]
      rw [val_eq_sign, Int.sign_eq_one_of_pos (not_le.mp hd), Int.cast_one, one_mul, hbval] at h
      rw [Int.sign_eq_one_of_pos (not_le.mp hd), Int.cast_one, one_mul, hbval]
      have hn : pow10 (prec + (digits d.coeff.natAbs - prec - 1)) ≤ d.coeff.natAbs := pow10_le (by omega)
      apply le_trans _ (next_multiple_le (by omega) hn hb h)
      apply mul_le_mul_of_nonneg_right _ (scale_pos d.exp).le
      exact Nat.cast_le.mpr (Nat.mul_le_mul_right _ (halfEven_le _ _))

end Round

end Decimal

end LlmGateway
