import LlmGateway.Checksum
import LlmGateway.Redactor

namespace LlmGateway.Redactor

open Checksum

variable {U : Unicode}

/-- A text that int() takes character by character. -/
abbrev DigitString (U : Unicode) (t : Text) : Prop := t.all U.isDecimal

section Weights

theorem intOf_lt (U : Unicode) (c : CodePoint) : intOf U c < 10 := by
  rw [intOf]
  cases U.decimal c with
  | none => decide
  | some d => exact d.isLt

theorem weigh_eq_sum (w : Nat → Nat → Nat) (i : Nat) (t : Text) :
    weigh w i (t.map (intOf U)) = ((t.zipIdx i).map fun p => w p.2 (intOf U p.1)).sum := by
  induction t generalizing i with
  | nil => rfl
  | cons c t ih => rw [List.map_cons, weigh, ih, List.zipIdx_cons, List.map_cons, List.sum_cons]

theorem luhnTotal_eq (U : Unicode) (t : Text) : luhnTotal U t = weigh luhnValue 0 (t.reverse.map (intOf U)) := by
  rw [luhnTotal, ← List.sum_eq_foldl_nat, weigh_eq_sum]

theorem luhnOk_iff {t : Text} : luhnOk U t ↔ weigh luhnValue 0 (t.reverse.map (intOf U)) ≡ 0 [MOD 10] := by
  rw [luhnOk, decide_eq_true_iff, luhnTotal_eq]
  rfl

/-- Doubling with 9 subtracted above 9 permutes the digits. -/
theorem luhnValue_injective {i x y : Nat} (hx : x < 10) (hy : y < 10) (h : luhnValue i x ≡ luhnValue i y [MOD 10]) :
    x = y := by
  have hall : ∀ x < 10, ∀ y < 10, ∀ p < 2, luhnValue p x % 10 = luhnValue p y % 10 → x = y := by decide
  have hparity : ∀ v, luhnValue (i % 2) v = luhnValue i v := fun v => by rw [luhnValue, luhnValue, Nat.mod_mod]
  exact hall x hx y hy (i % 2) (Nat.mod_lt i (by decide)) (by rw [hparity, hparity]; exact h)

/-- Neighbours weigh the same either way only if they are equal or 0 and 9. -/
theorem luhnValue_swap {i x y : Nat} (hx : x < 10) (hy : y < 10)
    (h : luhnValue i x + luhnValue (i + 1) y ≡ luhnValue i y + luhnValue (i + 1) x [MOD 10]) :
    x = y ∨ x = 0 ∧ y = 9 ∨ x = 9 ∧ y = 0 := by
  have hall : ∀ x y : Fin 10, ∀ p : Fin 2,
      (luhnValue p x + luhnValue (p + 1) y) % 10 = (luhnValue p y + luhnValue (p + 1) x) % 10 →
        x.val = y.val ∨ x.val = 0 ∧ y.val = 9 ∨ x.val = 9 ∧ y.val = 0 := by decide
  have hparity (v : Nat) : luhnValue (i % 2) v = luhnValue i v ∧ luhnValue (i % 2 + 1) v = luhnValue (i + 1) v := by
    have hsucc : (i % 2 + 1) % 2 = (i + 1) % 2 := by omega
    rw [luhnValue, luhnValue, luhnValue, luhnValue, Nat.mod_mod, hsucc]
    exact ⟨rfl, rfl⟩
  refine hall ⟨x, hx⟩ ⟨y, hy⟩ ⟨i % 2, Nat.mod_lt i (by decide)⟩ ?_
  dsimp only
  rw [(hparity x).1, (hparity y).2, (hparity y).1, (hparity x).2]
  exact h

end Weights

section Code

/-- Every second number doubled, less 9 above 9, and the others as they are. -/
def alternateSum (double : Bool) : List Nat → Nat
  | [] => 0
  | v :: vs => (if double then (if 2 * v > 9 then 2 * v - 9 else 2 * v) else v) + alternateSum (!double) vs

/-- The sum over the digits of a number that lacks its last one. -/
def payloadSum (U : Unicode) (p : Text) : Nat := alternateSum true (p.reverse.map (intOf U))

def checkDigit (U : Unicode) (p : Text) : Nat := (10 - payloadSum U p % 10) % 10

theorem weigh_luhnValue (i : Nat) (vs : List Nat) : weigh luhnValue i vs = alternateSum (i % 2 = 1) vs := by
  induction vs generalizing i with
  | nil => rfl
  | cons v vs ih =>
      have hnot : (!decide (i % 2 = 1)) = decide ((i + 1) % 2 = 1) := by
        rw [← decide_not, decide_eq_decide]
        omega
      rw [weigh, alternateSum, ih, hnot, luhnValue, Nat.mul_comm v 2]
      simp only [decide_eq_true_eq]

theorem luhnOk_append_iff (p : Text) (c : CodePoint) : luhnOk U (p ++ [c]) ↔ intOf U c = checkDigit U p := by
  have hsum : weigh luhnValue 0 ((p ++ [c]).reverse.map (intOf U)) = intOf U c + payloadSum U p := by
    rw [List.reverse_append, List.reverse_singleton, List.singleton_append, List.map_cons, weigh, weigh_luhnValue]
    rfl
  have hc := intOf_lt U c
  rw [luhnOk_iff, hsum, checkDigit, Nat.ModEq]
  omega

theorem intOf_ascii {c : CodePoint} (h : asciiDigit c) : c.val = 48 + intOf U c := by
  have h0 : '0'.toNat = 48 := rfl
  have h9 : '9'.toNat = 57 := rfl
  simp only [asciiDigit, between, Bool.and_eq_true, decide_eq_true_eq] at h
  rw [intOf, U.decimal_ascii c (by rw [isAscii, decide_eq_true_iff]; omega), asciiDecimal, dif_pos (by omega)]
  change c.val = 48 + (c.val - 48)
  omega

/-- The ASCII digit of a value. -/
def digitOf (d : Nat) (h : d < 10) : CodePoint := ⟨48 + d, by omega⟩

theorem asciiDigit_digitOf (d : Nat) (h : d < 10) : asciiDigit (digitOf d h) := by
  have hall : ∀ d : Fin 10, asciiDigit (digitOf d.val d.isLt) := by decide
  exact hall ⟨d, h⟩

theorem intOf_digitOf (d : Nat) (h : d < 10) : intOf U (digitOf d h) = d :=
  (Nat.add_left_cancel (intOf_ascii (U := U) (asciiDigit_digitOf d h))).symm

theorem existsUnique_check (U : Unicode) (p : Text) : ∃! c, asciiDigit c ∧ luhnOk U (p ++ [c]) := by
  have hlt : checkDigit U p < 10 := Nat.mod_lt _ (by decide)
  refine ⟨digitOf (checkDigit U p) hlt, ⟨asciiDigit_digitOf _ hlt, ?_⟩, ?_⟩
  · exact (luhnOk_append_iff p _).mpr (intOf_digitOf _ hlt)
  · rintro c ⟨hc, hok⟩
    apply Fin.ext
    rw [intOf_ascii hc, (luhnOk_append_iff p c).mp hok]
    rfl

theorem luhnOk_replace {a b : Text} {x y : CodePoint} (hne : intOf U x ≠ intOf U y) (h : luhnOk U (a ++ x :: b)) :
    ¬ luhnOk U (a ++ y :: b) := by
  intro h'
  have hreverse (z : CodePoint) : (a ++ z :: b).reverse.map (intOf U) =
      b.reverse.map (intOf U) ++ intOf U z :: a.reverse.map (intOf U) := by
    simp
  rw [luhnOk_iff, hreverse] at h h'
  exact hne (luhnValue_injective (intOf_lt U x) (intOf_lt U y) ((weigh_replace_iff _ _).mp (h.trans h'.symm)))

theorem luhnOk_swap {a b : Text} {x y : CodePoint} (hne : intOf U x ≠ intOf U y)
    (h09 : ¬ (intOf U x = 0 ∧ intOf U y = 9)) (h90 : ¬ (intOf U x = 9 ∧ intOf U y = 0))
    (h : luhnOk U (a ++ x :: y :: b)) : ¬ luhnOk U (a ++ y :: x :: b) := by
  intro h'
  have hreverse (z z' : CodePoint) : (a ++ z :: z' :: b).reverse.map (intOf U) =
      b.reverse.map (intOf U) ++ intOf U z' :: intOf U z :: a.reverse.map (intOf U) := by
    simp
  rw [luhnOk_iff, hreverse] at h h'
  rcases luhnValue_swap (intOf_lt U y) (intOf_lt U x) ((weigh_swap_iff _ _).mp (h.trans h'.symm)) with heq | heq | heq
  · exact hne heq.symm
  · exact h90 ⟨heq.2, heq.1⟩
  · exact h09 ⟨heq.2, heq.1⟩

/-- luhn_ok accepts exactly one check digit, and neither a changed digit nor a
swap of two neighbours other than 0 and 9. -/
theorem luhnOk_code (U : Unicode) :
    (∀ p, DigitString U p → (∃! c, asciiDigit c ∧ luhnOk U (p ++ [c])) ∧
      ∀ c, U.isDecimal c → (luhnOk U (p ++ [c]) ↔ intOf U c = (10 - payloadSum U p % 10) % 10)) ∧
    (∀ a b x y, DigitString U (a ++ x :: b) → U.isDecimal y → intOf U x ≠ intOf U y → luhnOk U (a ++ x :: b) →
      ¬ luhnOk U (a ++ y :: b)) ∧
    ∀ a b x y, DigitString U (a ++ x :: y :: b) → intOf U x ≠ intOf U y → ¬ (intOf U x = 0 ∧ intOf U y = 9) →
      ¬ (intOf U x = 9 ∧ intOf U y = 0) → luhnOk U (a ++ x :: y :: b) → ¬ luhnOk U (a ++ y :: x :: b) := by
  refine ⟨fun p _ => ⟨existsUnique_check U p, fun c _ => luhnOk_append_iff p c⟩, ?_, ?_⟩
  · intro a b x y _ _ hne h
    exact luhnOk_replace hne h
  · intro a b x y _ hne h09 h90 h
    exact luhnOk_swap hne h09 h90 h

theorem luhnOk_code_visa :
    luhnOk .ascii (str "411111111111111" ++ [chr '1']) ∧
      ¬ luhnOk .ascii (str "41111111" ++ chr '7' :: str "1111111") ∧
      ¬ luhnOk .ascii (str "1" ++ chr '4' :: str "11111111111111") := by
  obtain ⟨hcheck, hreplace, hswap⟩ := luhnOk_code .ascii
  have hok : luhnOk .ascii (str "411111111111111" ++ [chr '1']) :=
    ((hcheck (str "411111111111111") (by decide)).2 (chr '1') (by decide)).mpr (by decide)
  refine ⟨hok, ?_, ?_⟩
  · exact hreplace (str "41111111") (str "1111111") (chr '1') (chr '7') (by decide) (by decide) (by decide) hok
  · exact hswap [] (str "11111111111111") (chr '4') (chr '1') (by decide) (by decide) (by decide) (by decide) hok

end Code

end LlmGateway.Redactor
