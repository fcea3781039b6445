import LlmGateway.JsonScan
import LlmGateway.Refunds

namespace LlmGateway.Refunds

open Json (naturalOf naturalText takeSign)

section Reading

/-- (\.\d*)? -/
def pointOf : Text → Text × Text
  | [] => ([], [])
  | c :: t => if c = chr '.' then (t.takeWhile asciiDigit, t.dropWhile asciiDigit) else ([], c :: t)

/-- (E[-+]?\d+)? up to the end, in either case. -/
def exponentOf : Text → Option Int
  | [] => some 0
  | c :: t =>
    let (sign, digits) := takeSign t
    if (c = chr 'E' ∨ c = chr 'e') ∧ digits ≠ [] ∧ digits.all asciiDigit then
      some (if sign = str "-" then -(naturalOf digits : Int) else naturalOf digits)
    else none

/-- Decimal(text), for the text of a finite number in ASCII digits. -/
def decimalOf (t : Text) : Option Decimal :=
  let (sign, t) := takeSign t
  let int := t.takeWhile asciiDigit
  let (frac, t) := pointOf (t.dropWhile asciiDigit)
  if int ++ frac = [] then none
  else
    (exponentOf t).map fun e =>
      ⟨if sign = str "-" then -(naturalOf (int ++ frac) : Int) else naturalOf (int ++ frac), e - frac.length⟩

end Reading

section Parts

variable {t rest int frac : Text} {neg : Bool} {n : Nat}

def pointText (frac : Text) : Text := if frac = [] then [] else chr '.' :: frac

def exponentText (power : Int) : Text :=
  if power = 0 then [] else str (if power < 0 then "E-" else "E+") ++ naturalText power.natAbs

def signText (neg : Bool) : Text := if neg then str "-" else []

/-- No digit comes first. -/
def Closed (rest : Text) : Prop := ∀ c u, rest = c :: u → asciiDigit c = false

theorem span_digits (h : t.all asciiDigit) (hrest : Closed rest) :
    (t ++ rest).takeWhile asciiDigit = t ∧ (t ++ rest).dropWhile asciiDigit = rest := by
  have hall := List.all_eq_true.mp h
  rw [List.takeWhile_append_of_pos hall, List.dropWhile_append_of_pos hall]
  cases rest with
  | nil => exact ⟨List.append_nil t, rfl⟩
  | cons c u =>
      have hc := hrest c u rfl
      rw [List.takeWhile_cons_of_neg (by simp [hc]), List.dropWhile_cons_of_neg (by simp [hc]), List.append_nil]
      exact ⟨rfl, rfl⟩

theorem takeSign_digit (h : t ≠ []) (hd : t.all asciiDigit) (rest : Text) : takeSign (t ++ rest) = ([], t ++ rest) := by
  cases t with
  | nil => exact absurd rfl h
  | cons c t =>
      rw [List.all_cons, Bool.and_eq_true] at hd
      have hsign : ¬ (c = chr '-' ∨ c = chr '+') := by
        rintro (rfl | rfl)
        · exact absurd hd.1 (by decide)
        · exact absurd hd.1 (by decide)
      rw [List.cons_append, takeSign, if_neg hsign]

theorem digits_naturalText (n : Nat) : naturalText n ≠ [] ∧ (naturalText n).all asciiDigit := by
  obtain ⟨c, t, hn, hc, ht, -⟩ := Json.naturalText_spec n
  rw [hn]
  exact ⟨List.cons_ne_nil c t, by rw [List.all_cons, hc, ht]; rfl⟩

theorem exponentOf_text (power : Int) : exponentOf (exponentText power) = some power := by
  rw [exponentText]
  by_cases hzero : power = 0
  · rw [if_pos hzero, hzero]
    rfl
  rw [if_neg hzero]
  obtain ⟨hne, hall⟩ := digits_naturalText power.natAbs
  by_cases hneg : power < 0
  · have htext : str "E-" ++ naturalText power.natAbs = chr 'E' :: chr '-' :: naturalText power.natAbs := rfl
    have hsign : takeSign (chr '-' :: naturalText power.natAbs) = ([chr '-'], naturalText power.natAbs) := rfl
    rw [if_pos hneg, htext, exponentOf, hsign]
    dsimp only
    rw [if_pos ⟨Or.inl rfl, hne, hall⟩, if_pos (show [chr '-'] = str "-" from rfl), Json.naturalOf_naturalText]
    congr 1
    omega
  · have htext : str "E+" ++ naturalText power.natAbs = chr 'E' :: chr '+' :: naturalText power.natAbs := rfl
    have hsign : takeSign (chr '+' :: naturalText power.natAbs) = ([chr '+'], naturalText power.natAbs) := rfl
    rw [if_neg hneg, htext, exponentOf, hsign]
    dsimp only
    rw [if_pos ⟨Or.inl rfl, hne, hall⟩, if_neg (by decide), Json.naturalOf_naturalText]
    congr 1
    omega

theorem closed_exponentText (power : Int) : Closed (exponentText power) := by
  intro c u h
  rw [exponentText] at h
  split at h
  · cases h
  · split at h
    · obtain ⟨rfl, -⟩ := List.cons_eq_cons.mp h
      decide
    · obtain ⟨rfl, -⟩ := List.cons_eq_cons.mp h
      decide

theorem pointOf_text (h : frac.all asciiDigit) (power : Int) :
    pointOf (pointText frac ++ exponentText power) = (frac, exponentText power) := by
  rw [pointText]
  split
  · next hempty =>
      rw [List.nil_append, hempty]
      cases ht : exponentText power with
      | nil => rfl
      | cons c u =>
          have hc : c ≠ chr '.' := by
            rw [exponentText] at ht
            split at ht
            · cases ht
            · split at ht
              · obtain ⟨rfl, -⟩ := List.cons_eq_cons.mp ht
                decide
              · obtain ⟨rfl, -⟩ := List.cons_eq_cons.mp ht
                decide
          rw [pointOf, if_neg hc]
  · obtain ⟨htake, hdrop⟩ := span_digits h (closed_exponentText power)
    rw [List.cons_append, pointOf, if_pos rfl, htake, hdrop]

theorem closed_pointText (frac : Text) (power : Int) : Closed (pointText frac ++ exponentText power) := by
  rw [pointText]
  split
  · exact closed_exponentText power
  · intro c u h
    obtain ⟨rfl, -⟩ := List.cons_eq_cons.mp h
    decide

/-- A sign, digits with a point among them and an exponent are read as such. -/
theorem decimalOf_parts (hint : int ≠ []) (hd : int.all asciiDigit) (hf : frac.all asciiDigit) (power : Int) :
    decimalOf (signText neg ++ (int ++ (pointText frac ++ exponentText power))) =
      some ⟨if neg then -(naturalOf (int ++ frac) : Int) else naturalOf (int ++ frac), power - frac.length⟩ := by
  have hsign : takeSign (signText neg ++ (int ++ (pointText frac ++ exponentText power))) =
      (signText neg, int ++ (pointText frac ++ exponentText power)) := by
    cases neg with
    | true => rfl
    | false => exact takeSign_digit hint hd _
  have hne : int ++ frac ≠ [] := fun h => hint (List.append_eq_nil_iff.mp h).1
  obtain ⟨htake, hdrop⟩ := span_digits hd (closed_pointText frac power)
  rw [decimalOf, hsign]
  dsimp only
  rw [htake, hdrop, pointOf_text hf]
  dsimp only
  rw [if_neg hne, exponentOf_text]
  cases neg <;> rfl

end Parts

section RoundTrip

variable {d : Decimal}

theorem naturalOf_zeros (k : Nat) (t : Text) : naturalOf (List.replicate k (chr '0') ++ t) = naturalOf t := by
  induction k with
  | zero => rfl
  | succ k ih =>
      rw [List.replicate_succ, List.cons_append]
      exact ih

theorem all_zeros (k : Nat) : (List.replicate k (chr '0')).all asciiDigit := by
  rw [List.all_eq_true]
  intro c hc
  rw [List.eq_of_mem_replicate hc]
  rfl

/-- The parts of the text of a number. -/
structure Parts (d : Decimal) (int frac : Text) (power : Int) : Prop where
  text : decimalText d = signText (d.coeff < 0) ++ (int ++ (pointText frac ++ exponentText power))
  nonempty : int ≠ []
  digits : int.all asciiDigit
  fraction : frac.all asciiDigit
  coeff : naturalOf (int ++ frac) = d.coeff.natAbs
  exp : power - frac.length = d.exp

/-- The text of the digits with the point at its place. -/
theorem decimalText_eq (d : Decimal) {dotplace : Int} {number : Text}
    (hplace : dotplace = if d.exp ≤ 0 ∧ -6 < d.exp + (naturalText d.coeff.natAbs).length then
      d.exp + (naturalText d.coeff.natAbs).length else 1)
    (hnumber : number =
      if dotplace ≤ 0 then str "0." ++ List.replicate (-dotplace).toNat (chr '0') ++ naturalText d.coeff.natAbs
      else if (naturalText d.coeff.natAbs).length ≤ dotplace then
        naturalText d.coeff.natAbs ++ List.replicate (dotplace - (naturalText d.coeff.natAbs).length).toNat (chr '0')
      else (naturalText d.coeff.natAbs).take dotplace.toNat ++ str "." ++ (naturalText d.coeff.natAbs).drop dotplace.toNat) :
    decimalText d = signText (d.coeff < 0) ++ (number ++
      exponentText (d.exp + (naturalText d.coeff.natAbs).length - dotplace)) := by
  rw [decimalText, ← hplace, ← hnumber, exponentText, signText, List.append_assoc]
  simp only [decide_eq_true_eq]

theorem pointText_cons {frac : Text} (h : frac ≠ []) : pointText frac = str "." ++ frac := if_neg h

theorem parts_of (d : Decimal) : ∃ int frac power, Parts d int frac power := by
  obtain ⟨hne, hall⟩ := digits_naturalText d.coeff.natAbs
  have hcoeff := Json.naturalOf_naturalText d.coeff.natAbs
  have htext := @decimalText_eq d
  generalize naturalText d.coeff.natAbs = int at hne hall hcoeff htext
  have hlength : 0 < int.length := List.length_pos_iff.mpr hne
  have hsplit (k : Nat) : (int.take k).all asciiDigit ∧ (int.drop k).all asciiDigit := by
    rw [← List.take_append_drop k int, List.all_append, Bool.and_eq_true] at hall
    exact hall
  have hdrop (k : Nat) (hk : k < int.length) : int.drop k ≠ [] := by
    rw [Ne, List.drop_eq_nil_iff]
    omega
  by_cases hplain : d.exp ≤ 0 ∧ -6 < d.exp + int.length
  · -- no exponent is written
    have hplace := htext (if_pos hplain).symm rfl
    rw [sub_self] at hplace
    by_cases hsmall : d.exp + int.length ≤ 0
    · refine ⟨str "0", List.replicate (-(d.exp + int.length)).toNat (chr '0') ++ int, 0, ?_, by decide, rfl, ?_, ?_, ?_⟩
      · rw [hplace, if_pos hsmall, pointText_cons (by simp [hne])]
        simp only [List.append_assoc]
        rfl
      · rw [List.all_append, all_zeros, hall]
        rfl
      · rw [← hcoeff, ← naturalOf_zeros (-(d.exp + int.length)).toNat int]
        rfl
      · rw [List.length_append, List.length_replicate]
        omega
    · rw [if_neg hsmall] at hplace
      by_cases hinteger : (int.length : Int) ≤ d.exp + int.length
      · have hzeros : (d.exp + int.length - int.length).toNat = 0 := by omega
        refine ⟨int, [], 0, ?_, hne, hall, rfl, ?_, ?_⟩
        · rw [hplace, if_pos hinteger, hzeros]
          simp [pointText]
        · rw [List.append_nil, hcoeff]
        · rw [List.length_nil]
          omega
      · have hk : (d.exp + int.length).toNat < int.length := by omega
        refine ⟨int.take (d.exp + int.length).toNat, int.drop (d.exp + int.length).toNat, 0, ?_, ?_, (hsplit _).1, (hsplit _).2, ?_, ?_⟩
        · rw [hplace, if_neg hinteger, pointText_cons (hdrop _ hk)]
          simp only [List.append_assoc]
        · rw [Ne, List.take_eq_nil_iff, not_or]
          exact ⟨by omega, hne⟩
        · rw [List.take_append_drop, hcoeff]
        · rw [List.length_drop]
          omega
  · -- the point stands after the first digit
    have hplace := htext (if_neg hplain).symm rfl
    rw [if_neg (by decide)] at hplace
    by_cases hone : (int.length : Int) ≤ 1
    · have hzeros : ((1 : Int) - int.length).toNat = 0 := by omega
      refine ⟨int, [], d.exp + int.length - 1, ?_, hne, hall, rfl, ?_, ?_⟩
      · rw [hplace, if_pos hone, hzeros]
        simp [pointText]
      · rw [List.append_nil, hcoeff]
      · rw [List.length_nil]
        omega
    · refine ⟨int.take 1, int.drop 1, d.exp + int.length - 1, ?_, ?_, (hsplit _).1, (hsplit _).2, ?_, ?_⟩
      · rw [hplace, if_neg hone, pointText_cons (hdrop 1 (by omega))]
        simp only [List.append_assoc]
        rfl
      · rw [Ne, List.take_eq_nil_iff, not_or]
        exact ⟨by decide, hne⟩
      · rw [List.take_append_drop, hcoeff]
      · rw [List.length_drop]
        omega

/-- What str() makes of a decimal number reads back as the same number. -/
theorem decimalOf_decimalText (d : Decimal) : decimalOf (decimalText d) = some d := by
  obtain ⟨int, frac, power, h⟩ := parts_of d
  rw [h.text, decimalOf_parts h.nonempty h.digits h.fraction, h.coeff, h.exp]
  obtain ⟨coeff, exp⟩ := d
  congr 2
  by_cases hneg : coeff < 0
  · rw [if_pos (decide_eq_true hneg)]
    dsimp only
    omega
  · rw [if_neg (by simpa using hneg)]
    dsimp only
    omega

end RoundTrip

end LlmGateway.Refunds
