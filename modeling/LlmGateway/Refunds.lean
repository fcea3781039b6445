import LlmGateway.Decimal
import LlmGateway.Json
import Mathlib.Logic.Function.Basic
import Mathlib.Tactic.Linarith

namespace LlmGateway.Refunds

/-- The significant digits of the default decimal context. -/
def precision : Nat := 28

structure Customer where
  customerId : Text
  name : Text
  charged : Decimal
  refunded : Decimal
  deriving DecidableEq

def Customer.refundable (c : Customer) : Decimal := (c.charged.sub c.refunded).round precision

/-- customer.refunded += requested -/
def Customer.addRefunded (c : Customer) (requested : Decimal) : Customer :=
  { c with refunded := (c.refunded.add requested).round precision }

structure Refund where
  refundId : Text
  customerId : Text
  amount : Decimal
  reason : Text
  remainingRefundable : Decimal
  deriving DecidableEq

inductive RefundRejected
  | noCustomer (customerId : Text)
  | exceeds (requested : Decimal) (customerId : Text) (customer : Customer)
  deriving DecidableEq

/-- str() of a decimal number. -/
def decimalText (d : Decimal) : Text :=
  let int := Json.naturalText d.coeff.natAbs
  let leftdigits : Int := d.exp + int.length
  let dotplace : Int := if d.exp ≤ 0 ∧ -6 < leftdigits then leftdigits else 1
  let number :=
    if dotplace ≤ 0 then str "0." ++ List.replicate (-dotplace).toNat (chr '0') ++ int
    else if int.length ≤ dotplace then int ++ List.replicate (dotplace - int.length).toNat (chr '0')
    else int.take dotplace.toNat ++ str "." ++ int.drop dotplace.toNat
  let power := leftdigits - dotplace
  let exponent :=
    if power = 0 then []
    else str (if power < 0 then "E-" else "E+") ++ Json.naturalText power.natAbs
  (if d.coeff < 0 then str "-" else []) ++ number ++ exponent

example : decimalText ⟨6, -9⟩ = str "6E-9" := by decide

def RefundRejected.message : RefundRejected → Text
  | noCustomer customerId =>
    str "No customer " ++ customerId ++ str " exists. Check the id and try again, or list the account first."
  | exceeds requested customerId customer =>
    str "Refund of " ++ decimalText requested ++ str " exceeds the " ++ decimalText customer.refundable ++
      str " still refundable on " ++ customerId ++ str " (charged " ++ decimalText customer.charged ++
      str ", already refunded " ++ decimalText customer.refunded ++ str ")."

/-- Decimal(str(x)) of a positive finite float x: its shortest representation
has at most seventeen digits. -/
structure RefundAmount where
  value : Decimal
  positive : 0 < value.coeff
  short : value.coeff.natAbs < Decimal.pow10 17

structure Ledger where
  customers : Text → Option Customer

/-- The arguments of a call of refund, and the id that it draws. -/
structure Call where
  customerId : Text
  amount : RefundAmount
  reason : Text
  refundId : Text

def Ledger.refund (self : Ledger) (call : Call) : Except RefundRejected Refund × Ledger :=
  match self.customers call.customerId with
  | none => (.error (.noCustomer call.customerId), self)
  | some customer =>
    let requested := call.amount.value
    if customer.refundable.lt requested then (.error (.exceeds requested call.customerId customer), self)
    else
      let customer := customer.addRefunded requested
      (.ok ⟨call.refundId, call.customerId, requested, call.reason, customer.refundable⟩,
        ⟨Function.update self.customers call.customerId (some customer)⟩)

section Refund

variable {l l' : Ledger} {call : Call} {c : Customer}

theorem refund_unknown (h : l.customers call.customerId = none) :
    l.refund call = (.error (.noCustomer call.customerId), l) := by
  rw [Ledger.refund, h]

theorem refund_exceeds (h : l.customers call.customerId = some c) (hlt : c.refundable.lt call.amount.value) :
    l.refund call = (.error (.exceeds call.amount.value call.customerId c), l) := by
  rw [Ledger.refund, h]
  exact if_pos hlt

theorem refund_issued (h : l.customers call.customerId = some c) (hlt : ¬ c.refundable.lt call.amount.value) :
    l.refund call = (.ok ⟨call.refundId, call.customerId, call.amount.value, call.reason,
      (c.addRefunded call.amount.value).refundable⟩,
      ⟨Function.update l.customers call.customerId (some (c.addRefunded call.amount.value))⟩) := by
  rw [Ledger.refund, h]
  exact if_neg hlt

/-- A call that is rejected changes nothing, and one that is accepted only what
is refunded to the customer that it names. -/
structure Frame (l : Ledger) (call : Call) : Prop where
  rejected : ∀ exc, (l.refund call).1 = .error exc → (l.refund call).2 = l
  accepted : ∀ refund, (l.refund call).1 = .ok refund → ∃ c refunded, l.customers call.customerId = some c ∧
    (l.refund call).2.customers = Function.update l.customers call.customerId (some { c with refunded := refunded })

theorem refund_frame (l : Ledger) (call : Call) : Frame l call := by
  cases hc : l.customers call.customerId with
  | none =>
      constructor
      · intro exc _
        rw [refund_unknown hc]
      · intro refund h
        rw [refund_unknown hc] at h
        cases h
  | some c =>
      by_cases hlt : c.refundable.lt call.amount.value
      · constructor
        · intro exc _
          rw [refund_exceeds hc hlt]
        · intro refund h
          rw [refund_exceeds hc hlt] at h
          cases h
      · constructor
        · intro exc h
          rw [refund_issued hc hlt] at h
          cases h
        · intro refund _
          rw [refund_issued hc hlt]
          exact ⟨c, _, hc, rfl⟩

end Refund

/-- The ledger after some calls, and the refunds that were issued. -/
structure Books where
  ledger : Ledger
  issued : List Refund

def Books.step (w : Books) (call : Call) : Books :=
  match w.ledger.refund call with
  | (.ok refund, l) => ⟨l, w.issued ++ [refund]⟩
  | (.error _, l) => ⟨l, w.issued⟩

def run (initial : Ledger) (calls : List Call) : Books := calls.foldl Books.step ⟨initial, []⟩

/-- The exact sum of what was issued to a customer. -/
def issuedTo (customerId : Text) : List Refund → ℚ
  | [] => 0
  | refund :: refunds =>
    (if refund.customerId = customerId then refund.amount.val else 0) + issuedTo customerId refunds

theorem issuedTo_append (k : Text) (as bs : List Refund) : issuedTo k (as ++ bs) = issuedTo k as + issuedTo k bs := by
  induction as with
  | nil => exact (zero_add _).symm
  | cons r as ih => rw [List.cons_append, issuedTo, issuedTo, ih, add_assoc]

/-- An entry of the ledger, before and after refunds of s in all. -/
inductive Settled : Option Customer → Option Customer → ℚ → Prop
  | absent : Settled none none 0
  | present {c₀ : Customer} {refunded : Decimal} {s : ℚ} (hsum : refunded.val = c₀.refunded.val + s)
      (hle : s ≤ c₀.charged.val - c₀.refunded.val) : Settled (some c₀) (some { c₀ with refunded := refunded }) s

def Sound (initial : Ledger) (w : Books) : Prop :=
  ∀ k, Settled (initial.customers k) (w.ledger.customers k) (issuedTo k w.issued)

/-- The digits are enough for what is refunded afterwards, and the amount is not
the balance rounded up. -/
structure Customer.Precise (c : Customer) (requested : Decimal) : Prop where
  recorded : (c.refunded.add requested).Fits precision
  covered : requested.val = c.refundable.val → ¬ (c.charged.sub c.refunded).lt c.refundable

/-- The call is rejected, or its customer's entry stays exact. -/
def Ledger.Precise (l : Ledger) (call : Call) : Prop :=
  ∀ c, l.customers call.customerId = some c →
    c.refundable.lt call.amount.value ∨ c.Precise call.amount.value

section Run

variable {initial : Ledger} {w : Books} {call : Call} {c : Customer}

theorem precise_iff (c : Customer) (amount : RefundAmount) (h : ¬ c.refundable.lt amount.value) :
    c.Precise amount.value ↔ (c.addRefunded amount.value).refunded.val = c.refunded.val + amount.value.val ∧
      amount.value.val ≤ c.charged.val - c.refunded.val := by
  have hle : amount.value.val ≤ c.refundable.val := not_lt.mp fun hlt => h (Decimal.lt_iff.mpr hlt)
  have hrecorded : (c.refunded.add amount.value).Fits precision ↔
      (c.addRefunded amount.value).refunded.val = c.refunded.val + amount.value.val := by
    rw [← Decimal.val_add]
    exact (Decimal.val_round_eq_iff (by decide)).symm
  constructor
  · intro hp
    refine ⟨hrecorded.mp hp.recorded, ?_⟩
    by_contra hover
    rw [not_le, ← Decimal.val_sub] at hover
    have hround : c.refundable.val ≤ amount.value.val := Decimal.round_le (by decide)
      (Nat.lt_of_lt_of_le amount.short (by decide)) (Decimal.val_pos_iff.mpr amount.positive) hover
    have heq := le_antisymm hle hround
    apply hp.covered heq
    rw [Decimal.lt_iff, ← heq]
    exact hover
  · rintro ⟨h1, h2⟩
    refine ⟨hrecorded.mpr h1, fun heq hlt => ?_⟩
    rw [Decimal.lt_iff, Decimal.val_sub, ← heq] at hlt
    exact absurd h2 (not_le.mpr hlt)

theorem settled_some_iff {c₀ : Customer} {s : ℚ} : Settled (some c₀) (some c) s ↔
    c = { c₀ with refunded := c.refunded } ∧ c.refunded.val = c₀.refunded.val + s ∧
      s ≤ c₀.charged.val - c₀.refunded.val := by
  constructor
  · rintro ⟨⟩
    exact ⟨rfl, ‹_›, ‹_›⟩
  · rintro ⟨h1, h2, h3⟩
    rw [h1]
    exact .present h2 h3

theorem step_rejected {exc : RefundRejected} (h : w.ledger.refund call = (.error exc, w.ledger)) : w.step call = w := by
  rw [Books.step, h]

theorem step_issued (hc : w.ledger.customers call.customerId = some c) (hlt : ¬ c.refundable.lt call.amount.value)
    (k : Text) :
    (w.step call).ledger.customers k =
        (if k = call.customerId then some (c.addRefunded call.amount.value) else w.ledger.customers k) ∧
      issuedTo k (w.step call).issued =
        issuedTo k w.issued + (if k = call.customerId then call.amount.value.val else 0) := by
  rw [Books.step, refund_issued hc hlt, issuedTo_append, issuedTo, issuedTo, add_zero]
  refine ⟨Function.update_apply _ _ _ _, ?_⟩
  simp only [eq_comm]

/-- An accepted call keeps the entry of its customer right exactly when it is
precise. -/
theorem settled_addRefunded_iff {o : Option Customer} {s : ℚ} (amount : RefundAmount) (h : Settled o (some c) s)
    (hlt : ¬ c.refundable.lt amount.value) :
    Settled o (some (c.addRefunded amount.value)) (s + amount.value.val) ↔ c.Precise amount.value := by
  cases o with
  | none => cases h
  | some c₀ =>
      obtain ⟨h1, h2, h3⟩ := settled_some_iff.mp h
      have hcharged : c.charged = c₀.charged := by rw [h1]
      rw [settled_some_iff, precise_iff c amount hlt, hcharged, h2]
      constructor
      · rintro ⟨-, hsum, hle⟩
        exact ⟨by rw [hsum, add_assoc], by linarith⟩
      · rintro ⟨hsum, hle⟩
        refine ⟨?_, by rw [hsum, add_assoc], by linarith⟩
        rw [Customer.addRefunded, h1]

theorem sound_step_iff (h : Sound initial w) : Sound initial (w.step call) ↔ w.ledger.Precise call := by
  cases hc : w.ledger.customers call.customerId with
  | none =>
      rw [step_rejected (refund_unknown hc)]
      apply iff_of_true h
      intro c hc'
      rw [hc] at hc'
      cases hc'
  | some c =>
      by_cases hlt : c.refundable.lt call.amount.value
      · rw [step_rejected (refund_exceeds hc hlt)]
        apply iff_of_true h
        intro c' hc'
        rw [hc] at hc'
        cases hc'
        exact Or.inl hlt
      · have hentry := settled_addRefunded_iff call.amount (hc ▸ h call.customerId) hlt
        constructor
        · intro hsound c' hc'
          rw [hc] at hc'
          cases hc'
          apply Or.inr
          apply hentry.mp
          have hk := hsound call.customerId
          rwa [(step_issued hc hlt _).1, (step_issued hc hlt _).2, if_pos rfl, if_pos rfl] at hk
        · intro hprecise k
          rw [(step_issued hc hlt k).1, (step_issued hc hlt k).2]
          by_cases hk : k = call.customerId
          · rw [if_pos hk, if_pos hk, hk]
            exact hentry.mpr ((hprecise c hc).resolve_left hlt)
          · rw [if_neg hk, if_neg hk, add_zero]
            exact h k

theorem run_take (initial : Ledger) {calls : List Call} {n : Nat} (h : calls[n]? = some call) :
    run initial (calls.take (n + 1)) = (run initial (calls.take n)).step call := by
  rw [List.take_add_one, h, run, List.foldl_append]
  rfl

theorem sound_start (h : ∀ k c, initial.customers k = some c → c.refunded.val ≤ c.charged.val) :
    Sound initial ⟨initial, []⟩ := by
  intro k
  cases hk : initial.customers k with
  | none => exact .absent
  | some c => exact .present (add_zero _).symm (sub_nonneg.mpr (h k c hk))

/-- In every state of a run the refunds are within what was charged and exactly
recorded if and only if every call is precise where it is made. -/
theorem run_sound_iff (initial : Ledger) (h : ∀ k c, initial.customers k = some c → c.refunded.val ≤ c.charged.val)
    (calls : List Call) :
    ((∀ n, Sound initial (run initial (calls.take n))) ↔
        ∀ n call, calls[n]? = some call → (run initial (calls.take n)).ledger.Precise call) ∧
      ∀ l call, Frame l call := by
  refine ⟨⟨fun hsound n call hn => ?_, fun hprecise n => ?_⟩, refund_frame⟩
  · apply (sound_step_iff (hsound n)).mp
    rw [← run_take initial hn]
    exact hsound (n + 1)
  · induction n with
    | zero => exact sound_start h
    | succ n ih =>
        cases hn : calls[n]? with
        | none =>
            rw [List.take_add_one, hn, Option.toList_none, List.append_nil]
            exact ih
        | some call =>
            rw [run_take initial hn]
            exact (sound_step_iff ih).mpr (hprecise n call hn)

end Run

section Sample

def Ledger.ofCustomers (customers : List Customer) : Ledger := ⟨fun k => customers.find? fun c => c.customerId = k⟩

def sampleCustomers : List Customer :=
  [⟨str "CUST-00042", str "Ada Lovelace", ⟨25000, -2⟩, ⟨0, 0⟩⟩, ⟨str "CUST-01337", str "Grace Hopper", ⟨8999, -2⟩, ⟨0, 0⟩⟩,
    ⟨str "CUST-90210", str "Alan Turing", ⟨120000, -2⟩, ⟨120000, -2⟩⟩]

def withSampleData : Ledger := .ofCustomers sampleCustomers

theorem withSampleData_le : ∀ k c, withSampleData.customers k = some c → c.refunded.val ≤ c.charged.val := by
  intro k c h
  have hall : ∀ c ∈ sampleCustomers, ¬ c.charged.lt c.refunded := by decide +kernel
  change sampleCustomers.find? (fun c => c.customerId = k) = some c at h
  have hc := hall c (List.mem_of_find?_eq_some h)
  rw [Decimal.lt_iff] at hc
  exact not_lt.mp hc

def callOf (coeff : Nat) (exp : Int) (h : 0 < coeff ∧ coeff < Decimal.pow10 17) : Call :=
  ⟨str "CUST-01337", ⟨⟨coeff, exp⟩, Int.natCast_pos.mpr h.1, h.2⟩, str "partial refund agreed", str "RF-000000000000"⟩

/-- 40.0 and 60.0 -/
def plainCalls : List Call := [callOf 400 (-1) (by decide), callOf 600 (-1) (by decide)]

/-- 40.0 and 1e-300 -/
def tinyCalls : List Call := [callOf 400 (-1) (by decide), callOf 1 (-300) (by decide)]

theorem run_sound_plain : Sound withSampleData (run withSampleData (plainCalls.take 2)) := by
  apply (run_sound_iff withSampleData withSampleData_le plainCalls).1.mpr
  intro n call hn c hc
  rcases n with _ | _ | n
  · cases hn
    obtain rfl : _ = c := Option.some.inj hc
    right
    exact ⟨by decide +kernel, fun _ => by decide +kernel⟩
  · cases hn
    obtain rfl : _ = c := Option.some.inj hc
    left
    decide +kernel
  · cases hn

/-- 1E-300 is issued, and the 28 digits of 40 + 1E-300 do not reach it. -/
theorem tiny_refund_lost : ¬ Sound withSampleData (run withSampleData (tinyCalls.take 2)) ∧
    (run withSampleData (tinyCalls.take 2)).issued.map Refund.amount = [⟨400, -1⟩, ⟨1, -300⟩] := by
  refine ⟨fun h => ?_, by decide +kernel⟩
  have hk := h (str "CUST-01337")
  have hstart : withSampleData.customers (str "CUST-01337") =
      some ⟨str "CUST-01337", str "Grace Hopper", ⟨8999, -2⟩, ⟨0, 0⟩⟩ := by decide +kernel
  have hend : (run withSampleData (tinyCalls.take 2)).ledger.customers (str "CUST-01337") =
      some ⟨str "CUST-01337", str "Grace Hopper", ⟨8999, -2⟩, ⟨4000000000000000000000000000, -26⟩⟩ := by decide +kernel
  rw [hstart, hend, settled_some_iff] at hk
  have hissued : (run withSampleData (tinyCalls.take 2)).issued =
      [⟨str "RF-000000000000", str "CUST-01337", ⟨400, -1⟩, str "partial refund agreed", ⟨4999, -2⟩⟩,
        ⟨str "RF-000000000000", str "CUST-01337", ⟨1, -300⟩, str "partial refund agreed",
          ⟨4999000000000000000000000000, -26⟩⟩] := by decide +kernel
  have hsum : (⟨4000000000000000000000000000, -26⟩ : Decimal).val =
      (Decimal.add ⟨0, 0⟩ (Decimal.add ⟨400, -1⟩ ⟨1, -300⟩)).val := by
    rw [hk.2.1, hissued, issuedTo, issuedTo, issuedTo, if_pos rfl, if_pos rfl, add_zero, Decimal.val_add, Decimal.val_add]
  have hlt : Decimal.lt ⟨4000000000000000000000000000, -26⟩ (Decimal.add ⟨0, 0⟩ (Decimal.add ⟨400, -1⟩ ⟨1, -300⟩)) := by
    decide +kernel
  rw [Decimal.lt_iff, hsum] at hlt
  exact lt_irrefl _ hlt

end Sample

end LlmGateway.Refunds
