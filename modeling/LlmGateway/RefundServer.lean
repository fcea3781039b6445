import LlmGateway.DecimalText
import LlmGateway.Http
import LlmGateway.Mealy
import Mathlib.Data.List.DropRight

namespace LlmGateway.Refunds

open Json (Members naturalText)

section Validation

def minReasonLength : Nat := 10

/-- _reason_must_have_substance, with the message of its ValueError. -/
def reasonMustHaveSubstance (U : Unicode) (value : Text) : Except Text Text :=
  let stripped := U.strip value
  if stripped.length < minReasonLength then
    .error (str "reason must contain at least " ++ naturalText minReasonLength ++
      str " non-whitespace-padded characters; got " ++ naturalText stripped.length ++ str " after stripping")
  else .ok stripped

/-- A record of ValidationError.errors(). -/
structure ErrorRecord where
  loc : List Text
  type : Text
  msg : Text
  input : Json

/-- What pydantic checks of the values of the three fields before the validator
of the reason, and its records for a field that is missing and for an argument
that is no field. -/
structure Schema where
  customerId : Json → Except ErrorRecord Text
  amount : Json → Except ErrorRecord RefundAmount
  reason : Json → Except ErrorRecord Text
  missing : Text → Members → ErrorRecord
  forbidden : Text × Json → ErrorRecord

structure RefundRequest where
  customerId : Text
  amount : RefundAmount
  reason : Text

def fieldNames : List Text := [str "customer_id", str "amount", str "reason"]

def errorsOf {α : Type} : Except ErrorRecord α → List ErrorRecord
  | .error e => [e]
  | .ok _ => []

variable (U : Unicode) (schema : Schema)

def reasonField (value : Json) : Except ErrorRecord Text :=
  match schema.reason value with
  | .error e => .error e
  | .ok text =>
    match reasonMustHaveSubstance U text with
    | .error msg => .error ⟨[str "reason"], str "value_error", str "Value error, " ++ msg, value⟩
    | .ok reason => .ok reason

def fieldOf {α : Type} (name : Text) (check : Json → Except ErrorRecord α) (arguments : Members) : Except ErrorRecord α :=
  match arguments.get? name with
  | none => .error (schema.missing name arguments)
  | some value => check value

/-- RefundRequest.model_validate -/
def modelValidate (arguments : Members) : Except (List ErrorRecord) RefundRequest :=
  let customerId := fieldOf schema (str "customer_id") schema.customerId arguments
  let amount := fieldOf schema (str "amount") schema.amount arguments
  let reason := fieldOf schema (str "reason") (reasonField U schema) arguments
  let extra := (arguments.filter fun m => !fieldNames.contains m.1).map schema.forbidden
  match customerId, amount, reason, extra with
  | .ok customerId, .ok amount, .ok reason, [] => .ok ⟨customerId, amount, reason⟩
  | _, _, _, _ => .error (errorsOf customerId ++ errorsOf amount ++ errorsOf reason ++ extra)

end Validation

section Server

def invalidParams : Int := -32602

def join (sep : Text) : List Text → Text
  | [] => []
  | [t] => t
  | t :: ts => t ++ sep ++ join sep ts

/-- repr() of a float that is not finite. -/
def reprFloat (repr : FloatRepr) : Text :=
  if repr.text = str "NaN" then str "nan" else if repr.text = str "Infinity" then str "inf" else str "-inf"

/-- What is reported of an input. repr is that of lists and dicts. -/
def givenOf (repr : Json → Text) : Json → Json
  | .null => .null
  | .bool b => .bool b
  | .int n => .int n
  | .str s => .str s
  | .float f => if Response.isFinite f then .float f else .str (reprFloat f)
  | .list items => .str (repr (.list items))
  | .dict members => .str (repr (.dict members))

def recordOf (repr : Json → Text) (error : ErrorRecord) : Json :=
  let field := join (str ".") error.loc
  .dict [(str "field", .str (if field = [] then str "<root>" else field)), (str "type", .str error.type),
    (str "message", .str error.msg), (str "given", givenOf repr error.input)]

/-- _serialisable_errors -/
def serialisableErrors (repr : Json → Text) (errors : List ErrorRecord) : List Json := errors.map (recordOf repr)

/-- The answer to a call of a tool: an error of the protocol, a result that is
an error, a result, or what the SDK makes of a tool that is not served. -/
inductive Reply
  | mcpError (code : Int) (message : Text) (data : Json)
  | toolError (message : Text)
  | result (value : Members)
  | unserved (name : Text)

def toolName : Text := str "trigger_refund"

def refundResult (refund : Refund) : Members :=
  [(str "refund_id", .str refund.refundId), (str "customer_id", .str refund.customerId),
    (str "amount", .str (decimalText refund.amount)), (str "reason", .str refund.reason),
    (str "remaining_refundable", .str (decimalText refund.remainingRefundable)), (str "status", .str (str "issued"))]

def triggerRefund (book : Ledger) (call : Call) : Reply × Ledger :=
  match book.refund call with
  | (.error exc, book) => (.toolError exc.message, book)
  | (.ok refund, book) => (.result (refundResult refund), book)

/-- A tools/call request, and the id that the refund would draw. -/
structure ToolCall where
  name : Text
  arguments : Option Members
  refundId : Text

variable (U : Unicode) (schema : Schema) (repr : Json → Text)

/-- intercept_tool_call and the tool after it. The second validation has the
same fields as the first and finds the same values. -/
def callTool (book : Ledger) (params : ToolCall) : Reply × Ledger :=
  if params.name = toolName then
    match modelValidate U schema (params.arguments.getD []) with
    | .error errors =>
      (.mcpError invalidParams (str "Invalid arguments for " ++ params.name)
        (.dict [(str "errors", .list (serialisableErrors repr errors))]), book)
    | .ok request => triggerRefund book ⟨request.customerId, request.amount, request.reason, params.refundId⟩
  else (.unserved params.name, book)

/-- Requests that come one after another, each with its reply. -/
def serve (book : Ledger) (requests : List ToolCall) : List (ToolCall × Reply) × Ledger :=
  Mealy.run (callTool U schema repr) book requests

end Server

section Strip

variable {U : Unicode}

theorem head_dropWhile {p : CodePoint → Bool} {t : Text} {c : CodePoint} (h : (t.dropWhile p).head? = some c) : p c = false := by
  have hnot := List.head?_dropWhile_not p t
  rwa [h] at hnot

/-- A text is stripped once and for all. -/
theorem strip_strip (t : Text) : U.strip (U.strip t) = U.strip t := by
  have hstrip (u : Text) : U.strip u = List.rdropWhile U.isspace (u.dropWhile U.isspace) := rfl
  have hhead : (U.strip t).dropWhile U.isspace = U.strip t := by
    cases hs : U.strip t with
    | nil => rfl
    | cons c u =>
        rw [hstrip] at hs
        obtain ⟨v, hv⟩ := List.rdropWhile_prefix U.isspace (t.dropWhile U.isspace)
        rw [hs] at hv
        have hc := @head_dropWhile U.isspace t c (by rw [← hv]; rfl)
        exact List.dropWhile_cons_of_neg (by simp [hc])
  rw [hstrip (U.strip t), hhead, hstrip t, List.rdropWhile_idempotent]

end Strip

section Session

variable {U : Unicode} {schema : Schema} {repr : Json → Text} {book : Ledger} {params : ToolCall} {call : Call}

variable (U schema) in
/-- The refund that a request asks for, if it is valid. -/
def validCall (params : ToolCall) : Option Call :=
  if params.name = toolName then
    match modelValidate U schema (params.arguments.getD []) with
    | .error _ => none
    | .ok request => some ⟨request.customerId, request.amount, request.reason, params.refundId⟩
  else none

theorem callTool_some (h : validCall U schema params = some call) : callTool U schema repr book params = triggerRefund book call := by
  rw [validCall] at h
  rw [callTool]
  by_cases hname : params.name = toolName
  · rw [if_pos hname] at h ⊢
    cases hvalid : modelValidate U schema (params.arguments.getD []) with
    | error errors =>
        rw [hvalid] at h
        cases h
    | ok request =>
        rw [hvalid] at h
        cases h
        rfl
  · rw [if_neg hname] at h
    cases h

theorem callTool_none (h : validCall U schema params = none) : (callTool U schema repr book params).2 = book ∧
    ∀ value, (callTool U schema repr book params).1 ≠ .result value := by
  rw [validCall] at h
  rw [callTool]
  by_cases hname : params.name = toolName
  · rw [if_pos hname] at h ⊢
    cases hvalid : modelValidate U schema (params.arguments.getD []) with
    | error errors => exact ⟨rfl, fun value h => by cases h⟩
    | ok request =>
        rw [hvalid] at h
        cases h
  · rw [if_neg hname]
    exact ⟨rfl, fun value h => by cases h⟩

theorem serve_cons (book : Ledger) (params : ToolCall) (requests : List ToolCall) : serve U schema repr book (params :: requests) =
    ((params, (callTool U schema repr book params).1) :: (serve U schema repr (callTool U schema repr book params).2 requests).1,
      (serve U schema repr (callTool U schema repr book params).2 requests).2) := rfl

/-- The amount for a customer that is read in a reply. -/
def amountOn (k : Text) : Reply → ℚ
  | .result value =>
    match value.get? (str "customer_id"), value.get? (str "amount") with
    | some (.str customerId), some (.str t) => if customerId = k then ((decimalOf t).map Decimal.val).getD 0 else 0
    | _, _ => 0
  | .mcpError _ _ _ | .toolError _ | .unserved _ => 0

/-- What the replies say was refunded to a customer. -/
def receipts (k : Text) (exchanges : List (ToolCall × Reply)) : ℚ := (exchanges.map fun e => amountOn k e.2).sum

theorem receipts_cons (k : Text) (params : ToolCall) (reply : Reply) (exchanges : List (ToolCall × Reply)) :
    receipts k ((params, reply) :: exchanges) = amountOn k reply + receipts k exchanges := List.sum_cons

theorem amountOn_result (k : Text) (refund : Refund) :
    amountOn k (.result (refundResult refund)) = if refund.customerId = k then refund.amount.val else 0 := by
  have hread : amountOn k (.result (refundResult refund)) =
      if refund.customerId = k then ((decimalOf (decimalText refund.amount)).map Decimal.val).getD 0 else 0 := rfl
  rw [hread, decimalOf_decimalText]
  rfl

theorem triggerRefund_step (w : Books) (call : Call) (k : Text) : (triggerRefund w.ledger call).2 = (w.step call).ledger ∧
    issuedTo k (w.step call).issued = issuedTo k w.issued + amountOn k (triggerRefund w.ledger call).1 := by
  rw [triggerRefund, Books.step]
  cases hrefund : w.ledger.refund call with
  | mk answer book =>
      cases answer with
      | error exc =>
          dsimp only
          exact ⟨rfl, by rw [amountOn, add_zero]⟩
      | ok refund =>
          dsimp only
          exact ⟨rfl, by rw [amountOn_result, issuedTo_append, issuedTo, issuedTo, add_zero]⟩

/-- A session is a run of the ledger over its valid requests, and its replies
tell all that the run has issued. -/
theorem serve_run (w : Books) (requests : List ToolCall) (k : Text) :
    (serve U schema repr w.ledger requests).2 = ((requests.filterMap (validCall U schema)).foldl Books.step w).ledger ∧
      issuedTo k ((requests.filterMap (validCall U schema)).foldl Books.step w).issued =
        issuedTo k w.issued + receipts k (serve U schema repr w.ledger requests).1 := by
  induction requests generalizing w with
  | nil => exact ⟨rfl, (add_zero _).symm⟩
  | cons params requests ih =>
      rw [serve_cons, receipts_cons]
      cases hcall : validCall U schema params with
      | none =>
          obtain ⟨hbook, hresult⟩ := @callTool_none U schema repr w.ledger params hcall
          have hamount : amountOn k (callTool U schema repr w.ledger params).1 = 0 := by
            cases hreply : (callTool U schema repr w.ledger params).1 with
            | result value => exact absurd hreply (hresult value)
            | mcpError _ _ _ | toolError _ | unserved _ => rfl
          rw [List.filterMap_cons_none hcall, hbook]
          obtain ⟨hledger, hissued⟩ := ih w
          refine ⟨hledger, ?_⟩
          rw [hissued, hamount, zero_add]
      | some call =>
          obtain ⟨hstep, hamount⟩ := triggerRefund_step w call k
          rw [List.filterMap_cons_some hcall, callTool_some hcall, hstep, List.foldl_cons]
          obtain ⟨hledger, hissued⟩ := ih (w.step call)
          refine ⟨hledger, ?_⟩
          rw [hissued, hamount, add_assoc]

end Session

section Balance

variable {U : Unicode} {schema : Schema} {repr : Json → Text} {c : Customer} {amount : RefundAmount} {places : Nat}
  {initial : Ledger} {w : Books}

/-- An entry that is within what was charged, and whose digits of that many
decimal places all have room in the precision. -/
structure Customer.Kept (places : Nat) (c : Customer) : Prop where
  charged : -(places : Int) ≤ c.charged.exp
  refunded : -(places : Int) ≤ c.refunded.exp
  nonneg : 0 ≤ c.refunded.val
  le : c.refunded.val ≤ c.charged.val
  small : c.charged.val < (10 : ℚ) ^ ((precision : Int) - places)

theorem coeff_lt {d : Decimal} (hexp : -(places : Int) ≤ d.exp) (hnonneg : 0 ≤ d.val)
    (hlt : d.val < (10 : ℚ) ^ ((precision : Int) - places)) : d.coeff.natAbs < Decimal.pow10 precision := by
  have hcoeff : (d.coeff.natAbs : Int) = d.coeff := Int.natAbs_of_nonneg (Decimal.val_nonneg_iff.mp hnonneg)
  have hscale : (10 : ℚ) ^ ((precision : Int) - places) = Decimal.pow10 precision * (10 : ℚ) ^ (-(places : Int)) := by
    rw [← Decimal.scale_add, neg_add_eq_sub]
  have hval : (d.coeff.natAbs : ℚ) * (10 : ℚ) ^ (-(places : Int)) ≤ d.val := by
    rw [Decimal.val, ← hcoeff, Int.cast_natCast, Int.natAbs_natCast]
    exact mul_le_mul_of_nonneg_left (zpow_le_zpow_right₀ (by decide +kernel) hexp) (Nat.cast_nonneg _)
  rw [hscale] at hlt
  exact Nat.cast_lt.mp (lt_of_mul_lt_mul_right (lt_of_le_of_lt hval hlt) (Decimal.scale_pos _).le)

theorem Customer.Kept.refundable_eq (h : c.Kept places) : c.refundable = c.charged.sub c.refunded := by
  have hle := h.le
  have hnonneg := h.nonneg
  have hsmall := h.small
  rw [Customer.refundable, Decimal.round_of_lt]
  apply @coeff_lt places _ (le_min h.charged h.refunded)
  · rw [Decimal.val_sub]
    exact sub_nonneg.mpr hle
  · rw [Decimal.val_sub]
    linarith

theorem Customer.Kept.addRefunded_eq (h : c.Kept places) (hexp : -(places : Int) ≤ amount.value.exp)
    (hle : amount.value.val ≤ c.refundable.val) : (c.addRefunded amount.value).refunded = c.refunded.add amount.value := by
  have hpos := Decimal.val_pos_iff.mpr amount.positive
  have hnonneg := h.nonneg
  have hsmall := h.small
  rw [h.refundable_eq, Decimal.val_sub] at hle
  rw [Customer.addRefunded, Decimal.round_of_lt]
  apply @coeff_lt places _ (le_min h.refunded hexp)
  · rw [Decimal.val_add]
    linarith
  · rw [Decimal.val_add]
    linarith

/-- An amount of no more decimal places is recorded as it is. -/
theorem kept_precise (h : c.Kept places) (hexp : -(places : Int) ≤ amount.value.exp) (hlt : ¬ c.refundable.lt amount.value) :
    c.Precise amount.value ∧ (c.addRefunded amount.value).Kept places := by
  have hle : amount.value.val ≤ c.refundable.val := not_lt.mp fun h => hlt (Decimal.lt_iff.mpr h)
  have hsum := h.addRefunded_eq hexp hle
  have hpos := Decimal.val_pos_iff.mpr amount.positive
  have hnonneg := h.nonneg
  rw [h.refundable_eq, Decimal.val_sub] at hle
  have hcovered : amount.value.val ≤ c.charged.val - c.refunded.val := hle
  constructor
  · rw [precise_iff c amount hlt, hsum, Decimal.val_add]
    exact ⟨rfl, hcovered⟩
  · refine ⟨h.charged, ?_, ?_, ?_, h.small⟩
    · rw [hsum]
      exact le_min h.refunded hexp
    · rw [hsum, Decimal.val_add]
      linarith
    · have hcharged : (c.addRefunded amount.value).charged = c.charged := rfl
      rw [hsum, hcharged, Decimal.val_add]
      linarith

theorem kept_step (h : ∀ k c, w.ledger.customers k = some c → c.Kept places) {call : Call}
    (hexp : -(places : Int) ≤ call.amount.value.exp) :
    w.ledger.Precise call ∧ ∀ k c, (w.step call).ledger.customers k = some c → c.Kept places := by
  cases hc : w.ledger.customers call.customerId with
  | none =>
      rw [step_rejected (refund_unknown hc)]
      refine ⟨fun c hc' => ?_, h⟩
      rw [hc] at hc'
      cases hc'
  | some c =>
      by_cases hlt : c.refundable.lt call.amount.value
      · rw [step_rejected (refund_exceeds hc hlt)]
        refine ⟨fun c' hc' => Or.inl ?_, h⟩
        rw [hc] at hc'
        cases hc'
        exact hlt
      · obtain ⟨hprecise, hkept⟩ := kept_precise (h _ c hc) hexp hlt
        constructor
        · intro c' hc'
          rw [hc] at hc'
          cases hc'
          exact Or.inr hprecise
        · intro k c' hc'
          rw [(step_issued hc hlt k).1] at hc'
          split at hc'
          · cases hc'
            exact hkept
          · exact h k c' hc'

theorem kept_run (h : ∀ k c, w.ledger.customers k = some c → c.Kept places) (hsound : Sound initial w) {calls : List Call}
    (hexp : ∀ call ∈ calls, -(places : Int) ≤ call.amount.value.exp) : Sound initial (calls.foldl Books.step w) := by
  induction calls generalizing w with
  | nil => exact hsound
  | cons call calls ih =>
      obtain ⟨hprecise, hkept⟩ := kept_step h (hexp call List.mem_cons_self)
      exact ih hkept ((sound_step_iff hsound).mpr hprecise) fun call hcall => hexp call (List.mem_cons_of_mem _ hcall)

/-- pydantic's checks of a text and of a float. -/
def plainSchema : Schema where
  customerId v :=
    match v with
    | .str t =>
      if t.take 5 = str "CUST-" ∧ (t.drop 5).length = 5 ∧ (t.drop 5).all asciiDigit then .ok t
      else .error ⟨[str "customer_id"], str "string_pattern_mismatch", str "String should match the pattern", v⟩
    | v => .error ⟨[str "customer_id"], str "string_type", str "Input should be a valid string", v⟩
  amount v :=
    match v with
    | .float f =>
      match decimalOf f.text with
      | some d =>
        if h : 0 < d.coeff ∧ d.coeff.natAbs < Decimal.pow10 17 then .ok ⟨d, h.1, h.2⟩
        else .error ⟨[str "amount"], str "greater_than", str "Input should be greater than 0", v⟩
      | none => .error ⟨[str "amount"], str "finite_number", str "Input should be a finite number", v⟩
    | v => .error ⟨[str "amount"], str "float_type", str "Input should be a valid number", v⟩
  reason v :=
    match v with
    | .str t =>
      if t.length < minReasonLength then
        .error ⟨[str "reason"], str "string_too_short", str "String should have at least 10 characters", v⟩
      else .ok t
    | v => .error ⟨[str "reason"], str "string_type", str "Input should be a valid string", v⟩
  missing name arguments := ⟨[name], str "missing", str "Field required", .dict arguments⟩
  forbidden m := ⟨[m.1], str "extra_forbidden", str "Extra inputs are not permitted", m.2⟩

def requestOf (amount : FloatRepr) (reason : Text) : ToolCall :=
  ⟨toolName, some [(str "customer_id", .str (str "CUST-01337")), (str "amount", .float amount), (str "reason", .str reason)],
    str "RF-000000000000"⟩

/-- 40.0, a reason that is blank, 60.0 and 49.99 -/
def session : List ToolCall :=
  [requestOf ⟨str "40.0", by decide⟩ (str "partial refund agreed"), requestOf ⟨str "40.0", by decide⟩ (str "             "),
    requestOf ⟨str "60.0", by decide⟩ (str "the rest of the order"), requestOf ⟨str "49.99", by decide⟩ (str "the rest of the order")]

theorem sample_kept : ∀ k c, withSampleData.customers k = some c → c.Kept 2 := by
  intro k c h
  have hall : ∀ c ∈ sampleCustomers, -2 ≤ c.charged.exp ∧ -2 ≤ c.refunded.exp ∧ 0 ≤ c.refunded.coeff ∧
      ¬ c.charged.lt c.refunded ∧ c.charged.lt ⟨1, 26⟩ := by decide +kernel
  change sampleCustomers.find? (fun c => c.customerId = k) = some c at h
  obtain ⟨hcharged, hrefunded, hnonneg, hle, hlt⟩ := hall c (List.mem_of_find?_eq_some h)
  refine ⟨hcharged, hrefunded, Decimal.val_nonneg_iff.mpr hnonneg, ?_, ?_⟩
  · exact not_lt.mp fun h => hle (Decimal.lt_iff.mpr h)
  · have hsmall : (⟨1, 26⟩ : Decimal).val = (10 : ℚ) ^ ((precision : Int) - (2 : Nat)) := by
      rw [Decimal.val, Int.cast_one, one_mul]
      rfl
    rwa [Decimal.lt_iff, hsmall] at hlt

example : ((serve Unicode.ascii plainSchema (fun _ => []) withSampleData session).2.customers (str "CUST-01337")).map
    Customer.refunded = some ⟨8999, -2⟩ := by decide +kernel

end Balance

section Replies

variable {U : Unicode} {schema : Schema} {repr : Json → Text} {params : ToolCall} {book : Ledger}

/-- A record of an error that JSON can carry and that names a field. -/
def Reported (error : Json) : Prop := error.every Response.isFinite (fun _ => true) ∧
  ∃ (members : Members) (field : Text), error = .dict members ∧ members.get? (str "field") = some (.str field) ∧ field ≠ []

/-- What a reply says of a refund. -/
structure Receipt (U : Unicode) (call : Call) (book : Ledger) (value : Members) : Prop where
  customerId : value.get? (str "customer_id") = some (.str call.customerId)
  amount : ∃ t, value.get? (str "amount") = some (.str t) ∧ decimalOf t = some call.amount.value
  reason : ∃ t, value.get? (str "reason") = some (.str t) ∧ U.strip t = t ∧ minReasonLength ≤ t.length
  remaining : ∃ t c, value.get? (str "remaining_refundable") = some (.str t) ∧ book.customers call.customerId = some c ∧
    decimalOf t = some c.refundable

variable (U schema) in
/-- All that a request can do. -/
inductive Answered (params : ToolCall) (book : Ledger) : Reply → Ledger → Prop
  | malformed (message : Text) (errors : List Json) (hname : params.name = toolName)
      (hvalid : validCall U schema params = none) (hne : errors ≠ []) (hreported : ∀ error ∈ errors, Reported error) :
      Answered params book (.mcpError invalidParams message (.dict [(str "errors", .list errors)])) book
  | unknown (call : Call) (hvalid : validCall U schema params = some call)
      (hc : book.customers call.customerId = none) :
      Answered params book (.toolError (RefundRejected.noCustomer call.customerId).message) book
  | exceeds (call : Call) (c : Customer) (hvalid : validCall U schema params = some call)
      (hc : book.customers call.customerId = some c) (hlt : c.refundable.lt call.amount.value) :
      Answered params book (.toolError (RefundRejected.exceeds call.amount.value call.customerId c).message) book
  | issued (call : Call) (c : Customer) (value : Members) (book' : Ledger) (hvalid : validCall U schema params = some call)
      (hc : book.customers call.customerId = some c) (hlt : ¬ c.refundable.lt call.amount.value)
      (hreceipt : Receipt U call book' value)
      (hbook : book'.customers = Function.update book.customers call.customerId (some (c.addRefunded call.amount.value))) :
      Answered params book (.result value) book'
  | unserved (hname : params.name ≠ toolName) : Answered params book (.unserved params.name) book

theorem reported_recordOf (error : ErrorRecord) : Reported (recordOf repr error) := by
  have hgiven (v : Json) : (givenOf repr v).every Response.isFinite (fun _ => true) := by
    cases v with
    | float f =>
        rw [givenOf]
        split
        · assumption
        · rfl
    | null | bool b | int n | str s | list items | dict members => rfl
  constructor
  · rw [recordOf, Json.every, Json.everyMember_iff]
    intro m hm
    simp only [List.mem_cons, List.not_mem_nil, or_false] at hm
    rcases hm with rfl | rfl | rfl | rfl
    · exact ⟨rfl, rfl⟩
    · exact ⟨rfl, rfl⟩
    · exact ⟨rfl, rfl⟩
    · exact ⟨rfl, hgiven error.input⟩
  · refine ⟨_, _, rfl, rfl, ?_⟩
    split
    · decide
    · assumption

theorem modelValidate_error {arguments : Members} {errors : List ErrorRecord}
    (h : modelValidate U schema arguments = .error errors) : errors ≠ [] := by
  rw [modelValidate] at h
  cases hcustomer : fieldOf schema (str "customer_id") schema.customerId arguments with
  | error e =>
      rw [hcustomer] at h
      cases h
      exact List.cons_ne_nil _ _
  | ok customerId =>
      cases hamount : fieldOf schema (str "amount") schema.amount arguments with
      | error e =>
          rw [hcustomer, hamount] at h
          cases h
          exact List.cons_ne_nil _ _
      | ok amount =>
          cases hreason : fieldOf schema (str "reason") (reasonField U schema) arguments with
          | error e =>
              rw [hcustomer, hamount, hreason] at h
              cases h
              exact List.cons_ne_nil _ _
          | ok reason =>
              rw [hcustomer, hamount, hreason] at h
              cases hextra : (arguments.filter fun m => !fieldNames.contains m.1).map schema.forbidden with
              | nil =>
                  rw [hextra] at h
                  cases h
              | cons e extra =>
                  rw [hextra] at h
                  cases h
                  exact List.cons_ne_nil _ _

theorem modelValidate_reason {arguments : Members} {request : RefundRequest}
    (h : modelValidate U schema arguments = .ok request) :
    U.strip request.reason = request.reason ∧ minReasonLength ≤ request.reason.length := by
  rw [modelValidate] at h
  split at h
  · next hreason _ =>
      cases h
      rw [fieldOf] at hreason
      split at hreason
      · cases hreason
      · rw [reasonField] at hreason
        split at hreason
        · cases hreason
        · next text _ =>
            split at hreason
            · cases hreason
            · next hsubstance =>
                cases hreason
                rw [reasonMustHaveSubstance] at hsubstance
                split at hsubstance
                · cases hsubstance
                · next hlength =>
                    cases hsubstance
                    exact ⟨strip_strip text, not_lt.mp hlength⟩
  · cases h

theorem validCall_eq_some {call : Call} (h : validCall U schema params = some call) :
    U.strip call.reason = call.reason ∧ minReasonLength ≤ call.reason.length := by
  rw [validCall] at h
  split at h
  · split at h
    · cases h
    · next request hvalid =>
        cases h
        exact modelValidate_reason hvalid
  · cases h

theorem receipt_result {call : Call} {c : Customer} (hvalid : validCall U schema params = some call)
    (hc : book.customers call.customerId = some c) : Receipt U call book (refundResult
      ⟨call.refundId, call.customerId, call.amount.value, call.reason, c.refundable⟩) := by
  obtain ⟨hstrip, hlength⟩ := validCall_eq_some hvalid
  constructor
  · rfl
  · exact ⟨_, rfl, decimalOf_decimalText _⟩
  · exact ⟨_, rfl, hstrip, hlength⟩
  · exact ⟨_, c, rfl, hc, decimalOf_decimalText _⟩

theorem callTool_answered (book : Ledger) (params : ToolCall) : Answered U schema params book
    (callTool U schema repr book params).1 (callTool U schema repr book params).2 := by
  cases hcall : validCall U schema params with
  | none =>
      rw [callTool]
      by_cases hname : params.name = toolName
      · rw [if_pos hname]
        cases hvalid : modelValidate U schema (params.arguments.getD []) with
        | error errors =>
            refine .malformed _ _ hname hcall (fun h => modelValidate_error hvalid (List.map_eq_nil_iff.mp h)) ?_
            intro error herror
            obtain ⟨e, -, rfl⟩ := List.mem_map.mp herror
            exact reported_recordOf e
        | ok request =>
            rw [validCall, if_pos hname, hvalid] at hcall
            cases hcall
      · rw [if_neg hname]
        exact .unserved hname
  | some call =>
      rw [callTool_some hcall, triggerRefund]
      cases hc : book.customers call.customerId with
      | none =>
          rw [refund_unknown hc]
          exact .unknown call hcall hc
      | some c =>
          by_cases hlt : c.refundable.lt call.amount.value
          · rw [refund_exceeds hc hlt]
            exact .exceeds call c hcall hc hlt
          · rw [refund_issued hc hlt]
            exact .issued call c _ _ hcall hc hlt (receipt_result hcall (Function.update_self _ _ _)) rfl

variable (U schema) in
/-- Whether a request asks for a refund of one customer. -/
def concerns (k : Text) (params : ToolCall) : Bool :=
  match validCall U schema params with
  | some call => call.customerId = k
  | none => false

theorem callTool_others {k : Text} (h : concerns U schema k params = false) :
    (callTool U schema repr book params).2.customers k = book.customers k := by
  have hanswered := @callTool_answered U schema repr book params
  generalize (callTool U schema repr book params).1 = reply at hanswered
  generalize (callTool U schema repr book params).2 = book' at hanswered
  cases hanswered with
  | malformed | unknown | exceeds | unserved => rfl
  | issued call c value book' hvalid hc hlt hreceipt hbook =>
      rw [concerns, hvalid] at h
      rw [hbook, Function.update_of_ne]
      exact fun hk => of_decide_eq_false h hk.symm

/-- The reply to a request and what it does to its customer depend on no other
entry of the ledger. -/
theorem callTool_congr {k : Text} {other : Ledger} (h : concerns U schema k params = true)
    (hk : other.customers k = book.customers k) :
    (callTool U schema repr other params).1 = (callTool U schema repr book params).1 ∧
      (callTool U schema repr other params).2.customers k = (callTool U schema repr book params).2.customers k := by
  cases hcall : validCall U schema params with
  | none =>
      rw [concerns, hcall] at h
      cases h
  | some call =>
      rw [concerns, hcall] at h
      obtain rfl : call.customerId = k := of_decide_eq_true h
      rw [callTool_some hcall, callTool_some hcall, triggerRefund, triggerRefund]
      cases hc : book.customers call.customerId with
      | none =>
          rw [refund_unknown hc, refund_unknown (hk.trans hc)]
          exact ⟨rfl, hk⟩
      | some c =>
          by_cases hlt : c.refundable.lt call.amount.value
          · rw [refund_exceeds hc hlt, refund_exceeds (hk.trans hc) hlt]
            exact ⟨rfl, hk⟩
          · rw [refund_issued hc hlt, refund_issued (hk.trans hc) hlt]
            dsimp only
            rw [Function.update_self, Function.update_self]
            exact ⟨rfl, rfl⟩

end Replies

end LlmGateway.Refunds
