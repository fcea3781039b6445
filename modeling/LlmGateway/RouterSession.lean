import LlmGateway.Mealy
import LlmGateway.RouterApp

namespace LlmGateway.Router

open Limiter
open Json (Members)
open TokenRateLimiter (releaseSync reconcileSync)

section Session

/-- A request, the ids that it draws, the clock at its reserve and the providers
as it meets them. -/
structure Incoming where
  authorization : Option Text
  body : Bytes
  requestId : RequestId
  freshId : RequestId
  now : ℚ
  client : Client

abbrev Exchange := Incoming × Except Unhandled Response

variable (U : Unicode) (py : Builtins) (config : RouterConfig) (settings : EstimateConfig) (limiter : TokenRateLimiter)

/-- The limiter with a table that nobody else writes to. -/
def Incoming.reserve (db : Database) (x : Incoming) (tenantKey : Text) (estimate : Int) :
    Except ReserveError Reservation × Database := limiter.reserveSync db tenantKey estimate x.now db

def Incoming.answer (db : Database) (x : Incoming) : Except Unhandled Response :=
  completions U py x.client config settings (fun tenantKey estimate => (x.reserve limiter db tenantKey estimate).1)
    x.requestId x.freshId x.authorization x.body

/-- The table after an admitted request. A charge that cannot be stored leaves
the reservation as it is. -/
def Incoming.settle (request : Members) (estimate : Int) (reservation : Reservation) (db : Database) (x : Incoming) : Database :=
  match (callWithFailover py x.client config request).2 with
  | .error _ => releaseSync db reservation
  | .ok result =>
    match reconcileSync db reservation (chargedFor estimate result) with
    | .error _ => db
    | .ok settled => settled

/-- The table after a request. -/
def Incoming.after (db : Database) (x : Incoming) : Database :=
  match py.json.loadsBytes x.body with
  | .ok (.dict request) =>
    match estimateTokens py settings request with
    | .error _ => db
    | .ok estimate =>
      match x.reserve limiter db (tenantFrom U x.authorization) estimate with
      | (.error _, db) => db
      | (.ok reservation, db) => x.settle py config request estimate reservation db
  | _ => db

/-- Requests that come one after another, each with its answer. -/
def serve (db : Database) (session : List Incoming) : List Exchange × Database :=
  Mealy.run (fun db x => (x.answer U py config settings limiter db, x.after U py config settings limiter db)) db session

/-- The tokens_charged that a client reads in its answer. -/
def receipt (response : Response) : Int :=
  match response.content with
  | .json (.dict body) =>
    match Members.get? body (str "_gateway") with
    | some (.dict routing) =>
      match Members.get? routing (str "tokens_charged") with
      | some (.int n) => n
      | _ => 0
    | _ => 0
  | _ => 0

def receiptOf : Except Unhandled Response → Int
  | .ok response => receipt response
  | .error _ => 0

/-- An exchange of the tenant since the cutoff. -/
def Incoming.concerns (tenantKey : Text) (cutoff : ℚ) (x : Incoming) : Bool :=
  tenantFrom U x.authorization = tenantKey ∧ cutoff ≤ x.now

/-- The tokens that the clients of a tenant read in their answers since the cutoff. -/
def receiptsSince (tenantKey : Text) (cutoff : ℚ) (exchanges : List Exchange) : List Int :=
  (exchanges.filter fun e => e.1.concerns U tenantKey cutoff).map fun e => receiptOf e.2

end Session

section Visible

variable {limiter : TokenRateLimiter} {db db' : Database} {tenantKey other : Text} {now c : ℚ} {tokens actual : Int}

/-- What there is to see of a tenant's usage since the cutoff. -/
def visible (db : Database) (tenantKey : Text) (c : ℚ) : List (ℚ × Int) :=
  (db.select tenantKey c).map fun r => (r.ts, r.tokens)

/-- What a row is for one who looks at a tenant's usage. -/
def entryFor (tenantKey : Text) (c : ℚ) (other : Text) (now : ℚ) (tokens : Int) : List (ℚ × Int) :=
  if other = tenantKey ∧ c ≤ now then [(now, tokens)] else []

theorem visible_of_rows {rows : List Row} (h : db.rows = rows) :
    visible db tenantKey c = (rows.filter fun r => r.tenantKey = tenantKey ∧ c ≤ r.ts).map fun r => (r.ts, r.tokens) := by
  rw [visible, Database.select, h]

theorem visible_evict {cutoff : ℚ} (h : cutoff ≤ c) : visible (db.evict cutoff) tenantKey c = visible db tenantKey c := by
  rw [visible_of_rows rfl, visible_of_rows rfl, Database.evict, Database.keep, List.filter_filter]
  congr 1
  refine List.filter_congr fun r _ => ?_
  by_cases hr : c ≤ r.ts
  · simp [hr, le_trans h hr]
  · simp [hr]

theorem visible_insert : visible (db.insert other now tokens) tenantKey c =
    visible db tenantKey c ++ entryFor tenantKey c other now tokens := by
  rw [visible_of_rows rfl, visible_of_rows rfl, Database.insert, List.filter_append, List.map_append, entryFor]
  congr 1
  by_cases h : other = tenantKey ∧ c ≤ now
  · rw [if_pos h, List.filter_cons_of_pos (by simpa using h)]
    rfl
  · rw [if_neg h, List.filter_cons_of_neg (by simpa using h)]
    rfl

/-- A new row is the only one that its number is the number of. -/
theorem rows_setTokens : ((db.insert other now tokens).setTokens (db.sequence + 1) actual).rows =
    (db.insert other now actual).rows := by
  have hold : db.rows.map (Row.setTokens (db.sequence + 1) actual) = db.rows :=
    (List.map_congr_left fun r hr => if_neg (Nat.lt_succ_of_le (db.id_le r hr)).ne).trans (List.map_id' db.rows)
  have hrows : ((db.insert other now tokens).setTokens (db.sequence + 1) actual).rows =
      (db.rows ++ [(⟨db.sequence + 1, other, now, tokens⟩ : Row)]).map (Row.setTokens (db.sequence + 1) actual) := rfl
  rw [hrows, List.map_append, hold, List.map_singleton, Row.setTokens, if_pos rfl]
  rfl

theorem rows_keep : ((db.insert other now tokens).keep fun r => r.id ≠ db.sequence + 1).rows = db.rows := by
  have hold : db.rows.filter (fun r => r.id ≠ db.sequence + 1) = db.rows :=
    List.filter_eq_self.mpr fun r hr => decide_eq_true (Nat.lt_succ_of_le (db.id_le r hr)).ne
  have hrows : ((db.insert other now tokens).keep fun r => r.id ≠ db.sequence + 1).rows =
      (db.rows ++ [(⟨db.sequence + 1, other, now, tokens⟩ : Row)]).filter (fun r => r.id ≠ db.sequence + 1) := rfl
  rw [hrows, List.filter_append, hold, List.filter_cons_of_neg (by simp), List.filter_nil, List.append_nil]

theorem usedAt_congr (h : visible db' tenantKey (limiter.cutoff now) = visible db tenantKey (limiter.cutoff now)) :
    limiter.usedAt db' tenantKey now = limiter.usedAt db tenantKey now := by
  have htokens (db : Database) : (db.select tenantKey (limiter.cutoff now)).map Row.tokens =
      (visible db tenantKey (limiter.cutoff now)).map Prod.snd := by
    rw [visible, List.map_map]
    rfl
  rw [usedAt_eq, usedAt_eq, Database.sum, Database.sum, htokens, htokens, h]

theorem retryAfter_congr (h : visible db' tenantKey c = visible db tenantKey c) :
    limiter.retryAfter db' tenantKey c now = limiter.retryAfter db tenantKey c now := by
  have hts (db : Database) : (db.select tenantKey c).map Row.ts = (visible db tenantKey c).map Prod.fst := by
    rw [visible, List.map_map]
    rfl
  rw [TokenRateLimiter.retryAfter, TokenRateLimiter.retryAfter, hts, hts, h]

end Visible

section Fate

variable {U : Unicode} {py : Builtins} {config : RouterConfig} {settings : EstimateConfig} {limiter : TokenRateLimiter}
  {db db' : Database} {x : Incoming} {tenantKey : Text} {c : ℚ} {response : Response}

/-- What becomes of the row of a request. -/
inductive Fate
  | unbooked
  | released (estimate : Int)
  | charged (estimate actual : Int)
  | unsettled (estimate : Int)

/-- The tokens that stay. -/
def Fate.kept : Fate → Option Int
  | unbooked | released _ => none
  | charged _ actual => some actual
  | unsettled estimate => some estimate

variable (limiter db) in
def booked (tenantKey : Text) (now : ℚ) (estimate : Int) : Database :=
  (db.evict (limiter.cutoff now)).insert tenantKey now estimate

variable (limiter db) in
def Fate.table (tenantKey : Text) (now : ℚ) : Fate → Database
  | unbooked => db
  | released estimate => (booked limiter db tenantKey now estimate).keep fun r => r.id ≠ db.sequence + 1
  | charged estimate actual => (booked limiter db tenantKey now estimate).setTokens (db.sequence + 1) actual
  | unsettled estimate => booked limiter db tenantKey now estimate

variable (py config settings limiter) in
/-- It is decided by what the tenant has used and what the providers answer. -/
def Incoming.fate (used : Except DatabaseError Int) (x : Incoming) : Fate :=
  match py.json.loadsBytes x.body with
  | .ok (.dict request) =>
    match estimateTokens py settings request, used with
    | .ok estimate, .ok used =>
      if limiter.limit < used + estimate ∨ ¬ isStorable estimate then .unbooked
      else
        match (callWithFailover py x.client config request).2 with
        | .error _ => .released estimate
        | .ok result =>
          if isStorable (chargedFor estimate result) then .charged estimate (chargedFor estimate result)
          else .unsettled estimate
    | _, _ => .unbooked
  | _ => .unbooked

variable (U py config settings limiter) in
def Incoming.fateOn (db : Database) (x : Incoming) : Fate :=
  x.fate py config settings limiter (limiter.usedAt db (tenantFrom U x.authorization) x.now)

theorem after_eq (db : Database) (x : Incoming) : x.after U py config settings limiter db =
    (x.fateOn U py config settings limiter db).table limiter db (tenantFrom U x.authorization) x.now := by
  rw [Incoming.after, Incoming.fateOn, Incoming.fate]
  cases hload : py.json.loadsBytes x.body with
  | error e => rfl
  | ok value =>
      cases value with
      | null | bool _ | int _ | float _ | str _ | list _ => rfl
      | dict request =>
          dsimp only
          cases hestimate : estimateTokens py settings request with
          | error exc => rfl
          | ok estimate =>
              dsimp only
              rw [Incoming.reserve, TokenRateLimiter.reserveSync_eq]
              cases hused : limiter.usedAt db (tenantFrom U x.authorization) x.now with
              | error e => rfl
              | ok used =>
                  dsimp only
                  by_cases hlimit : limiter.limit < used + estimate
                  · rw [if_pos hlimit, if_pos (Or.inl hlimit)]
                    rfl
                  by_cases hestimate : isStorable estimate
                  · rw [if_neg hlimit, if_pos hestimate, if_neg (not_or.mpr ⟨hlimit, not_not_intro hestimate⟩)]
                    dsimp only
                    rw [Incoming.settle]
                    cases hcall : (callWithFailover py x.client config request).2 with
                    | error exc => rfl
                    | ok result =>
                        dsimp only
                        rw [reconcileSync]
                        by_cases hstorable : isStorable (chargedFor estimate result)
                        · rw [if_pos hstorable, if_pos hstorable]
                          rfl
                        · rw [if_neg hstorable, if_neg hstorable]
                          rfl
                  · rw [if_neg hlimit, if_neg hestimate, if_pos (Or.inr hestimate)]
                    rfl

/-- What a request adds to a tenant's usage. -/
theorem visible_table (fate : Fate) {other : Text} {now : ℚ} (h : limiter.cutoff now ≤ c) :
    visible (fate.table limiter db other now) tenantKey c = visible db tenantKey c ++
      (fate.kept.toList.flatMap fun tokens => entryFor tenantKey c other now tokens) := by
  have hbooked (tokens : Int) : visible (booked limiter db other now tokens) tenantKey c =
      visible db tenantKey c ++ entryFor tenantKey c other now tokens := by
    rw [booked, visible_insert, visible_evict h]
  cases fate with
  | unbooked => exact (List.append_nil _).symm
  | released estimate =>
      have hrows : (Fate.table limiter db other now (.released estimate)).rows = (db.evict (limiter.cutoff now)).rows := rows_keep
      rw [visible_of_rows hrows, ← visible_of_rows rfl, visible_evict h]
      exact (List.append_nil _).symm
  | charged estimate actual =>
      have hrows : (Fate.table limiter db other now (.charged estimate actual)).rows =
          (booked limiter db other now actual).rows := rows_setTokens
      rw [visible_of_rows hrows, ← visible_of_rows rfl, hbooked]
      exact congrArg _ (List.append_nil _).symm
  | unsettled estimate =>
      rw [Fate.table, hbooked]
      exact congrArg _ (List.append_nil _).symm

end Fate

section Metering

variable {U : Unicode} {py : Builtins} {config : RouterConfig} {settings : EstimateConfig} {limiter : TokenRateLimiter}
  {db : Database} {x : Incoming} {session : List Incoming} {tenantKey : Text} {c : ℚ}

theorem receipt_routed (status : Int) (headers : List (Text × Text)) (routed : RoutedResponse) :
    receipt ⟨status, headers, .json (.dict (responseBody routed))⟩ = routed.tokensCharged := by
  have hget := Members.get?_set_self routed.payload (str "_gateway") (.dict (routingMembers routed))
  rw [receipt]
  dsimp only
  rw [responseBody, hget]
  rfl

/-- An answer that is no internal error says what stays in the table. -/
theorem answer_kept (db : Database) (x : Incoming) : ∃ response, x.answer U py config settings limiter db = .ok response ∧
    (response.status ≠ 500 → (x.fateOn U py config settings limiter db).kept.getD 0 = receipt response) := by
  have hcatch {exc : Exn} (hexc : ∀ e, exc ≠ .gatewayError e) {n : Int} : ∃ response, catchAll exc x.freshId = .ok response ∧
      (response.status ≠ 500 → n = receipt response) := by
    refine ⟨_, catchAll_eq hexc x.freshId, fun hstatus => ?_⟩
    exact absurd rfl hstatus
  rw [Incoming.answer, Incoming.fateOn, Incoming.fate, completions]
  cases hload : py.json.loadsBytes x.body with
  | error e =>
      dsimp only
      split
      · exact ⟨_, gatewayErrorHandler_eq .invalidRequest x.freshId none, fun _ => rfl⟩
      · exact hcatch fun e => by simp [recursionError]
  | ok value =>
      cases value with
      | null | bool _ | int _ | float _ | str _ | list _ =>
          exact ⟨_, gatewayErrorHandler_eq .invalidRequest x.freshId none, fun _ => rfl⟩
      | dict request =>
          dsimp only
          rw [routeCompletion]
          cases hestimate : estimateTokens py settings request with
          | error exc =>
              obtain ⟨name, rfl⟩ := estimateTokens_raises hestimate
              exact hcatch fun e => by simp
          | ok estimate =>
              have hdatabase (e : DatabaseError) (err : GatewayError) : Exn.ofDatabase e ≠ .gatewayError err := by
                simp [Exn.ofDatabase]
              dsimp only
              rw [Incoming.reserve, TokenRateLimiter.reserveSync_eq]
              cases hused : limiter.usedAt db (tenantFrom U x.authorization) x.now with
              | error e => exact hcatch (hdatabase e)
              | ok used =>
                  dsimp only
                  by_cases hlimit : limiter.limit < used + estimate
                  · rw [if_pos hlimit, if_pos (Or.inl hlimit)]
                    dsimp only
                    cases RateLimitExceeded.raised _ with
                    | rateLimitExceeded exc => exact ⟨_, gatewayErrorHandler_eq .rateLimited x.requestId _, fun _ => rfl⟩
                    | database e => exact hcatch (hdatabase e)
                  by_cases hestimate : isStorable estimate
                  · rw [if_neg hlimit, if_pos hestimate, if_neg (not_or.mpr ⟨hlimit, not_not_intro hestimate⟩)]
                    dsimp only
                    cases hcall : callWithFailover py x.client config request with
                    | mk attempts outcome =>
                        cases outcome with
                        | error exc =>
                            have herror := callWithFailover_error (congrArg Prod.snd hcall) x.requestId.text
                            rw [boundaryError] at herror
                            dsimp only
                            rw [herror]
                            exact ⟨_, gatewayErrorHandler_eq (reported exc) x.requestId none, fun _ => rfl⟩
                        | ok result =>
                            dsimp only
                            by_cases hstorable : isStorable (chargedFor estimate result)
                            · rw [if_pos hstorable, if_pos hstorable]
                              dsimp only
                              split
                              · exact hcatch fun e => by simp [valueError]
                              · next hjson =>
                                  obtain ⟨-, rfl⟩ := Response.ofJson_eq_ok.mp hjson
                                  exact ⟨_, rfl, fun _ => (receipt_routed 200 [] ⟨result.payload, result.provider, attempts,
                                    chargedFor estimate result, x.requestId.text⟩).symm⟩
                            · rw [if_neg hstorable, if_neg hstorable]
                              exact hcatch fun e => by simp [overflowError]
                  · rw [if_neg hlimit, if_neg hestimate]
                    exact hcatch (hdatabase _)

/-- The amounts, none of them zero, that a tenant has been charged since the cutoff. -/
def spent (db : Database) (tenantKey : Text) (c : ℚ) : List Int :=
  ((visible db tenantKey c).map Prod.snd).filter fun n => n ≠ 0

theorem usedSync_ok_iff {now : ℚ} {n : Int} : limiter.usedSync db tenantKey now = .ok n ↔ Utf8.scalar tenantKey ∧
    SumsStorable (spent db tenantKey (limiter.cutoff now)) ∧ n = (spent db tenantKey (limiter.cutoff now)).sum := by
  have htokens : tokensSince db.rows tenantKey (limiter.cutoff now) =
      (visible db tenantKey (limiter.cutoff now)).map Prod.snd := by
    rw [visible, List.map_map]
    rfl
  rw [TokenRateLimiter.usedSync, sum_ok_iff, total, htokens, spent, sumsStorable_nonzero, sum_nonzero]

theorem spent_table (fate : Fate) {other : Text} {now : ℚ} (h : limiter.cutoff now ≤ c) :
    spent (fate.table limiter db other now) tenantKey c =
      spent db tenantKey c ++ if other = tenantKey ∧ c ≤ now then [fate.kept.getD 0].filter fun n => n ≠ 0 else [] := by
  rw [spent, visible_table fate h, List.map_append, List.filter_append, spent]
  congr 1
  cases fate.kept with
  | none =>
      rw [Option.getD_none]
      exact (ite_self _).symm
  | some tokens =>
      rw [Option.toList_some, List.flatMap_singleton, entryFor, Option.getD_some]
      split <;> rfl

variable (U) in
/-- It is no request of the tenant since the cutoff that has ended in an internal error. -/
def Told (tenantKey : Text) (c : ℚ) (e : Exchange) : Prop :=
  tenantFrom U e.1.authorization = tenantKey ∧ c ≤ e.1.now → ∀ response, e.2 = .ok response → response.status ≠ 500

variable (U) in
/-- What an exchange adds to the amounts of the tenant. -/
def owed (tenantKey : Text) (c : ℚ) (e : Exchange) : List Int :=
  (receiptsSince U tenantKey c [e]).filter fun n => n ≠ 0

theorem spent_after (h : limiter.cutoff x.now ≤ c) (htold : Told U tenantKey c (x, x.answer U py config settings limiter db)) :
    spent (x.after U py config settings limiter db) tenantKey c =
      spent db tenantKey c ++ owed U tenantKey c (x, x.answer U py config settings limiter db) := by
  obtain ⟨response, hanswer, hkept⟩ := @answer_kept U py config settings limiter db x
  rw [after_eq, spent_table _ h, hanswer]
  congr 1
  by_cases hconcerns : tenantFrom U x.authorization = tenantKey ∧ c ≤ x.now
  · have hreceipts : receiptsSince U tenantKey c [(x, .ok response)] = [receipt response] := by
      simp [receiptsSince, Incoming.concerns, hconcerns, receiptOf]
    rw [if_pos hconcerns, hkept (htold hconcerns response hanswer), owed, hreceipts]
  · have hreceipts : receiptsSince U tenantKey c [(x, .ok response)] = [] := by
      simp [receiptsSince, Incoming.concerns, hconcerns]
    rw [if_neg hconcerns, owed, hreceipts]
    rfl

theorem flatMap_owed (exchanges : List Exchange) :
    exchanges.flatMap (owed U tenantKey c) = (receiptsSince U tenantKey c exchanges).filter fun n => n ≠ 0 := by
  induction exchanges with
  | nil => rfl
  | cons e exchanges ih =>
      have happend : receiptsSince U tenantKey c (e :: exchanges) =
          receiptsSince U tenantKey c [e] ++ receiptsSince U tenantKey c exchanges := by
        rw [receiptsSince, receiptsSince, receiptsSince, ← List.map_append, ← List.filter_append, List.singleton_append]
      rw [List.flatMap_cons, ih, owed, happend, List.filter_append]

/-- What counts against a tenant's budget is what its clients have read in their
answers within the window, as long as that can be summed up: a refusal or a
failed provider costs nothing, and no other tenant's request does. -/
theorem used_eq_receipts {now : ℚ} (hnow : ∀ x ∈ session, x.now ≤ now)
    (htold : ∀ e ∈ (serve U py config settings limiter .empty session).1, Told U tenantKey (limiter.cutoff now) e) (n : Int) :
    let receipts := receiptsSince U tenantKey (limiter.cutoff now) (serve U py config settings limiter .empty session).1
    limiter.usedSync (serve U py config settings limiter .empty session).2 tenantKey now = .ok n ↔
      Utf8.scalar tenantKey ∧ SumsStorable receipts ∧ n = receipts.sum := by
  have hspent := @Mealy.run_flatMap _ _ _ _ _ session (fun db => spent db tenantKey (limiter.cutoff now))
    (owed U tenantKey (limiter.cutoff now)) _ .empty
    (fun db x hx => @spent_after U py config settings limiter db x tenantKey _ (TokenRateLimiter.cutoff_mono (hnow x hx))) htold
  have hempty : spent .empty tenantKey (limiter.cutoff now) = [] := rfl
  intro receipts
  rw [hempty, List.nil_append, flatMap_owed] at hspent
  rw [usedSync_ok_iff, serve, hspent, sumsStorable_nonzero, sum_nonzero]
  rfl

def usageAnswer : Members := [(str "usage", .dict [(str "prompt_tokens", .int 70)])]

def incomingOf (authorization : Option Text) (now : ℚ) (client : Client) : Incoming :=
  ⟨authorization, [], ⟨str "a1", rfl⟩, ⟨str "b2", rfl⟩, now, client⟩

/-- Two answers of 70 tokens, a timeout of both providers between them, another
tenant's request, and a request over the limit. -/
def busySession : List Incoming :=
  [incomingOf (some (str "Bearer acme")) 0 fun _ _ _ => .response ⟨200, none, []⟩,
    incomingOf (some (str "Bearer acme")) 1 fun _ _ _ => .timeoutError,
    incomingOf none 2 fun _ _ _ => .response ⟨200, none, []⟩,
    incomingOf (some (str "Bearer acme")) 3 fun _ _ _ => .response ⟨200, none, []⟩,
    incomingOf (some (str "Bearer acme")) 4 fun _ _ _ => .response ⟨200, none, []⟩]

def busyExchanges : List Exchange :=
  (serve .ascii (answering (.dict usageAnswer)) localConfig ⟨4, 16⟩ ⟨100, 60, .exact⟩ .empty busySession).1

example : busyExchanges.map (fun e => receiptOf e.2) = [70, 0, 70, 70, 0] := by decide +kernel

theorem used_eq_receipts_busy : TokenRateLimiter.usedSync ⟨100, 60, .exact⟩
    (serve .ascii (answering (.dict usageAnswer)) localConfig ⟨4, 16⟩ ⟨100, 60, .exact⟩ .empty busySession).2 (str "acme") 5 =
      .ok 140 := by
  apply (used_eq_receipts ?_ ?_ 140).mpr
  · decide +kernel
  · decide +kernel
  · intro e he _ response hresponse
    have hall : busyExchanges.all fun e => (e.2.toOption.map Response.status) != some 500 := by decide +kernel
    have hstatus := List.all_eq_true.mp hall e he
    rw [hresponse] at hstatus
    rintro h500
    simp [Except.toOption, h500] at hstatus

end Metering

section Isolation

variable {U : Unicode} {py : Builtins} {config : RouterConfig} {settings : EstimateConfig} {limiter : TokenRateLimiter}
  {db other : Database} {x : Incoming} {session : List Incoming} {tenantKey : Text} {last : Option ℚ}

/-- Of a reservation an answer shows only that there is one. -/
theorem routeCompletion_congr {client : Client} {reserve reserve' : Text → Int → Except ReserveError Reservation}
    (h : ∀ estimate, ((reserve' tenantKey estimate).map fun _ => ()) = (reserve tenantKey estimate).map fun _ => ())
    (request : Members) (requestId : Text) :
    routeCompletion py client config settings reserve' tenantKey request requestId =
      routeCompletion py client config settings reserve tenantKey request requestId := by
  rw [routeCompletion, routeCompletion]
  cases estimateTokens py settings request with
  | error exc => rfl
  | ok estimate =>
      have hestimate := h estimate
      dsimp only
      cases hreserve : reserve tenantKey estimate with
      | error exc =>
          cases hreserve' : reserve' tenantKey estimate with
          | error exc' =>
              rw [hreserve, hreserve'] at hestimate
              cases hestimate
              rfl
          | ok reservation' =>
              rw [hreserve, hreserve'] at hestimate
              cases hestimate
      | ok reservation =>
          cases hreserve' : reserve' tenantKey estimate with
          | error exc' =>
              rw [hreserve, hreserve'] at hestimate
              cases hestimate
          | ok reservation' => rfl

theorem answer_congr (h : ∀ estimate, ((x.reserve limiter other (tenantFrom U x.authorization) estimate).1.map fun _ => ()) =
      (x.reserve limiter db (tenantFrom U x.authorization) estimate).1.map fun _ => ()) :
    x.answer U py config settings limiter other = x.answer U py config settings limiter db := by
  have hroute (request : Members) : routeCompletion py x.client config settings
      (fun tenantKey estimate => (x.reserve limiter other tenantKey estimate).1) (tenantFrom U x.authorization) request
        x.requestId.text =
      routeCompletion py x.client config settings (fun tenantKey estimate => (x.reserve limiter db tenantKey estimate).1)
        (tenantFrom U x.authorization) request x.requestId.text := routeCompletion_congr h request _
  rw [Incoming.answer, Incoming.answer, completions, completions]
  simp only [hroute]

variable (U) in
def Incoming.ofTenant (tenantKey : Text) (x : Incoming) : Bool := tenantFrom U x.authorization = tenantKey

variable (limiter tenantKey) in
/-- Two tables in which one tenant's usage looks the same, from now on. -/
def SameUsage (last : Option ℚ) (db other : Database) : Prop :=
  ∀ c, (∀ t ∈ last, limiter.cutoff t ≤ c) → visible other tenantKey c = visible db tenantKey c

theorem SameUsage.at (h : SameUsage limiter tenantKey last db other) (hlast : ∀ t ∈ last, t ≤ x.now) :
    visible other tenantKey (limiter.cutoff x.now) = visible db tenantKey (limiter.cutoff x.now) :=
  h _ fun t ht => TokenRateLimiter.cutoff_mono (hlast t ht)

theorem SameUsage.later (h : SameUsage limiter tenantKey last db other) (hlast : ∀ t ∈ last, t ≤ x.now) :
    SameUsage limiter tenantKey (some x.now) db other :=
  fun c hc => h c fun t ht => le_trans (TokenRateLimiter.cutoff_mono (hlast t ht)) (hc x.now rfl)

/-- Another tenant's request does not show. -/
theorem SameUsage.skip (h : SameUsage limiter tenantKey last db other) (hlast : ∀ t ∈ last, t ≤ x.now)
    (hx : x.ofTenant U tenantKey = false) :
    SameUsage limiter tenantKey (some x.now) (x.after U py config settings limiter db) other := by
  intro c hc
  have hne : ¬ (tenantFrom U x.authorization = tenantKey ∧ c ≤ x.now) := fun hconcerns => of_decide_eq_false hx hconcerns.1
  have hnone (tokens : Int) : entryFor tenantKey c (tenantFrom U x.authorization) x.now tokens = [] := if_neg hne
  rw [h.later hlast c hc, after_eq, visible_table _ (hc x.now rfl)]
  rw [List.flatMap_eq_nil_iff.mpr fun tokens _ => hnone tokens, List.append_nil]

/-- A request of the tenant itself leads to the same answer and adds the same. -/
theorem SameUsage.serve (h : SameUsage limiter tenantKey last db other) (hlast : ∀ t ∈ last, t ≤ x.now)
    (hx : x.ofTenant U tenantKey = true) :
    x.answer U py config settings limiter other = x.answer U py config settings limiter db ∧
      SameUsage limiter tenantKey (some x.now) (x.after U py config settings limiter db)
        (x.after U py config settings limiter other) := by
  obtain rfl : tenantFrom U x.authorization = tenantKey := of_decide_eq_true hx
  have hused : limiter.usedAt other (tenantFrom U x.authorization) x.now =
      limiter.usedAt db (tenantFrom U x.authorization) x.now := usedAt_congr (h.at hlast)
  constructor
  · apply answer_congr
    intro estimate
    rw [Incoming.reserve, Incoming.reserve, TokenRateLimiter.reserveSync_eq, TokenRateLimiter.reserveSync_eq, hused]
    cases limiter.usedAt db (tenantFrom U x.authorization) x.now with
    | error e => rfl
    | ok used =>
        dsimp only
        split
        · rw [TokenRateLimiter.exceeded, TokenRateLimiter.exceeded, retryAfter_congr (h.at hlast)]
        · split <;> rfl
  · intro c hc
    rw [after_eq, after_eq, visible_table _ (hc x.now rfl), visible_table _ (hc x.now rfl), h.later hlast c hc,
      Incoming.fateOn, Incoming.fateOn, hused]

theorem unwinding (tenantKey : Text) : Mealy.Unwinding
    (fun db (x : Incoming) => (x.answer U py config settings limiter db, x.after U py config settings limiter db))
    (Incoming.ofTenant U tenantKey) fun session db other => (session.map Incoming.now).Pairwise (· ≤ ·) ∧
      ∃ last, (∀ t ∈ last, ∀ x ∈ session, t ≤ x.now) ∧ SameUsage limiter tenantKey last db other := by
  have hnext {x : Incoming} {session : List Incoming} (hclock : ((x :: session).map Incoming.now).Pairwise (· ≤ ·)) :
      (session.map Incoming.now).Pairwise (· ≤ ·) ∧ ∀ t ∈ some x.now, ∀ y ∈ session, t ≤ y.now := by
    rw [List.map_cons, List.pairwise_cons] at hclock
    refine ⟨hclock.2, fun t ht y hy => ?_⟩
    cases ht
    exact hclock.1 y.now (List.mem_map_of_mem hy)
  constructor
  · rintro x session db other ⟨hclock, last, hlast, hsame⟩ hx
    exact ⟨(hnext hclock).1, some x.now, (hnext hclock).2, hsame.skip (fun t ht => hlast t ht x List.mem_cons_self) hx⟩
  · rintro x session db other ⟨hclock, last, hlast, hsame⟩ hx
    exact (hsame.serve (fun t ht => hlast t ht x List.mem_cons_self) hx).1
  · rintro x session db other ⟨hclock, last, hlast, hsame⟩ hx
    exact ⟨(hnext hclock).1, some x.now, (hnext hclock).2, (hsame.serve (fun t ht => hlast t ht x List.mem_cons_self) hx).2⟩

/-- A tenant is answered as if it were alone: the same statuses, bodies and
times to wait, whatever other tenants send in between and however it ends. -/
theorem serve_tenant (hclock : (session.map Incoming.now).Pairwise (· ≤ ·)) (tenantKey : Text) :
    (serve U py config settings limiter .empty (session.filter (Incoming.ofTenant U tenantKey))).1 =
      (serve U py config settings limiter .empty session).1.filter fun e => e.1.ofTenant U tenantKey := by
  have hstart : SameUsage limiter tenantKey none .empty .empty := fun c _ => rfl
  exact ((unwinding tenantKey).run_filter ⟨hclock, none, (fun t ht => by cases ht), hstart⟩).1

theorem serve_tenant_busy : (serve .ascii (answering (.dict usageAnswer)) localConfig ⟨4, 16⟩ ⟨100, 60, .exact⟩ .empty
      (busySession.filter (Incoming.ofTenant .ascii (str "acme")))).1 =
    busyExchanges.filter fun e => e.1.ofTenant .ascii (str "acme") :=
  serve_tenant (by decide +kernel) (str "acme")

end Isolation

end LlmGateway.Router
