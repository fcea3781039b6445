import LlmGateway.Router

namespace LlmGateway.Router

open Json (Members)

/-- What float() has made of the text of a number. -/
inductive FloatValue
  | nan
  | infinite
  | finite (q : ℚ)
  deriving DecidableEq

/-- The conversions of numbers that are built in, and the json module. Nothing
is assumed of int(text) and float(text) but that they fail with ValueError. -/
structure Builtins where
  json : Json.Decoder
  floatValue : FloatRepr → FloatValue
  intOfText : Text → Option Int
  floatOfText : Text → Option ℚ

def typeError : Exn := .other (str "TypeError")

def valueError : Exn := .other (str "ValueError")

def overflowError : Exn := .other (str "OverflowError")

def attributeError : Exn := .other (str "AttributeError")

def recursionError : Exn := .other (str "RecursionError")

def zeroDivisionError : Exn := .other (str "ZeroDivisionError")

/-- int() of a number: it truncates. -/
def truncate (q : ℚ) : Int := q.num.tdiv q.den

section Values

variable (py : Builtins)

/-- bool(value) -/
def truthy : Json → Bool
  | .null => false
  | .bool b => b
  | .int n => n ≠ 0
  | .float repr => py.floatValue repr ≠ .finite 0
  | .str s => s ≠ []
  | .list items => !items.isEmpty
  | .dict members => !members.isEmpty

/-- int(value) -/
def toInt : Json → Except Exn Int
  | .bool b => .ok (if b then 1 else 0)
  | .int n => .ok n
  | .float repr =>
    match py.floatValue repr with
    | .nan => .error valueError
    | .infinite => .error overflowError
    | .finite q => .ok (truncate q)
  | .str s =>
    match py.intOfText s with
    | none => .error valueError
    | some n => .ok n
  | .null | .list _ | .dict _ => .error typeError

/-- The values that a for loop over value runs through. -/
def iterate : Json → Except Exn (List Json)
  | .list items => .ok items
  | .str s => .ok (s.map fun c => .str [c])
  | .dict members => .ok (Members.keys members |>.map .str)
  | .null | .bool _ | .int _ | .float _ => .error typeError

/-- len(value) -/
def len : Json → Except Exn Nat
  | .str s => .ok s.length
  | .list items => .ok items.length
  | .dict members => .ok members.length
  | .null | .bool _ | .int _ | .float _ => .error typeError

/-- The sum of f over the values, unless f raises. -/
def sumOf (f : Json → Except Exn Nat) : List Json → Except Exn Nat
  | [] => .ok 0
  | v :: vs =>
    match f v with
    | .error e => .error e
    | .ok n => (sumOf f vs).map (n + ·)

end Values

section Estimate

/-- The settings that estimate_tokens reads. -/
structure EstimateConfig where
  charsPerToken : ℚ
  minimumReservation : Int

/-- What a message adds to text_parts. -/
def textParts (message : Json) : List Json :=
  match message with
  | .dict members =>
    match (Members.get? members (str "content")).getD .null with
    | .str content => [.str content]
    | .list content => content.filterMap fun part =>
      match part with
      | .dict part => some ((Members.get? part (str "text")).getD (.str []))
      | _ => none
    | _ => []
  | _ => []

/-- int(request.get("max_tokens", 0) or 0) -/
def maxTokens (py : Builtins) (request : Members) : Except Exn Int :=
  let value := (request.get? (str "max_tokens")).getD (.int 0)
  toInt py (if truthy py value then value else .int 0)

def estimateTokens (py : Builtins) (config : EstimateConfig) (request : Members) : Except Exn Int :=
  match iterate ((request.get? (str "messages")).getD (.list [])) with
  | .error e => .error e
  | .ok messages =>
    match sumOf len (messages.flatMap textParts) with
    | .error e => .error e
    | .ok characters =>
      if config.charsPerToken = 0 then .error zeroDivisionError
      else
        match maxTokens py request with
        | .error e => .error e
        | .ok n => .ok (max (truncate (characters / config.charsPerToken) + n) config.minimumReservation)

end Estimate

section Estimable

/-- The call of a function returns. -/
def Returns {α : Type} (x : Except Exn α) : Prop := ∃ a, x = .ok a

@[simp] theorem returns_ok {α : Type} (a : α) : Returns (.ok a) := ⟨a, rfl⟩

@[simp] theorem not_returns_error {α : Type} (e : Exn) : ¬ Returns (.error e : Except Exn α) := by
  rintro ⟨a, ha⟩
  cases ha

/-- A string, a list or an object. -/
def isCollection : Json → Bool
  | .str _ | .list _ | .dict _ => true
  | .null | .bool _ | .int _ | .float _ => false

/-- A bool, an int, a float that is a number, or the text of an int. -/
def isIntegral (py : Builtins) : Json → Bool
  | .bool _ | .int _ => true
  | .float repr => py.floatValue repr ≠ .nan && py.floatValue repr ≠ .infinite
  | .str s => (py.intOfText s).isSome
  | .null | .list _ | .dict _ => false

/-- The shapes of a request that estimate_tokens can take. -/
structure Estimable (py : Builtins) (config : EstimateConfig) (request : Members) : Prop where
  messages : ∀ v, request.get? (str "messages") = some v → isCollection v
  texts : ∀ messages, request.get? (str "messages") = some (.list messages) →
    ∀ message ∈ messages, ∀ part ∈ textParts message, isCollection part
  maxTokens : ∀ v, request.get? (str "max_tokens") = some v → truthy py v → isIntegral py v
  divisor : config.charsPerToken ≠ 0

variable {py : Builtins} {config : EstimateConfig} {request : Members}

theorem iterate_returns_iff {v : Json} : Returns (iterate v) ↔ isCollection v := by
  cases v <;> simp [iterate, isCollection]

theorem len_returns_iff {v : Json} : Returns (len v) ↔ isCollection v := by
  cases v <;> simp [len, isCollection]

theorem toInt_returns_iff {v : Json} : Returns (toInt py v) ↔ isIntegral py v := by
  cases v with
  | float repr => cases h : py.floatValue repr <;> simp [toInt, isIntegral, h]
  | str s => cases h : py.intOfText s <;> simp [toInt, isIntegral, h]
  | _ => simp [toInt, isIntegral]

theorem sumOf_returns_iff {f : Json → Except Exn Nat} {vs : List Json} :
    Returns (sumOf f vs) ↔ ∀ v ∈ vs, Returns (f v) := by
  induction vs with
  | nil => exact iff_of_true (returns_ok 0) fun v hv => absurd hv List.not_mem_nil
  | cons v vs ih =>
      rw [sumOf, List.forall_mem_cons, ← ih]
      cases f v with
      | error e => simp
      | ok n => cases sumOf f vs <;> simp [Except.map]

theorem maxTokens_returns_iff : Returns (maxTokens py request) ↔
    ∀ v, request.get? (str "max_tokens") = some v → truthy py v → isIntegral py v := by
  rw [maxTokens, toInt_returns_iff]
  cases hv : request.get? (str "max_tokens") with
  | none => simp [truthy, isIntegral]
  | some v =>
      by_cases ht : truthy py v
      · simp [ht]
      · simp [ht, isIntegral]

/-- Of what a loop over messages runs through only the items of a list have
parts. -/
theorem mem_parts_iff {v part : Json} {messages : List Json} (h : iterate v = .ok messages) :
    part ∈ messages.flatMap textParts ↔ ∃ items, v = .list items ∧ ∃ message ∈ items, part ∈ textParts message := by
  cases v with
  | list items =>
      cases h
      simp
  | str s =>
      cases h
      simp [textParts]
  | dict members =>
      cases h
      simp [textParts]
  | _ => cases h

theorem messages_returns_iff : Returns (iterate ((request.get? (str "messages")).getD (.list []))) ↔
    ∀ v, request.get? (str "messages") = some v → isCollection v := by
  rw [iterate_returns_iff]
  cases request.get? (str "messages") <;> simp [isCollection]

theorem texts_iff {messages : List Json} (h : iterate ((request.get? (str "messages")).getD (.list [])) = .ok messages) :
    (∀ part ∈ messages.flatMap textParts, isCollection part) ↔
      ∀ items, request.get? (str "messages") = some (.list items) →
        ∀ message ∈ items, ∀ part ∈ textParts message, isCollection part := by
  constructor
  · intro hall items hitems message hmessage part hpart
    rw [hitems] at h
    exact hall part ((mem_parts_iff h).mpr ⟨items, rfl, message, hmessage, hpart⟩)
  · intro hall part hpart
    obtain ⟨items, hitems, message, hmessage, hmem⟩ := (mem_parts_iff h).mp hpart
    cases hv : request.get? (str "messages") with
    | none =>
        rw [hv] at hitems
        cases hitems
        cases hmessage
    | some v =>
        rw [hv] at hitems
        exact hall items (by rw [hv]; exact congrArg some hitems) message hmessage part hmem

/-- estimate_tokens raises nothing exactly for the requests it can take. -/
theorem estimateTokens_returns_iff : Returns (estimateTokens py config request) ↔ Estimable py config request := by
  rw [estimateTokens]
  cases hm : iterate ((request.get? (str "messages")).getD (.list [])) with
  | error e =>
      apply iff_of_false (not_returns_error e)
      intro h
      have hreturns := messages_returns_iff.mpr h.messages
      rw [hm] at hreturns
      exact not_returns_error e hreturns
  | ok messages =>
      have hmessages := messages_returns_iff.mp (by rw [hm]; exact returns_ok messages)
      have hlen : Returns (sumOf len (messages.flatMap textParts)) ↔ _ :=
        sumOf_returns_iff.trans (Iff.trans (by simp only [len_returns_iff]) (texts_iff hm))
      have htokens : Returns (maxTokens py request) ↔ _ := maxTokens_returns_iff
      dsimp only
      cases hs : sumOf len (messages.flatMap textParts) with
      | error e =>
          rw [hs] at hlen
          exact iff_of_false (not_returns_error e) fun h => not_returns_error e (hlen.mpr h.texts)
      | ok characters =>
          have htexts := hlen.mp (by rw [hs]; exact returns_ok characters)
          dsimp only
          by_cases hzero : config.charsPerToken = 0
          · rw [if_pos hzero]
            exact iff_of_false (not_returns_error _) fun h => h.divisor hzero
          · rw [if_neg hzero]
            cases hn : maxTokens py request with
            | error e =>
                rw [hn] at htokens
                exact iff_of_false (not_returns_error e) fun h => not_returns_error e (htokens.mpr h.maxTokens)
            | ok n =>
                rw [hn] at htokens
                exact iff_of_true (returns_ok _) ⟨hmessages, htexts, htokens.mp (returns_ok n), hzero⟩

end Estimable

section Raises

/-- An exception of the language itself. -/
def Builtin (exc : Exn) : Prop := ∃ name, exc = .other name

variable {py : Builtins} {config : EstimateConfig} {request : Members} {exc : Exn} {v : Json}

theorem iterate_raises (h : iterate v = .error exc) : Builtin exc := by
  cases v <;> cases h <;> exact ⟨_, rfl⟩

theorem len_raises (h : len v = .error exc) : Builtin exc := by
  cases v <;> cases h <;> exact ⟨_, rfl⟩

theorem toInt_raises (h : toInt py v = .error exc) : Builtin exc := by
  cases v with
  | bool b => cases h
  | int n => cases h
  | float repr =>
      rw [toInt] at h
      split at h <;> cases h <;> exact ⟨_, rfl⟩
  | str s =>
      rw [toInt] at h
      split at h <;> cases h
      exact ⟨_, rfl⟩
  | _ => cases h; exact ⟨_, rfl⟩

theorem sumOf_raises {f : Json → Except Exn Nat} (hf : ∀ v exc, f v = .error exc → Builtin exc) {vs : List Json}
    (h : sumOf f vs = .error exc) : Builtin exc := by
  induction vs with
  | nil => cases h
  | cons v vs ih =>
      rw [sumOf] at h
      cases hv : f v with
      | error e =>
          rw [hv] at h
          cases h
          exact hf v exc hv
      | ok n =>
          rw [hv] at h
          cases hs : sumOf f vs with
          | error e =>
              rw [hs] at h
              cases h
              exact ih hs
          | ok m =>
              rw [hs] at h
              cases h

theorem estimateTokens_raises (h : estimateTokens py config request = .error exc) : Builtin exc := by
  rw [estimateTokens] at h
  split at h
  · next hm =>
      cases h
      exact iterate_raises hm
  · split at h
    · next hs =>
        cases h
        exact sumOf_raises (fun _ _ => len_raises) hs
    · split at h
      · cases h
        exact ⟨_, rfl⟩
      · split at h
        · next hn =>
            cases h
            exact toInt_raises hn
        · cases h

end Raises

end LlmGateway.Router
