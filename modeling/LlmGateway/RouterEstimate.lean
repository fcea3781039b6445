import LlmGateway.RouterRequest
import Mathlib.Algebra.Order.BigOperators.Group.List
import Mathlib.Data.Rat.Floor

namespace LlmGateway.Router

open Json (Members)

variable {py : Builtins} {config : EstimateConfig} {request request' : Members} {n n' : Int}

section Lengths

/-- The items of a list of messages; nothing else there has any text. -/
def itemsOf : Json → List Json
  | .list items => items
  | _ => []

def messagesIn (request : Members) : Json := (request.get? (str "messages")).getD (.list [])

def textIn (part : Members) : Json := (part.get? (str "text")).getD (.str [])

def partText : Json → Option Text
  | .dict part =>
    match textIn part with
    | .str s => some s
    | _ => none
  | _ => none

/-- The texts of a message: its content, or those of the parts of its content. -/
def textsOf : Json → List Text
  | .dict message =>
    match Members.get? message (str "content") with
    | some (.str s) => [s]
    | some (.list parts) => parts.filterMap partText
    | _ => []
  | _ => []

def textLength (request : Members) : Nat :=
  (((itemsOf (messagesIn request)).flatMap textsOf).map List.length).sum

/-- What len() makes of a value that stands for a text. -/
def size : Json → Nat
  | .str s => s.length
  | .list items => items.length
  | .dict members => members.length
  | _ => 0

def messageSize (message : Json) : Nat := ((textParts message).map size).sum

/-- The characters that estimate_tokens counts. -/
def countedLength (request : Members) : Nat := ((itemsOf (messagesIn request)).map messageSize).sum

theorem sum_flatMap {α β : Type} (f : α → List β) (g : β → Nat) (l : List α) :
    ((l.flatMap f).map g).sum = (l.map fun a => ((f a).map g).sum).sum := by
  induction l with
  | nil => rfl
  | cons a l ih => rw [List.flatMap_cons, List.map_append, List.sum_append, ih, List.map_cons, List.sum_cons]

theorem sumOf_len_eq {vs : List Json} {k : Nat} (h : sumOf len vs = .ok k) : k = (vs.map size).sum := by
  induction vs generalizing k with
  | nil =>
      cases h
      rfl
  | cons v vs ih =>
      rw [sumOf] at h
      cases hs : sumOf len vs with
      | error e => cases v <;> rw [hs] at h <;> cases h
      | ok m =>
          rw [List.map_cons, List.sum_cons, ← ih hs]
          cases v <;> rw [hs] at h <;> cases h <;> rfl

theorem parts_of_iterate {v : Json} {messages : List Json} (h : iterate v = .ok messages) :
    messages.flatMap textParts = (itemsOf v).flatMap textParts := by
  cases v with
  | list items =>
      cases h
      rfl
  | str s =>
      cases h
      simp [itemsOf, textParts]
  | dict members =>
      cases h
      simp [itemsOf, textParts]
  | _ => cases h

theorem textLength_eq (request : Members) : textLength request =
    ((itemsOf (messagesIn request)).map fun message => ((textsOf message).map List.length).sum).sum := sum_flatMap _ _ _

/-- The value under text of a part. -/
def partValue : Json → Option Json
  | .dict part => some (textIn part)
  | _ => none

theorem textParts_list {message : Members} {parts : List Json} (h : message.get? (str "content") = some (.list parts)) :
    textParts (.dict message) = parts.filterMap partValue := by
  rw [textParts, h]
  rfl

theorem length_partText_le (part : Json) :
    ((partText part).toList.map List.length).sum ≤ ((partValue part).toList.map size).sum := by
  cases part with
  | dict part =>
      rw [partText, partValue]
      cases textIn part <;> simp [size]
  | _ => exact Nat.le_refl 0

theorem sum_filterMap {α β : Type} (f : α → Option β) (g : β → Nat) (l : List α) :
    ((l.filterMap f).map g).sum = (l.map fun a => ((f a).toList.map g).sum).sum := by
  induction l with
  | nil => rfl
  | cons a l ih =>
      rw [List.map_cons, List.sum_cons, ← ih]
      cases h : f a with
      | none => simp [h]
      | some b => simp [h]

/-- A text counts with its length, and what is no text with at least nothing. -/
theorem length_texts_le (message : Json) : ((textsOf message).map List.length).sum ≤ messageSize message := by
  cases message with
  | dict members =>
      rw [messageSize]
      cases h : Members.get? members (str "content") with
      | none => simp [textsOf, h]
      | some content =>
          cases content with
          | list parts =>
              rw [textParts_list h, textsOf, h]
              simp only [sum_filterMap]
              exact List.sum_le_sum fun part _ => length_partText_le part
          | str s => simp [textsOf, textParts, h, size]
          | _ => simp [textsOf, h]
  | _ => exact Nat.zero_le _

theorem textLength_le (request : Members) : textLength request ≤ countedLength request := by
  rw [textLength_eq]
  exact List.sum_le_sum fun message _ => length_texts_le message

end Lengths

section Estimate

theorem truncate_eq_floor {q : ℚ} (h : 0 ≤ q) : truncate q = ⌊q⌋ := by
  rw [truncate, Rat.floor_def', Int.tdiv_eq_ediv_of_nonneg (Rat.num_nonneg.mpr h)]

theorem maxTokens_of_estimate {e : Int} (h : estimateTokens py config request = .ok e) :
    ∃ n, maxTokens py request = .ok n := by
  have hreturns : Returns (estimateTokens py config request) := ⟨e, h⟩
  exact maxTokens_returns_iff.mpr (estimateTokens_returns_iff.mp hreturns).maxTokens

/-- What estimate_tokens returns. -/
theorem estimateTokens_eq (hpos : 0 < config.charsPerToken) {e : Int} (h : estimateTokens py config request = .ok e)
    (hn : maxTokens py request = .ok n) :
    e = max (⌊(countedLength request : ℚ) / config.charsPerToken⌋ + n) config.minimumReservation := by
  rw [estimateTokens] at h
  split at h
  · cases h
  · next messages hm =>
      split at h
      · cases h
      · next characters hs =>
          rw [if_neg hpos.ne', hn] at h
          have hc : characters = countedLength request := by
            rw [sumOf_len_eq hs, parts_of_iterate hm, sum_flatMap]
            rfl
          cases h
          rw [truncate_eq_floor (by positivity), hc]

end Estimate

section Growth

/-- A part is given a longer text. -/
inductive PartGrows : Json → Json → Prop
  | text (part : Members) (s s' : Text) (h : textIn part = .str s) (hs : s.length ≤ s'.length) :
      PartGrows (.dict part) (.dict (part.set (str "text") (.str s')))

/-- A message is given a longer text or one more part. -/
inductive MessageGrows : Json → Json → Prop
  | content (message : Members) (s s' : Text) (h : message.get? (str "content") = some (.str s))
      (hs : s.length ≤ s'.length) : MessageGrows (.dict message) (.dict (message.set (str "content") (.str s')))
  | newPart (message : Members) (a b : List Json) (part : Json)
      (h : message.get? (str "content") = some (.list (a ++ b))) :
      MessageGrows (.dict message) (.dict (message.set (str "content") (.list (a ++ part :: b))))
  | part (message : Members) (a b : List Json) (part part' : Json)
      (h : message.get? (str "content") = some (.list (a ++ part :: b))) (hp : PartGrows part part') :
      MessageGrows (.dict message) (.dict (message.set (str "content") (.list (a ++ part' :: b))))

/-- A request asks for more: one more message or part, a longer text, or more tokens. -/
inductive Grows (py : Builtins) : Members → Members → Prop
  | newMessage (request : Members) (a b : List Json) (message : Json) (h : messagesIn request = .list (a ++ b)) :
      Grows py request (request.set (str "messages") (.list (a ++ message :: b)))
  | message (request : Members) (a b : List Json) (message message' : Json)
      (h : messagesIn request = .list (a ++ message :: b)) (hm : MessageGrows message message') :
      Grows py request (request.set (str "messages") (.list (a ++ message' :: b)))
  | tokens (request : Members) (value : Json) (n n' : Int) (h : maxTokens py request = .ok n)
      (h' : maxTokens py (request.set (str "max_tokens") value) = .ok n') (hn : n ≤ n') :
      Grows py request (request.set (str "max_tokens") value)

theorem sum_insert_le {α : Type} (f : α → Nat) (a b : List α) (x : α) :
    ((a ++ b).map f).sum ≤ ((a ++ x :: b).map f).sum := by
  simp only [List.map_append, List.sum_append, List.map_cons, List.sum_cons]
  omega

theorem sum_replace_le {α : Type} {f : α → Nat} {x y : α} (h : f x ≤ f y) (a b : List α) :
    ((a ++ x :: b).map f).sum ≤ ((a ++ y :: b).map f).sum := by
  simp only [List.map_append, List.sum_append, List.map_cons, List.sum_cons]
  omega

def partSize (part : Json) : Nat := ((partValue part).toList.map size).sum

theorem PartGrows.le {part part' : Json} (h : PartGrows part part') : partSize part ≤ partSize part' := by
  cases h with
  | text part s s' h hs =>
      have hset : textIn (part.set (str "text") (.str s')) = .str s' := by
        rw [textIn, Members.get?_set_self]
        rfl
      simpa [partSize, partValue, h, hset, size] using hs

theorem messageSize_parts {message : Members} {parts : List Json} (h : message.get? (str "content") = some (.list parts)) :
    messageSize (.dict message) = (parts.map partSize).sum := by
  rw [messageSize, textParts_list h, sum_filterMap]
  rfl

theorem messageSize_content {message : Members} {s : Text} (h : message.get? (str "content") = some (.str s)) :
    messageSize (.dict message) = s.length := by
  simp [messageSize, textParts, h, size]

theorem MessageGrows.le {message message' : Json} (h : MessageGrows message message') :
    messageSize message ≤ messageSize message' := by
  cases h with
  | content message s s' h hs =>
      rw [messageSize_content h, messageSize_content (Members.get?_set_self _ _ _)]
      exact hs
  | newPart message a b part h =>
      rw [messageSize_parts h, messageSize_parts (Members.get?_set_self _ _ _)]
      exact sum_insert_le partSize a b part
  | part message a b part part' h hp =>
      rw [messageSize_parts h, messageSize_parts (Members.get?_set_self _ _ _)]
      exact sum_replace_le hp.le a b

theorem countedLength_of_messages {messages : List Json} (h : messagesIn request = .list messages) :
    countedLength request = (messages.map messageSize).sum := by
  rw [countedLength, h]
  rfl

theorem messagesIn_set (request : Members) (messages : List Json) :
    messagesIn (request.set (str "messages") (.list messages)) = .list messages := by
  rw [messagesIn, Members.get?_set_self]
  rfl

theorem Grows.countedLength_le (h : Grows py request request') : countedLength request ≤ countedLength request' := by
  cases h with
  | newMessage a b message h =>
      rw [countedLength_of_messages h, countedLength_of_messages (messagesIn_set request _)]
      exact sum_insert_le messageSize a b message
  | message a b message message' h hm =>
      rw [countedLength_of_messages h, countedLength_of_messages (messagesIn_set request _)]
      exact sum_replace_le hm.le a b
  | tokens value n n' h h' hn =>
      have hsame : messagesIn (request.set (str "max_tokens") value) = messagesIn request := by
        rw [messagesIn, Members.get?_set_of_ne value (by decide)]
        rfl
      rw [countedLength, countedLength, hsame]

theorem Grows.maxTokens_le (h : Grows py request request') (hn : maxTokens py request = .ok n)
    (hn' : maxTokens py request' = .ok n') : n ≤ n' := by
  have hsame (messages : List Json) :
      maxTokens py (request.set (str "messages") (.list messages)) = maxTokens py request := by
    rw [maxTokens, Members.get?_set_of_ne _ (by decide)]
    rfl
  cases h with
  | newMessage a b message h =>
      rw [hsame, hn] at hn'
      exact Int.le_of_eq (Except.ok.inj hn')
  | message a b message message' h hm =>
      rw [hsame, hn] at hn'
      exact Int.le_of_eq (Except.ok.inj hn')
  | tokens value m m' h h' hm =>
      rw [h] at hn
      rw [h'] at hn'
      cases hn
      cases hn'
      exact hm

theorem estimateTokens_mono (hpos : 0 < config.charsPerToken) (hg : Grows py request request') {e e' : Int}
    (h : estimateTokens py config request = .ok e) (h' : estimateTokens py config request' = .ok e') : e ≤ e' := by
  obtain ⟨n, hn⟩ := maxTokens_of_estimate h
  obtain ⟨n', hn'⟩ := maxTokens_of_estimate h'
  rw [estimateTokens_eq hpos h hn, estimateTokens_eq hpos h' hn']
  have hcount : (countedLength request : ℚ) ≤ countedLength request' := Nat.cast_le.mpr hg.countedLength_le
  have hfloor : ⌊(countedLength request : ℚ) / config.charsPerToken⌋ ≤ ⌊(countedLength request' : ℚ) / config.charsPerToken⌋ :=
    Int.floor_le_floor (div_le_div_of_nonneg_right hcount hpos.le)
  exact max_le_max_right _ (Int.add_le_add hfloor (hg.maxTokens_le hn hn'))

/-- The estimate cannot be talked down exactly where max_tokens is not negative,
or where the minimum or values that are no texts make up for it. -/
theorem estimate_sound_iff (py : Builtins) (config : EstimateConfig) (request : Members)
    (hpos : 0 < config.charsPerToken) {e n : Int} (h : estimateTokens py config request = .ok e)
    (hn : maxTokens py request = .ok n) :
    (config.minimumReservation ≤ e ∧ ⌊(textLength request : ℚ) / config.charsPerToken⌋ + max 0 n ≤ e ∧
        ∀ request' e', Grows py request request' → estimateTokens py config request' = .ok e' → e ≤ e') ↔
      0 ≤ n ∨ ⌊(textLength request : ℚ) / config.charsPerToken⌋ ≤ config.minimumReservation ∨
        ⌊(textLength request : ℚ) / config.charsPerToken⌋ ≤ ⌊(countedLength request : ℚ) / config.charsPerToken⌋ + n := by
  have he := estimateTokens_eq hpos h hn
  have hlength : (textLength request : ℚ) ≤ countedLength request := Nat.cast_le.mpr (textLength_le request)
  have hfloor : ⌊(textLength request : ℚ) / config.charsPerToken⌋ ≤ ⌊(countedLength request : ℚ) / config.charsPerToken⌋ :=
    Int.floor_le_floor (div_le_div_of_nonneg_right hlength hpos.le)
  have hmono : ∀ request' e', Grows py request request' → estimateTokens py config request' = .ok e' → e ≤ e' :=
    fun request' e' hg h' => estimateTokens_mono hpos hg h h'
  rw [and_iff_left hmono, he]
  constructor
  · rintro ⟨-, hcover⟩
    omega
  · intro hcond
    exact ⟨le_max_right _ _, by omega⟩

/-- The built-in conversions for requests without floats and number texts. -/
def plainBuiltins : Builtins where
  json := ⟨fun _ => .error .jsonDecodeError, fun _ => .error .jsonDecodeError, fun _ => none⟩
  floatValue _ := .nan
  intOfText _ := none
  floatOfText _ := none

def defaultEstimate : EstimateConfig := ⟨4, 16⟩

def promptOf (length : Nat) (maxTokens : Int) : Members :=
  [(str "messages", .list [.dict [(str "content", .str (List.replicate length (chr 'a')))]]), (str "max_tokens", .int maxTokens)]

theorem estimate_sound_prompt :
    (⌊(textLength (promptOf 100 7) : ℚ) / defaultEstimate.charsPerToken⌋ + max 0 7 ≤ 32 ∧
      ∀ request' e', Grows plainBuiltins (promptOf 100 7) request' →
        estimateTokens plainBuiltins defaultEstimate request' = .ok e' → 32 ≤ e') := by
  obtain ⟨-, hcover, hmono⟩ := (estimate_sound_iff plainBuiltins defaultEstimate (promptOf 100 7) (e := 32) (n := 7)
    (by decide) (by decide +kernel) (by decide)).mpr (Or.inl (by decide))
  exact ⟨hcover, hmono⟩

/-- A negative max_tokens takes the tokens of the prompt away. -/
theorem estimate_talked_down :
    estimateTokens plainBuiltins defaultEstimate (promptOf 100 (-20)) = .ok 16 ∧
      ¬ ⌊(textLength (promptOf 100 (-20)) : ℚ) / defaultEstimate.charsPerToken⌋ + max 0 (-20) ≤ 16 := by
  refine ⟨by decide +kernel, ?_⟩
  have hlength : textLength (promptOf 100 (-20)) = 100 := by decide +kernel
  rw [hlength]
  norm_num [defaultEstimate]

end Growth

end LlmGateway.Router
