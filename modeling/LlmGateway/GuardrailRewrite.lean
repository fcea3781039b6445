import LlmGateway.GuardrailFrames

namespace LlmGateway.Guardrail

open Sse Redactor Utf8
open Json (Members Decoder)

variable {U : Unicode} {json : Decoder} {ls : List Text} {line : Text} {r : StreamingRedactor}
variable {frame payload : Members} {text s : Text}

section Rewriting

/-- The payload has the text, and all else that the frame has. -/
structure Rewritten (frame payload : Members) (s : Text) : Prop where
  text : deltaText payload = some s
  members : ∀ key, key ≠ str "choices" → payload.get? key = frame.get? key
  choices : ∃ (choice choice' delta delta' : Members) (rest : List Json),
    frame.get? (str "choices") = some (.list (.dict choice :: rest)) ∧
      payload.get? (str "choices") = some (.list (.dict choice' :: rest)) ∧
      (∀ key, key ≠ str "delta" → choice'.get? key = choice.get? key) ∧
      choice.get? (str "delta") = some (.dict delta) ∧ choice'.get? (str "delta") = some (.dict delta') ∧
      ∀ key, key ≠ str "content" → delta'.get? key = delta.get? key

theorem rewritten_withText (hd : deltaText frame = some text) (ho : ObjectChoices frame) (s : Text) :
    ∃ payload, withText json frame s = .ok payload ∧ Rewritten frame payload s := by
  obtain ⟨payload, hw⟩ := withText_of_objectChoices json hd ho s
  refine ⟨payload, hw, Inspected.deltaText_withText hw, ?_, ?_⟩
  all_goals
    obtain ⟨choice, rest, delta, hframe, hdelta⟩ := deltaText_eq_some hd
    obtain ⟨mss, rfl⟩ := dicts_of_forall fun v hv => ho _ hframe v (List.mem_cons_of_mem _ hv)
    rw [withText_eq hframe hdelta, mapM_dict] at hw
    cases hw
  · exact fun key hkey => Members.get?_set_of_ne _ hkey
  · exact ⟨choice, _, delta, _, _, hframe, Members.get?_set_self _ _ _, fun key hkey => Members.get?_set_of_ne _ hkey, hdelta,
      Members.get?_set_self _ _ _, fun key hkey => Members.get?_set_of_ne _ hkey⟩

/-- The choices come back as objects, whatever they were. -/
theorem objectChoices_of_rewritten (hd : deltaText frame = some text) (hw : withText json frame s = .ok payload)
    (h : Rewritten frame payload s) : ObjectChoices frame := by
  obtain ⟨choice, rest, delta, hframe, hdelta⟩ := deltaText_eq_some hd
  rw [withText_eq hframe hdelta] at hw
  cases hrest : rest.mapM (dictOf json) with
  | error e =>
      rw [hrest] at hw
      cases hw
  | ok others =>
      rw [hrest] at hw
      cases hw
      obtain ⟨_, _, _, _, _, hframe', hpayload, -⟩ := h.choices
      rw [Members.get?_set_self, Option.some.injEq, Json.list.injEq, List.cons.injEq] at hpayload
      rw [hframe, Option.some.injEq, Json.list.injEq, List.cons.injEq] at hframe'
      intro items hitems v hv
      rw [hframe, Option.some.injEq, Json.list.injEq] at hitems
      rw [← hitems] at hv
      rcases List.mem_cons.mp hv with rfl | hv
      · exact ⟨choice, rfl⟩
      · rw [hframe'.2, ← hpayload.2] at hv
        obtain ⟨ms, -, rfl⟩ := List.mem_map.mp hv
        exact ⟨ms, rfl⟩

theorem rewritten_iff (hd : deltaText frame = some text) (s : Text) :
    (∃ payload, withText json frame s = .ok payload ∧ Rewritten frame payload s) ↔ ObjectChoices frame := by
  constructor
  · rintro ⟨payload, hw, h⟩
    exact objectChoices_of_rewritten hd hw h
  · exact fun ho => rewritten_withText hd ho s

end Rewriting

section Failing

/-- dict() takes every choice of the frame. -/
def CopiedChoices (json : Decoder) (frame : Members) : Prop :=
  ∀ items, frame.get? (str "choices") = some (.list items) → ∀ v ∈ items, ∃ ms, dictOf json v = .ok ms

theorem mapM_eq_ok_iff {α β ε : Type} {f : α → Except ε β} {as : List α} :
    (∃ bs, as.mapM f = .ok bs) ↔ ∀ a ∈ as, ∃ b, f a = .ok b := by
  constructor
  · induction as with
    | nil => exact fun _ a ha => absurd ha List.not_mem_nil
    | cons a as ih =>
        rintro ⟨bs, h⟩
        rw [List.mapM_cons] at h
        cases ha : f a with
        | error e =>
            rw [ha] at h
            cases h
        | ok b =>
            cases has : as.mapM f with
            | error e =>
                rw [ha, has] at h
                cases h
            | ok bs => exact List.forall_mem_cons.mpr ⟨⟨b, ha⟩, ih ⟨bs, has⟩⟩
  · intro h
    obtain ⟨bs, hbs, -⟩ := mapM_ok h
    exact ⟨bs, hbs⟩

theorem rebuilds_iff_copied (hd : deltaText frame = some text) : Rebuilds json frame ↔ CopiedChoices json frame := by
  obtain ⟨choice, rest, delta, hframe, hdelta⟩ := deltaText_eq_some hd
  have hmap : Rebuilds json frame ↔ ∃ others, rest.mapM (dictOf json) = .ok others := by
    rw [Rebuilds, withText_eq hframe hdelta]
    cases rest.mapM (dictOf json) <;> simp [Except.map]
  rw [hmap, mapM_eq_ok_iff, CopiedChoices, hframe]
  constructor
  · intro h items hitems v hv
    cases hitems
    rcases List.mem_cons.mp hv with rfl | hv
    · exact ⟨choice, rfl⟩
    · exact h v hv
  · exact fun h v hv => h _ rfl v (List.mem_cons_of_mem _ hv)

variable (U json) in
/-- json.loads takes the line or refuses it as no JSON, and what the line
releases can be put back. -/
def Handled (r : StreamingRedactor) (line : Text) : Prop :=
  Decodes U json line ∧
    ∀ frame text, lineKind U json line = .content frame text → (r.feed U text).1 ≠ [] → CopiedChoices json frame

variable (U json) in
/-- Every line is handled up to the first that is refused. -/
def HandledAll : StreamingRedactor → List Text → Prop
  | _, [] => True
  | r, line :: ls => Handled U json r line ∧
      ((∀ exc, lineKind U json line ≠ .refused exc) → HandledAll (transformLine U json line r).redactor ls)

theorem mapM_error {α β ε : Type} {f : α → Except ε β} {as : List α} {e : ε} (h : as.mapM f = .error e) :
    ∃ a ∈ as, f a = .error e := by
  induction as with
  | nil => cases h
  | cons a as ih =>
      rw [List.mapM_cons] at h
      cases ha : f a with
      | error e' =>
          rw [ha] at h
          cases h
          exact ⟨a, List.mem_cons_self, ha⟩
      | ok b =>
          cases has : as.mapM f with
          | error e' =>
              rw [ha, has] at h
              cases h
              obtain ⟨a', ha', he⟩ := ih has
              exact ⟨a', List.mem_cons_of_mem _ ha', he⟩
          | ok bs =>
              rw [ha, has] at h
              cases h

/-- An exception of the language itself. -/
def Python (exc : Raised) : Prop := exc = .typeError ∨ exc = .valueError ∨ exc = .keyError ∨ exc = .indexError

theorem pairOf_error {item : Json} {exc : Raised} (h : pairOf item = .error exc) : Python exc := by
  rw [pairOf] at h
  split at h
  · cases h; exact Or.inl rfl
  · cases h; exact Or.inl rfl
  · cases h; exact Or.inl rfl
  · cases h
  · cases h; exact Or.inr (Or.inl rfl)

theorem dictOf_error {v : Json} {exc : Raised} (h : dictOf json v = .error exc) : Python exc := by
  rw [dictOf.eq_def] at h
  split at h
  · cases h
  split at h
  · cases h; exact Or.inl rfl
  split at h
  · next hm =>
      cases h
      obtain ⟨item, -, he⟩ := mapM_error hm
      exact pairOf_error he
  · cases h

theorem withText_python {exc : Raised} (h : withText json frame s = .error exc) : Python exc := by
  rw [withText] at h
  split at h
  · cases h; exact Or.inr (Or.inr (Or.inl rfl))
  split at h
  · cases h; exact Or.inl rfl
  split at h
  · next hm =>
      cases h
      obtain ⟨v, -, he⟩ := mapM_error hm
      exact dictOf_error he
  · cases h; exact Or.inr (Or.inr (Or.inr rfl))
  split at h
  · cases h
  · cases h; exact Or.inl rfl

theorem not_contained_of_python {exc : Raised} (h : Python exc) : ¬ Contained (some exc) := by
  intro hc
  obtain ⟨reason, rfl⟩ := hc exc rfl
  rcases h with h | h | h | h <;> cases h

theorem contained_none : Contained none := fun exc h => by cases h

theorem raised_of_handled (hs : scalar line) (h : Handled U json r line) (hn : ∀ exc, lineKind U json line ≠ .refused exc) :
    (transformLine U json line r).raised = none := by
  cases hk : lineKind U json line with
  | blank => rw [transformLine_blank hk]
  | passed stripped => rw [transformLine_passed hk hs]
  | done => rw [transformLine_done hk]
  | refused exc => exact absurd hk (hn exc)
  | bare frame => exact (transformLine_unfed hk).1
  | content frame text =>
      refine (transformLine_feeds hk fun frame' text' hk' hne => ?_).1
      exact (rebuilds_iff_copied (deltaText_of_content hk')).mpr (h.2 frame' text' hk' hne)

theorem contained_line_iff (hs : scalar line) : Contained (transformLine U json line r).raised ↔ Handled U json r line := by
  constructor
  · intro hc
    refine ⟨decodes_iff.mpr fun exc hk => hc exc (by simp only [transformLine, hk]), fun frame text hk hne => ?_⟩
    rw [← rebuilds_iff_copied (deltaText_of_content hk), ← rebuilds_iff json frame (r.feed U text).1]
    cases hw : withText json frame (r.feed U text).1 with
    | ok payload => exact ⟨payload, rfl⟩
    | error exc =>
        have hraised : (transformLine U json line r).raised = some exc := by
          simp only [transformLine, hk, if_neg hne, hw]
        exact absurd (hraised ▸ hc) (not_contained_of_python (withText_python hw))
  · intro h
    by_cases hn : ∀ exc, lineKind U json line ≠ .refused exc
    · rw [raised_of_handled hs h hn]
      exact contained_none
    · simp only [not_forall, not_not] at hn
      obtain ⟨exc, hk⟩ := hn
      simp only [transformLine, hk]
      intro exc' he
      cases he
      exact decodes_iff.mp h.1 exc hk

theorem contained_lines_iff (hs : ∀ line ∈ ls, scalar line) :
    Contained (transformLines U json ls r).raised ↔ HandledAll U json r ls := by
  induction ls generalizing r with
  | nil => exact iff_of_true contained_none trivial
  | cons line ls ih =>
      obtain ⟨hline, hs⟩ := List.forall_mem_cons.mp hs
      have hstep : Contained (transformLine U json line r).raised ↔ Handled U json r line := contained_line_iff hline
      rw [transformLines, HandledAll, ← hstep]
      cases hraised : (transformLine U json line r).raised with
      | none =>
          have hn : ∀ exc, lineKind U json line ≠ .refused exc := by
            intro exc hk
            simp only [transformLine, hk] at hraised
            cases hraised
          rw [and_iff_right contained_none]
          exact ⟨fun h _ => ih hs |>.mp h, fun h => (ih hs).mpr (h hn)⟩
      | some exc =>
          refine (and_iff_left_of_imp fun hc hn => ?_).symm
          rw [raised_of_handled hline (hstep.mp (hraised ▸ hc)) hn] at hraised
          cases hraised

theorem redactStream_raised (ending : Option Raised) (chunks : List Bytes) (r : StreamingRedactor) :
    (redactStream U json ending chunks r).raised =
      (transformLines U json (iterLines ending chunks).1 r).raised.or (iterLines ending chunks).2 := by
  rw [redactStream]
  dsimp only
  cases h : (transformLines U json (iterLines ending chunks).1 r).raised.or (iterLines ending chunks).2 with
  | some exc => rfl
  | none =>
      dsimp only
      split
      · exact (Option.or_eq_none_iff.mp h).1
      · rfl

theorem contained_iterLoop (pending : Text) (chunks : List Bytes) : Contained (iterLoop none pending chunks).2 := by
  induction chunks generalizing pending with
  | nil => exact contained_none
  | cons chunk chunks ih =>
      rw [iterLoop]
      dsimp only
      split
      · intro exc he
        cases he
        exact ⟨_, rfl⟩
      · exact ih _

theorem contained_stream_iff (chunks : List Bytes) (r : StreamingRedactor) :
    Contained (redactStream U json none chunks r).raised ↔ HandledAll U json r (iterLines none chunks).1 := by
  rw [redactStream_raised, ← contained_lines_iff (iterLines_scalar none chunks)]
  cases (transformLines U json (iterLines none chunks).1 r).raised with
  | none => exact iff_of_true (contained_iterLoop [] chunks) contained_none
  | some exc => exact Iff.rfl

/-- The failures that become an error event. -/
theorem proxyStreaming_ends_iff (config : GuardrailConfig) (requestId : Text) {status : Int} (hstatus : status < 400)
    (chunks : List Bytes) (ending : Option Raised) :
    (proxyStreaming U json config requestId (.response status (chunks, ending))).2 = none ↔
      ∀ exc, (redactStream U json ending chunks (newRedactor config)).raised = some exc →
        (∃ reason, exc = .malformedStream reason) ∨ exc = .httpError := by
  simp only [proxyStreaming, if_neg (Int.not_le.mpr hstatus)]
  cases (redactStream U json ending chunks (newRedactor config)).raised with
  | none => simp
  | some exc => cases exc <;> simp

/-- with_text touches only the text exactly where all choices are objects, and a
stream is contained exactly where json.loads takes or refuses every line as JSON
and dict() takes every choice of a frame whose text is released. -/
theorem rewrite_iff (U : Unicode) (json : Decoder) :
    (∀ frame text s, deltaText frame = some text →
      ((∃ payload, withText json frame s = .ok payload ∧ Rewritten frame payload s) ↔ ObjectChoices frame)) ∧
    (∀ chunks r, Contained (redactStream U json none chunks r).raised ↔ HandledAll U json r (iterLines none chunks).1) ∧
    ∀ config requestId status chunks ending, status < 400 →
      ((proxyStreaming U json config requestId (.response status (chunks, ending))).2 = none ↔
        ∀ exc, (redactStream U json ending chunks (newRedactor config)).raised = some exc →
          (∃ reason, exc = .malformedStream reason) ∨ exc = .httpError) := by
  refine ⟨fun frame text s hd => rewritten_iff hd s, contained_stream_iff, ?_⟩
  intro config requestId status chunks ending hstatus
  exact proxyStreaming_ends_iff config requestId hstatus chunks ending

/-- A content frame with a number for a second choice. -/
def numberedFrame : Members :=
  [(str "choices", .list [.dict [(str "delta", .dict [(str "content", .str (str "hi. "))])], .int 5])]

theorem rewrite_delta :
    ∃ payload, withText (knowing []) (deltaFrame (str "hi. ")) (str "ok") = .ok payload ∧
      Rewritten (deltaFrame (str "hi. ")) payload (str "ok") :=
  ((rewrite_iff .ascii (knowing [])).1 (deltaFrame (str "hi. ")) (str "hi. ") (str "ok") rfl).mpr
    (objectChoices_deltaFrame (str "hi. "))

/-- The number ends the stream without an error event. -/
theorem rewrite_breaks :
    deltaText numberedFrame = some (str "hi. ") ∧ withText (knowing []) numberedFrame (str "ok") = .error .typeError ∧
      (proxyStreaming .ascii (knowing [numberedFrame]) luhnConfig (str "id")
        (.response 200 (chunksOf [Emission.payloadText numberedFrame], none))).2 = some .typeError := by
  refine ⟨by decide +kernel, by rfl, by decide +kernel⟩

end Failing

end LlmGateway.Guardrail
