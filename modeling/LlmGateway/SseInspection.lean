import LlmGateway.SseClient

namespace LlmGateway.Sse

open Redactor Utf8
open Json (Members Decoder dumps)

variable {U : Unicode} {json : Decoder} {line : Text} {lines : List Text} {r : StreamingRedactor}
variable {frame payload : Members} {text : Text} {e : Emission}

section Kinds

theorem lineKind_spec (U : Unicode) (json : Decoder) (line : Text) : match lineKind U json line with
    | .passed stripped => stripped = rstripCr line
    | .bare frame => deltaText frame = none
    | .content frame text => deltaText frame = some text
    | .blank | .done | .refused _ => True := by
  generalize hk : lineKind U json line = kind
  rw [lineKind] at hk
  simp only at hk
  split at hk
  · subst hk; trivial
  split at hk
  · subst hk; rfl
  split at hk
  · subst hk; trivial
  split at hk
  · subst hk; trivial
  · split at hk
    · next hd => subst hk; exact hd
    · next hd => subst hk; exact hd
  · subst hk; trivial

theorem stripped_eq {stripped : Text} (h : lineKind U json line = .passed stripped) : stripped = rstripCr line := by
  have hs := lineKind_spec U json line
  rwa [h] at hs

theorem deltaText_of_bare (h : lineKind U json line = .bare frame) : deltaText frame = none := by
  have hs := lineKind_spec U json line
  rwa [h] at hs

theorem deltaText_of_content (h : lineKind U json line = .content frame text) : deltaText frame = some text := by
  have hs := lineKind_spec U json line
  rwa [h] at hs

end Kinds

section Payloads

/-- What json.loads is given for a line. -/
def loaded (U : Unicode) (line : Text) : Option Text :=
  let stripped := rstripCr line
  if dataPrefix.isPrefixOf stripped then
    let payload := U.strip (stripped.drop dataPrefix.length)
    if payload = done then none else some payload
  else none

/-- A data line that is neither [DONE] nor an object in JSON. -/
def Uninspectable (U : Unicode) (json : Decoder) (line : Text) : Prop :=
  ∃ payload, loaded U line = some payload ∧ ∀ frame, json.loads payload ≠ .ok (.dict frame)

/-- Where json.loads fails, it is for no JSON. -/
def Decodes (U : Unicode) (json : Decoder) (line : Text) : Prop :=
  ∀ payload, loaded U line = some payload → ∀ e, json.loads payload = .error e → e = .jsonDecodeError

theorem lineKind_of_loaded {payload : Text} (h : loaded U line = some payload) :
    lineKind U json line = match json.loads payload with
      | .error e => .refused (raisedBy e)
      | .ok (.dict frame) =>
        match deltaText frame with
        | none => .bare frame
        | some text => .content frame text
      | .ok _ => .refused (.malformedStream "upstream sent a data frame that is not an object") := by
  rw [loaded] at h
  dsimp only at h
  split at h
  · next hp =>
      split at h
      · cases h
      · next hd =>
          cases h
          have hne : rstripCr line ≠ [] := by
            rintro he
            rw [he] at hp
            exact absurd hp (by decide)
          rw [lineKind]
          dsimp only
          rw [if_neg hne, hp, if_neg (by decide)]
          exact if_neg hd
  · cases h

theorem loaded_of_refused {exc : Raised} (h : lineKind U json line = .refused exc) : ∃ payload, loaded U line = some payload := by
  rw [lineKind] at h
  dsimp only at h
  split at h
  · cases h
  split at h
  · cases h
  split at h
  · cases h
  next hp hd =>
    rw [Bool.not_eq_true, Bool.not_eq_false'] at hp
    refine ⟨U.strip ((rstripCr line).drop dataPrefix.length), ?_⟩
    rw [loaded]
    dsimp only
    rw [if_pos hp, if_neg hd]

theorem uninspectable_iff : Uninspectable U json line ↔ ∃ exc, lineKind U json line = .refused exc := by
  constructor
  · rintro ⟨payload, hp, hno⟩
    rw [lineKind_of_loaded hp]
    split
    · exact ⟨_, rfl⟩
    · next frame hok => exact absurd hok (hno frame)
    · exact ⟨_, rfl⟩
  · rintro ⟨exc, h⟩
    obtain ⟨payload, hp⟩ := loaded_of_refused h
    refine ⟨payload, hp, fun frame hok => ?_⟩
    rw [lineKind_of_loaded hp, hok] at h
    dsimp only at h
    split at h <;> cases h

theorem decodes_iff :
    Decodes U json line ↔ ∀ exc, lineKind U json line = .refused exc → ∃ reason, exc = .malformedStream reason := by
  constructor
  · intro h exc hk
    obtain ⟨payload, hp⟩ := loaded_of_refused hk
    rw [lineKind_of_loaded hp] at hk
    split at hk
    · next e he =>
        cases h payload hp e he
        cases hk
        exact ⟨_, rfl⟩
    · split at hk <;> cases hk
    · cases hk
      exact ⟨_, rfl⟩
  · intro h payload hp e he
    rw [lineKind_of_loaded hp, he] at h
    obtain ⟨reason, hr⟩ := h _ rfl
    cases e with
    | jsonDecodeError => rfl
    | unicodeDecodeError | valueError | recursionError => cases hr

end Payloads

section Calls

/-- A call of the redactor. -/
inductive Call
  | feed (text : Text)
  | flush
  deriving DecidableEq

def Call.perform (U : Unicode) (r : StreamingRedactor) : Call → Text × StreamingRedactor
  | feed text => r.feed U text
  | flush => r.flush U

/-- What the redactor answers to a series of calls. -/
def answers (U : Unicode) : StreamingRedactor → List Call → List Text
  | _, [] => []
  | r, call :: calls => (call.perform U r).1 :: answers U (call.perform U r).2 calls

/-- The call that a line leads to. -/
def callsOf (U : Unicode) (json : Decoder) (line : Text) : List Call :=
  match lineKind U json line with
  | .blank | .passed _ | .refused _ => []
  | .done => [.flush]
  | .bare frame => if isTerminal frame then [.flush] else []
  | .content _ text => [.feed text]

/-- The lines up to the one that fails the stream. -/
def handled (U : Unicode) (json : Decoder) : List Text → StreamingRedactor → List Text
  | [], _ => []
  | line :: lines, r =>
    let step := transformLine U json line r
    match step.raised with
    | some _ => [line]
    | none => line :: handled U json lines step.redactor

end Calls

/-- The frames that the guardrail may send after these lines, when the redactor
has given these outputs. -/
inductive Inspected (U : Unicode) (json : Decoder) (lines outputs : List Text) : Members → Prop
  | synthetic {text : Text} (output : text ∈ outputs) : Inspected U json lines outputs (syntheticDelta text)
  | bare {line : Text} {frame : Members} (mem : line ∈ lines) (parsed : lineKind U json line = .bare frame) :
      Inspected U json lines outputs frame
  | rewritten {line text safe : Text} {frame payload : Members} (mem : line ∈ lines)
      (parsed : lineKind U json line = .content frame text) (output : safe ∈ outputs)
      (rebuilt : withText json frame safe = .ok payload) : Inspected U json lines outputs payload

namespace Inspected

variable {lines' outputs outputs' : List Text}

theorem mono (h : Inspected U json lines outputs payload) (hl : ∀ l ∈ lines, l ∈ lines')
    (ho : ∀ o ∈ outputs, o ∈ outputs') : Inspected U json lines' outputs' payload := by
  cases h with
  | synthetic output => exact .synthetic (ho _ output)
  | bare mem parsed => exact .bare (hl _ mem) parsed
  | rewritten mem parsed output rebuilt => exact .rewritten (hl _ mem) parsed (ho _ output) rebuilt

theorem deltaText_syntheticDelta (text : Text) : deltaText (syntheticDelta text) = some text := by
  rfl

theorem deltaText_withText (h : withText json frame text = .ok payload) : deltaText payload = some text := by
  rw [withText] at h
  split at h
  · cases h
  split at h
  · cases h
  split at h
  · cases h
  · cases h
  split at h
  · cases h
    simp only [deltaText, firstChoice, Members.get?_set_self, Option.bind_some]
  · cases h

/-- Text in an inspected frame has come out of the redactor. -/
theorem deltaText_mem (h : Inspected U json lines outputs payload) (hd : deltaText payload = some text) :
    text ∈ outputs := by
  cases h with
  | synthetic output =>
      rw [deltaText_syntheticDelta] at hd
      exact Option.some.inj hd ▸ output
  | bare mem parsed => exact absurd (hd.symm.trans (deltaText_of_bare parsed)) (by simp)
  | rewritten mem parsed output rebuilt =>
      rw [deltaText_withText rebuilt] at hd
      exact Option.some.inj hd ▸ output

end Inspected

section Step

theorem transformLine_redactor : (transformLine U json line r).redactor =
    (callsOf U json line).foldl (fun r call => (call.perform U r).2) r := by
  rw [transformLine, callsOf]
  cases lineKind U json line with
  | blank | done | refused exc => rfl
  | passed stripped => simp only; split <;> rfl
  | bare frame => simp only; split <;> rfl
  | content frame text =>
      simp only
      split
      · rfl
      · split <;> rfl

theorem mem_released {tail : Text} (h : e ∈ released tail) : e = .frame (syntheticDelta tail) := by
  rw [released] at h
  split at h
  · exact absurd h List.not_mem_nil
  · exact List.mem_singleton.mp h

theorem transformLine_emissions (h : e ∈ (transformLine U json line r).emissions) :
    (∃ stripped, lineKind U json line = .passed stripped ∧ scalar stripped ∧ e = .passed stripped) ∨ e = .done ∨
      ∃ payload, e = .frame payload ∧ Inspected U json [line] (answers U r (callsOf U json line)) payload := by
  rw [transformLine] at h
  cases hk : lineKind U json line with
  | blank | refused exc => simp [hk] at h
  | passed stripped =>
      simp only [hk] at h
      split at h
      · next hs => exact Or.inl ⟨stripped, rfl, hs, List.mem_singleton.mp h⟩
      · exact absurd h List.not_mem_nil
  | done =>
      simp only [hk] at h
      rcases List.mem_append.mp h with h | h
      · refine Or.inr (Or.inr ⟨_, mem_released h, .synthetic ?_⟩)
        simp [callsOf, hk, answers, Call.perform]
      · exact Or.inr (Or.inl (List.mem_singleton.mp h))
  | bare frame =>
      simp only [hk] at h
      have hbare : Inspected U json [line] (answers U r (callsOf U json line)) frame :=
        .bare (List.mem_singleton.mpr rfl) hk
      split at h
      · next ht =>
          rcases List.mem_append.mp h with h | h
          · refine Or.inr (Or.inr ⟨_, mem_released h, .synthetic ?_⟩)
            simp [callsOf, hk, ht, answers, Call.perform]
          · exact Or.inr (Or.inr ⟨frame, List.mem_singleton.mp h, hbare⟩)
      · exact Or.inr (Or.inr ⟨frame, List.mem_singleton.mp h, hbare⟩)
  | content frame text =>
      simp only [hk] at h
      split at h
      · exact absurd h List.not_mem_nil
      · split at h
        · exact absurd h List.not_mem_nil
        · next rebuilt hr =>
            refine Or.inr (Or.inr ⟨rebuilt, List.mem_singleton.mp h, .rewritten (List.mem_singleton.mpr rfl) hk ?_ hr⟩)
            simp [callsOf, hk, answers, Call.perform]

end Step

section Run

theorem answers_append (r : StreamingRedactor) (a b : List Call) :
    answers U r (a ++ b) = answers U r a ++ answers U (a.foldl (fun r call => (call.perform U r).2) r) b := by
  induction a generalizing r with
  | nil => rfl
  | cons call a ih => rw [List.cons_append, answers, answers, ih, List.foldl_cons, List.cons_append]

theorem transformLines_emissions (h : e ∈ (transformLines U json lines r).emissions) :
    (∃ line ∈ handled U json lines r, ∃ stripped, lineKind U json line = .passed stripped ∧ scalar stripped ∧
      e = .passed stripped) ∨ e = .done ∨
    ∃ payload, e = .frame payload ∧ Inspected U json (handled U json lines r)
      (answers U r ((handled U json lines r).flatMap (callsOf U json))) payload := by
  induction lines generalizing r with
  | nil => exact absurd h List.not_mem_nil
  | cons line lines ih =>
      rw [transformLines] at h
      rw [handled]
      cases hr : (transformLine U json line r).raised with
      | some exc =>
          simp only [hr] at h ⊢
          rw [List.flatMap_singleton]
          rcases transformLine_emissions h with ⟨stripped, hp⟩ | hd | hf
          · exact Or.inl ⟨line, List.mem_singleton.mpr rfl, stripped, hp⟩
          · exact Or.inr (Or.inl hd)
          · exact Or.inr (Or.inr hf)
      | none =>
          simp only [hr] at h ⊢
          rw [List.flatMap_cons, answers_append, ← transformLine_redactor]
          rcases List.mem_append.mp h with h | h
          · rcases transformLine_emissions h with ⟨stripped, hp⟩ | hd | ⟨payload, he, hi⟩
            · exact Or.inl ⟨line, List.mem_cons_self, stripped, hp⟩
            · exact Or.inr (Or.inl hd)
            · exact Or.inr (Or.inr ⟨payload, he, hi.mono (fun l hl => List.mem_singleton.mp hl ▸ List.mem_cons_self)
                fun o ho => List.mem_append_left _ ho⟩)
          · rcases ih h with ⟨l, hl, hp⟩ | hd | ⟨payload, he, hi⟩
            · exact Or.inl ⟨l, List.mem_cons_of_mem _ hl, hp⟩
            · exact Or.inr (Or.inl hd)
            · exact Or.inr (Or.inr ⟨payload, he, hi.mono (fun l hl => List.mem_cons_of_mem _ hl)
                fun o ho => List.mem_append_right _ ho⟩)

theorem transformLines_redactor : (transformLines U json lines r).redactor =
    ((handled U json lines r).flatMap (callsOf U json)).foldl (fun r call => (call.perform U r).2) r := by
  induction lines generalizing r with
  | nil => rfl
  | cons line lines ih =>
      rw [transformLines, handled]
      cases hr : (transformLine U json line r).raised with
      | some exc => rw [List.flatMap_singleton]; exact transformLine_redactor
      | none =>
          simp only
          rw [List.flatMap_cons, List.foldl_append, ← transformLine_redactor]
          exact ih

theorem passed_mem {stripped : Text} (h : line ∈ handled U json lines r)
    (hk : lineKind U json line = .passed stripped) (hs : scalar stripped) :
    .passed stripped ∈ (transformLines U json lines r).emissions := by
  induction lines generalizing r with
  | nil => exact absurd h List.not_mem_nil
  | cons l lines ih =>
      have hstep : .passed stripped ∈ (transformLine U json line r).emissions := by
        simp [transformLine, hk, hs]
      rw [handled] at h
      rw [transformLines]
      cases hr : (transformLine U json l r).raised with
      | some exc =>
          simp only [hr] at h ⊢
          exact List.mem_singleton.mp h ▸ hstep
      | none =>
          simp only [hr] at h ⊢
          rcases List.mem_cons.mp h with rfl | h
          · exact List.mem_append_left _ hstep
          · exact List.mem_append_right _ (ih h)

theorem handled_isPrefix (lines : List Text) (r : StreamingRedactor) : handled U json lines r <+: lines := by
  induction lines generalizing r with
  | nil => exact List.prefix_rfl
  | cons l lines ih =>
      rw [handled]
      cases (transformLine U json l r).raised with
      | some exc => exact (List.prefix_cons_inj l).mpr List.nil_prefix
      | none => exact (List.prefix_cons_inj l).mpr (ih _)

theorem mem_of_mem_handled (h : line ∈ handled U json lines r) : line ∈ lines := (handled_isPrefix lines r).subset h

end Run

section Stream

variable {ending : Option Raised} {chunks : List Bytes}

/-- The lines that redact_stream handles. -/
def streamLines (U : Unicode) (json : Decoder) (ending : Option Raised) (chunks : List Bytes)
    (r : StreamingRedactor) : List Text := handled U json (iterLines ending chunks).1 r

/-- The calls of the redactor that redact_stream makes. -/
def streamCalls (U : Unicode) (json : Decoder) (ending : Option Raised) (chunks : List Bytes)
    (r : StreamingRedactor) : List Call :=
  let (lines, exc) := iterLines ending chunks
  let run := transformLines U json lines r
  (handled U json lines r).flatMap (callsOf U json) ++
    if (run.raised.or exc).isNone && !run.emissions.any Emission.isDone then [.flush] else []

/-- Each emission with the text that a client has of it. -/
def arrivals : List Emission → List (Emission × Text)
  | [] => []
  | e :: es => (e, dropMark e.text) :: es.map fun e => (e, e.text)

/-- Each data value with what it was sent in. -/
def extracted (es : List Emission) : List (Emission × Text) :=
  (arrivals es).flatMap fun p => (dataValues p.2).map fun v => (p.1, v)

/-- [DONE], or the JSON of a frame whose text, if it has any, the redactor has
put out. -/
def Legitimate (U : Unicode) (json : Decoder) (lines outputs : List Text) (e : Emission) (v : Text) : Prop :=
  v = done ∨ ∃ payload, e = .frame payload ∧ v = Emission.payloadText payload ∧
    Inspected U json lines outputs payload ∧ ∀ content, deltaText payload = some content → content ∈ outputs

/-- A line that goes to the client as it is has no data field but [DONE]. -/
def Harmless (U : Unicode) (json : Decoder) (decode : Text → Text) (line : Text) : Prop :=
  ∀ stripped, lineKind U json line = .passed stripped →
    ∀ v ∈ dataValues (decode (Emission.passed stripped).text), v = done

/-- The first line for which something is sent: before it are blank lines and
text that the redactor holds back. -/
def firstSent (U : Unicode) (json : Decoder) : List Text → StreamingRedactor → Option Text
  | [], _ => none
  | line :: lines, r =>
    match lineKind U json line with
    | .blank => firstSent U json lines r
    | .content _ text => if (r.feed U text).1 = [] then firstSent U json lines (r.feed U text).2 else some line
    | .passed _ | .done | .refused _ | .bare _ => some line

/-- The stream completes, or is refused as malformed. -/
def Contained (raised : Option Raised) : Prop := ∀ exc, raised = some exc → ∃ reason, exc = .malformedStream reason

theorem redactStream_emissions (h : e ∈ (redactStream U json ending chunks r).emissions) :
    (∃ line ∈ streamLines U json ending chunks r, ∃ stripped, lineKind U json line = .passed stripped ∧
      scalar stripped ∧ e = .passed stripped) ∨ e = .done ∨
    ∃ payload, e = .frame payload ∧ Inspected U json (streamLines U json ending chunks r)
      (answers U r (streamCalls U json ending chunks r)) payload := by
  have hlines : ∀ calls, e ∈ (transformLines U json (iterLines ending chunks).1 r).emissions →
      (∃ line ∈ streamLines U json ending chunks r, ∃ stripped, lineKind U json line = .passed stripped ∧
        scalar stripped ∧ e = .passed stripped) ∨ e = .done ∨
      ∃ payload, e = .frame payload ∧ Inspected U json (streamLines U json ending chunks r)
        (answers U r ((handled U json (iterLines ending chunks).1 r).flatMap (callsOf U json) ++ calls)) payload := by
    intro calls he
    refine (transformLines_emissions he).imp_right (Or.imp_right fun ⟨payload, hp, hi⟩ => ⟨payload, hp, ?_⟩)
    refine hi.mono (fun l hl => hl) fun o ho => ?_
    rw [answers_append]
    exact List.mem_append_left _ ho
  rw [redactStream] at h
  rw [streamCalls]
  simp only at h ⊢
  cases hexc : (transformLines U json (iterLines ending chunks).1 r).raised.or (iterLines ending chunks).2 with
  | some exc => simp only [hexc] at h; exact hlines _ h
  | none =>
      simp only [hexc] at h
      cases hdone : (transformLines U json (iterLines ending chunks).1 r).emissions.any Emission.isDone with
      | true => simp only [hdone, if_true] at h; exact hlines _ h
      | false =>
          simp only [hdone] at h
          rcases List.mem_append.mp h with h | h
          · exact hlines _ h
          · refine Or.inr (Or.inr ⟨_, mem_released h, .synthetic ?_⟩)
            rw [answers_append, ← transformLines_redactor]
            exact List.mem_append_right _ (List.mem_singleton.mpr rfl)

theorem passed_mem_stream {stripped : Text} (h : line ∈ streamLines U json ending chunks r)
    (hk : lineKind U json line = .passed stripped) (hs : scalar stripped) :
    .passed stripped ∈ (redactStream U json ending chunks r).emissions := by
  have hmem := passed_mem h hk hs
  rw [redactStream]
  simp only
  split
  · exact hmem
  · split
    · exact hmem
    · exact List.mem_append_left _ hmem

theorem mem_rstripCr {c : CodePoint} (h : c ∈ rstripCr line) : c ∈ line := by
  rw [rstripCr, List.mem_reverse] at h
  exact List.mem_reverse.mp ((List.dropWhile_sublist _).mem h)

theorem scalar_stripped {stripped : Text} (h : line ∈ streamLines U json ending chunks r)
    (hk : lineKind U json line = .passed stripped) : scalar stripped := by
  rw [stripped_eq hk]
  exact scalar_of_subset (iterLines_scalar ending chunks line (mem_of_mem_handled h)) fun c hc => mem_rstripCr hc

theorem scalar_append {t u : Text} (ht : scalar t) (hu : scalar u) : scalar (t ++ u) := by
  rw [scalar] at *
  rw [List.all_append, ht, hu]
  rfl

theorem scalar_emission (h : e ∈ (redactStream U json ending chunks r).emissions) : scalar e.text := by
  rcases redactStream_emissions h with ⟨-, -, stripped, -, hs, rfl⟩ | rfl | ⟨payload, rfl, -⟩
  · exact scalar_append hs (by decide)
  · decide
  · exact scalar_append (scalar_append (by decide) (Json.scalar_of_printed (printed_payloadText payload))) (by decide)

theorem map_snd_arrivals (es : List Emission) : (arrivals es).map Prod.snd = unmarked (es.map Emission.text) := by
  cases es with
  | nil => rfl
  | cons e es =>
      rw [arrivals, List.map_cons, List.map_map]
      rfl

theorem map_snd_extracted (es : List Emission) :
    (extracted es).map Prod.snd = (unmarked (es.map Emission.text)).flatMap dataValues := by
  rw [extracted, ← map_snd_arrivals, List.map_flatMap, List.flatMap_map]
  congr 1
  funext p
  rw [List.map_map]
  exact List.map_id _

theorem mem_extracted_iff {es : List Emission} {v : Text} :
    (e, v) ∈ extracted es ↔ ∃ t, (e, t) ∈ arrivals es ∧ v ∈ dataValues t := by
  simp [extracted]

theorem mem_extracted {es : List Emission} {v : Text} (he : e ∈ es) (hv : v ∈ dataValues e.text) : (e, v) ∈ extracted es := by
  rw [mem_extracted_iff]
  cases es with
  | nil => exact absurd he List.not_mem_nil
  | cons first es =>
      rcases List.mem_cons.mp he with rfl | he
      · exact ⟨_, List.mem_cons_self, mem_dataValues_dropMark hv⟩
      · exact ⟨_, List.mem_cons_of_mem _ (List.mem_map.mpr ⟨e, he, rfl⟩), hv⟩

theorem mem_extracted_head {es : List Emission} {v : Text} (he : es.head? = some e) (hv : v ∈ dataValues (dropMark e.text)) :
    (e, v) ∈ extracted es := by
  rw [mem_extracted_iff]
  cases es with
  | nil => cases he
  | cons first es =>
      cases he
      exact ⟨_, List.mem_cons_self, hv⟩

theorem of_mem_extracted {es : List Emission} {v : Text} (h : (e, v) ∈ extracted es) :
    e ∈ es ∧ v ∈ dataValues e.text ∨ es.head? = some e ∧ v ∈ dataValues (dropMark e.text) := by
  obtain ⟨t, ht, hv⟩ := mem_extracted_iff.mp h
  cases es with
  | nil => exact absurd ht List.not_mem_nil
  | cons first es =>
      rcases List.mem_cons.mp ht with he | ht
      · cases he
        exact Or.inr ⟨rfl, hv⟩
      · obtain ⟨e', he', heq⟩ := List.mem_map.mp ht
        cases heq
        exact Or.inl ⟨List.mem_cons_of_mem _ he', hv⟩

theorem head?_transformLine {stripped : Text} (hs : scalar line) :
    (transformLine U json line r).emissions.head? = some (.passed stripped) ↔ lineKind U json line = .passed stripped := by
  have hreleased (tail : Text) (e : Emission) (he : e ≠ .passed stripped) :
      (released tail ++ [e]).head? ≠ some (.passed stripped) := by
    rw [released]
    split
    · exact fun h => he (Option.some.inj h)
    · exact fun h => by cases h
  rw [transformLine]
  cases hk : lineKind U json line with
  | blank | refused exc => simp
  | passed t =>
      have ht : scalar t = true := stripped_eq hk ▸ scalar_of_subset hs fun _ hc => mem_rstripCr hc
      simp [ht]
  | done => exact iff_of_false (hreleased _ _ fun h => by cases h) fun h => by cases h
  | bare frame =>
      refine iff_of_false ?_ fun h => by cases h
      dsimp only
      split
      · exact hreleased _ _ fun h => by cases h
      · exact fun h => by cases h
  | content frame text =>
      refine iff_of_false ?_ fun h => by cases h
      dsimp only
      split
      · exact fun h => by cases h
      · split <;> exact fun h => by cases h

theorem released_append_ne_nil (tail : Text) (e : Emission) : released tail ++ [e] ≠ [] :=
  List.append_ne_nil_of_right_ne_nil _ (List.cons_ne_nil e [])

theorem firstSent_cons (hs : scalar line) : firstSent U json (line :: lines) r =
    if (transformLine U json line r).emissions = [] ∧ (transformLine U json line r).raised = none then
      firstSent U json lines (transformLine U json line r).redactor
    else some line := by
  rw [firstSent, transformLine]
  cases hk : lineKind U json line with
  | blank | refused exc => rfl
  | passed t =>
      have ht : scalar t = true := stripped_eq hk ▸ scalar_of_subset hs fun _ hc => mem_rstripCr hc
      simp [ht]
  | done => exact (if_neg fun h => released_append_ne_nil _ _ h.1).symm
  | bare frame =>
      dsimp only
      split
      · exact (if_neg fun h => released_append_ne_nil _ _ h.1).symm
      · exact (if_neg fun h => List.cons_ne_nil _ _ h.1).symm
  | content frame text =>
      dsimp only
      split
      · rfl
      · split
        · exact (if_neg fun h => Option.some_ne_none _ h.2).symm
        · exact (if_neg fun h => List.cons_ne_nil _ _ h.1).symm

/-- What a client has first is a line that passes exactly if that line is the
first for which something is sent. -/
theorem head?_transformLines {stripped : Text} (hs : ∀ l ∈ lines, scalar l) :
    (transformLines U json lines r).emissions.head? = some (.passed stripped) ↔
      ∃ line, firstSent U json lines r = some line ∧ lineKind U json line = .passed stripped := by
  induction lines generalizing r with
  | nil => simp [transformLines, firstSent]
  | cons line lines ih =>
      obtain ⟨hline, hlines⟩ := List.forall_mem_cons.mp hs
      have hhead := @head?_transformLine U json line r stripped hline
      rw [firstSent_cons hline, transformLines]
      dsimp only
      cases hraised : (transformLine U json line r).raised with
      | some exc =>
          rw [if_neg fun h => Option.some_ne_none _ h.2]
          simpa using hhead
      | none =>
          by_cases hempty : (transformLine U json line r).emissions = []
          · rw [if_pos ⟨hempty, rfl⟩, ← ih hlines, hempty]
            rfl
          · rw [if_neg fun h => hempty h.1]
            dsimp only
            rw [List.head?_append_of_ne_nil _ hempty]
            simpa using hhead

theorem head?_redactStream {stripped : Text} :
    (redactStream U json ending chunks r).emissions.head? = some (.passed stripped) ↔
      ∃ line, firstSent U json (iterLines ending chunks).1 r = some line ∧ lineKind U json line = .passed stripped := by
  rw [← head?_transformLines (iterLines_scalar ending chunks), redactStream]
  dsimp only
  split
  · rfl
  · split
    · rfl
    · cases (transformLines U json (iterLines ending chunks).1 r).emissions with
      | nil =>
          rw [List.nil_append, released]
          split <;> simp
      | cons e es => rfl

theorem legitimate_iff : (∀ p ∈ extracted (redactStream U json ending chunks r).emissions,
      Legitimate U json (streamLines U json ending chunks r)
        (answers U r (streamCalls U json ending chunks r)) p.1 p.2) ↔
    (∀ line ∈ streamLines U json ending chunks r, Harmless U json id line) ∧
      ∀ line, firstSent U json (iterLines ending chunks).1 r = some line → Harmless U json dropMark line := by
  constructor
  · intro h
    have hdone {stripped v : Text} (hv : (.passed stripped, v) ∈ extracted (redactStream U json ending chunks r).emissions) :
        v = done := by
      rcases h _ hv with hd | ⟨payload, he, -⟩
      · exact hd
      · cases he
    refine ⟨fun line hline stripped hk v hv => ?_, fun line hline stripped hk v hv => ?_⟩
    · exact hdone (mem_extracted (passed_mem_stream hline hk (scalar_stripped hline hk)) hv)
    · exact hdone (mem_extracted_head (head?_redactStream.mpr ⟨line, hline, hk⟩) hv)
  · rintro ⟨h, hfirst⟩ ⟨e, v⟩ hp
    have hframe {payload : Members} (he : .frame payload ∈ (redactStream U json ending chunks r).emissions)
        (hv : v = Emission.payloadText payload) : Legitimate U json (streamLines U json ending chunks r)
          (answers U r (streamCalls U json ending chunks r)) (.frame payload) v := by
      rcases redactStream_emissions he with ⟨-, -, stripped, -, -, hno⟩ | hno | ⟨payload', heq, hi⟩
      · cases hno
      · cases hno
      · cases heq
        exact Or.inr ⟨payload, rfl, hv, hi, fun content => hi.deltaText_mem⟩
    rcases of_mem_extracted hp with ⟨he, hv⟩ | ⟨he, hv⟩
    · cases e with
      | passed t =>
          rcases redactStream_emissions he with ⟨line, hline, stripped, hk, -, heq⟩ | hno | ⟨payload, hno, -⟩
          · cases heq
            exact Or.inl (h line hline t hk v hv)
          · cases hno
          · cases hno
      | done =>
          rw [dataValues_done] at hv
          exact Or.inl (List.mem_singleton.mp hv)
      | frame payload =>
          rw [dataValues_frame] at hv
          exact hframe he (List.mem_singleton.mp hv)
    · cases e with
      | passed t =>
          obtain ⟨line, hline, hk⟩ := head?_redactStream.mp he
          exact Or.inl (hfirst line hline t hk v hv)
      | done =>
          rw [dropMark_done, dataValues_done] at hv
          exact Or.inl (List.mem_singleton.mp hv)
      | frame payload =>
          rw [dropMark_frame, dataValues_frame] at hv
          exact hframe (List.mem_of_mem_head? he) (List.mem_singleton.mp hv)

theorem raised_transformLines {exc : Raised} (h : line ∈ handled U json lines r) (hk : lineKind U json line = .refused exc) :
    (transformLines U json lines r).raised = some exc := by
  induction lines generalizing r with
  | nil => exact absurd h List.not_mem_nil
  | cons l lines ih =>
      rw [handled] at h
      rw [transformLines]
      cases hr : (transformLine U json l r).raised with
      | some exc' =>
          simp only [hr] at h ⊢
          rw [← List.mem_singleton.mp h] at hr
          simpa only [transformLine, hk, Option.some.injEq, eq_comm] using hr
      | none =>
          simp only [hr] at h ⊢
          rcases List.mem_cons.mp h with rfl | h
          · simp [transformLine, hk] at hr
          · exact ih h

/-- A line that is refused ends the stream. -/
theorem raised_of_refused {exc : Raised} (h : line ∈ streamLines U json ending chunks r)
    (hk : lineKind U json line = .refused exc) : (redactStream U json ending chunks r).raised = some exc := by
  rw [redactStream]
  dsimp only
  rw [raised_transformLines h hk, Option.some_or]

theorem contained_iff_decodes : (∀ line ∈ streamLines U json ending chunks r,
      Uninspectable U json line → Contained (redactStream U json ending chunks r).raised) ↔
    ∀ line ∈ streamLines U json ending chunks r, Decodes U json line := by
  refine forall₂_congr fun line hline => ?_
  rw [uninspectable_iff, decodes_iff]
  constructor
  · intro h exc hk
    exact h ⟨exc, hk⟩ exc (raised_of_refused hline hk)
  · rintro h ⟨exc, hk⟩ exc' hr
    rw [raised_of_refused hline hk, Option.some.injEq] at hr
    exact hr ▸ h exc hk

/-- What a client extracts from the bytes is what was sent in each emission. All
of it has been inspected, and what cannot be is refused, exactly when the lines
that pass are harmless and json.loads fails for no JSON only. -/
theorem redactStream_inspected_iff (U : Unicode) (json : Decoder) (ending : Option Raised)
    (chunks : List Bytes) (r : StreamingRedactor) :
    ∃ x, wire ((redactStream U json ending chunks r).emissions.map Emission.text) = some x ∧
      clientValues x = (extracted (redactStream U json ending chunks r).emissions).map Prod.snd ∧
      ((∀ p ∈ extracted (redactStream U json ending chunks r).emissions,
          Legitimate U json (streamLines U json ending chunks r)
            (answers U r (streamCalls U json ending chunks r)) p.1 p.2) ∧
        (∀ line ∈ streamLines U json ending chunks r,
          Uninspectable U json line → Contained (redactStream U json ending chunks r).raised) ↔
        ((∀ line ∈ streamLines U json ending chunks r, Harmless U json id line) ∧
          ∀ line, firstSent U json (iterLines ending chunks).1 r = some line → Harmless U json dropMark line) ∧
        ∀ line ∈ streamLines U json ending chunks r, Decodes U json line) := by
  obtain ⟨x, hx, hd⟩ := wire_emissions (redactStream U json ending chunks r).emissions fun e he => scalar_emission he
  refine ⟨x, hx, ?_, and_congr legitimate_iff contained_iff_decodes⟩
  rw [clientValues, hd, dataValues_flatten unmarked_whole, map_snd_extracted]

def rejecting : Decoder where
  parse _ := .error .jsonDecodeError
  parseBytes _ := .error .jsonDecodeError
  integral _ := none

/-- A data line without the space after its colon. -/
def unspaced : Bytes := asciiBytes (str "data:jo@ex.org\n")

theorem redactStream_unspaced :
    ∃ x, wire ((redactStream .ascii rejecting none [unspaced] (.init none false)).emissions.map Emission.text) = some x ∧
      str "jo@ex.org" ∈ clientValues x ∧ str "jo@ex.org" ≠ done ∧
      ∀ payload, str "jo@ex.org" ≠ Emission.payloadText payload := by
  refine ⟨asciiBytes (str "data:jo@ex.org\n\n"), by decide, by decide, by decide, ?_⟩
  intro payload h
  rw [Emission.payloadText, dumps] at h
  exact absurd (List.cons_eq_cons.mp h).1 (by decide)

/-- A mark hides the name of the field from transform_line, but not from a client. -/
example : dataValues (dropMark (Emission.passed (byteOrderMark :: str "data: jo@ex.org")).text) = [str "jo@ex.org"] := by decide

end Stream

end LlmGateway.Sse
