import LlmGateway.GuardrailRewrite
import LlmGateway.SseEvents

namespace LlmGateway.Guardrail

open Sse Splitting Utf8
open Json (Members Decoder dumps defaultSeparators Printed)

variable {U : Unicode} {json : Decoder} {config : GuardrailConfig} {requestId : Text} {t u : Text} {es : List Emission}

section Framing

/-- What a client dispatches for a text that comes after a blank line. -/
def eventsOf (t : Text) : List Dispatched := (listen .empty (clientLines t)).1

theorem clientLines_append (t u : Text) : clientLines (t ++ str "\n\n" ++ u) = clientLines (t ++ str "\n\n") ++ clientLines u := by
  have hend : t ++ str "\n\n" = (t ++ [lf]) ++ [lf] := by
    rw [List.append_assoc]
    rfl
  have hsplit : t ++ str "\n\n" ++ u = (t ++ [lf]) ++ lf :: u := by
    rw [hend, List.append_assoc]
    rfl
  rw [clientLines, hsplit, pieces_normalise_append, hend]
  rfl

/-- After a blank line nothing is pending. -/
theorem listen_framed (p : Pending) (t : Text) : (listen p (clientLines (t ++ str "\n\n"))).2 = .empty := by
  have hsplit : clientLines (t ++ str "\n\n") = clientLines (t ++ [lf]) ++ [[]] := by
    have hend : t ++ str "\n\n" = t ++ lf :: [lf] := rfl
    rw [clientLines, hend, pieces_normalise_append]
    rfl
  rw [hsplit, listen_append]
  rfl

theorem eventsOf_append (t u : Text) : eventsOf (t ++ str "\n\n" ++ u) = eventsOf (t ++ str "\n\n") ++ eventsOf u := by
  rw [eventsOf, clientLines_append, listen_append, listen_framed]
  rfl

theorem eventsOf_flatten {ts : List Text} (h : ∀ t ∈ ts, ∃ u, t = u ++ str "\n\n") : eventsOf ts.flatten = ts.flatMap eventsOf := by
  induction ts with
  | nil => rfl
  | cons t ts ih =>
      obtain ⟨⟨u, rfl⟩, hts⟩ := List.forall_mem_cons.mp h
      rw [List.flatten_cons, eventsOf_append, ih hts, List.flatMap_cons]

theorem framed_text (s : Sent) : ∃ u, s.text = u ++ str "\n\n" := by
  cases s with
  | emission e => cases e <;> exact ⟨_, rfl⟩
  | error envelope => exact ⟨_, rfl⟩

theorem dropMark_framed (t : Text) : dropMark (t ++ str "\n\n") = dropMark t ++ str "\n\n" := by
  cases t with
  | nil => rfl
  | cons c t => exact dropMark_append (List.cons_ne_nil c t) _

/-- No piece of the stream changes what a client hears of another one. -/
theorem clientEvents_sent {sent : List Sent} (h : ∀ s ∈ sent, scalar s.text) :
    ∃ x, wire (sent.map Sent.text) = some x ∧ clientEvents x = (unmarked (sent.map Sent.text)).flatMap eventsOf := by
  obtain ⟨x, hx, hd⟩ := wire_of_scalar (sent.map Sent.text) (List.forall_mem_map.mpr h)
  have hne : ∀ t ∈ sent.map Sent.text, t ≠ [] := by
    refine List.forall_mem_map.mpr fun s _ => ?_
    obtain ⟨u, hu⟩ := framed_text s
    rw [hu]
    exact List.append_ne_nil_of_right_ne_nil u (by decide)
  refine ⟨x, hx, ?_⟩
  rw [clientEvents, clientDecode, hd, dropMark_flatten hne, ← eventsOf, eventsOf_flatten]
  intro t ht
  obtain ⟨u, hu, hmark⟩ := mem_unmarked ht
  obtain ⟨s, -, rfl⟩ := List.mem_map.mp hu
  obtain ⟨u, hu⟩ := framed_text s
  rcases hmark with rfl | rfl
  · exact ⟨u, hu⟩
  · exact ⟨dropMark u, by rw [hu, dropMark_framed]⟩

end Framing

section Lines

theorem not_mem_pieces {l : Text} (h : l ∈ pieces lf t) : lf ∉ l := by
  induction t using inductionOn lf with
  | last t ht =>
      rw [(of_not_mem ht).1] at h
      cases h
  | first k t hk ih =>
      rw [(append_cons hk t).1] at h
      rcases List.mem_cons.mp h with rfl | h
      · exact hk
      · exact ih h

theorem iterLoop_lines_whole (ending : Option Raised) (pending : Text) (chunks : List Bytes) (hp : lf ∉ pending) :
    ∀ l ∈ (iterLoop ending pending chunks).1, lf ∉ l := by
  induction chunks generalizing pending with
  | nil =>
      intro l hl
      cases ending with
      | some exc => cases hl
      | none =>
          simp only [iterLoop] at hl
          split at hl
          · cases hl
          · rwa [List.mem_singleton.mp hl]
  | cons chunk chunks ih =>
      rw [iterLoop]
      simp only
      split
      · exact fun l hl => absurd hl List.not_mem_nil
      · rw [drain_eq _ _ (Nat.le_refl _)]
        intro l hl
        rcases List.mem_append.mp hl with hl | hl
        · exact not_mem_pieces hl
        · exact ih _ (not_mem_rest _) l hl

end Lines

section Own

/-- The event that tells a client of a failure. -/
def errorEvent (requestId : Text) : Dispatched :=
  ⟨str "error", dumps defaultSeparators (GatewayError.toResponse ⟨.upstreamUnavailable, requestId, none⟩)⟩

theorem printed_envelope (envelope : Json) : Printed (dumps defaultSeparators envelope) := Json.printed_dumps Json.printed_default _

theorem eventsOf_error (envelope : Json) : eventsOf (Sent.error envelope).text = [⟨str "error", dumps defaultSeparators envelope⟩] := by
  have hv := not_mem_of_printed (printed_envelope envelope)
  have hlines (v : Text) (h : lf ∉ v ∧ cr ∉ v) :
      clientLines (str "event: error\ndata: " ++ v ++ str "\n\n") = [str "event: error", dataPrefix ++ v, []] := by
    have hcr : cr ∉ str "event: error\ndata: " ++ v ++ str "\n\n" := by
      simp only [List.mem_append, not_or]
      exact ⟨⟨by decide, h.2⟩, by decide⟩
    have hlf : lf ∉ dataPrefix ++ v := by
      rw [List.mem_append, not_or]
      exact ⟨by decide, h.1⟩
    have hsplit : str "event: error\ndata: " ++ v ++ str "\n\n" = str "event: error" ++ lf :: ((dataPrefix ++ v) ++ lf :: [lf]) := by
      rw [List.append_assoc, List.append_assoc]
      rfl
    rw [clientLines, normalise_of_not_mem hcr, hsplit, (append_cons (by decide) _).1, (append_cons hlf _).1]
    rfl
  rw [eventsOf, Sent.text, hlines _ hv]
  exact congrArg Prod.fst (listen_data (str "error") _)

theorem eventsOf_frame (payload : Members) : eventsOf (Emission.frame payload).text = [⟨defaultType, Emission.payloadText payload⟩] :=
  congrArg Prod.fst (listen_emission (.frame payload) fun t ht => by cases ht)

theorem eventsOf_done : eventsOf Emission.done.text = [⟨defaultType, done⟩] :=
  congrArg Prod.fst (listen_emission .done fun t ht => by cases ht)

/-- A line that passes names no event of its own unless it has a bare CR in it. -/
theorem eventsOf_passed (hlf : lf ∉ t) (hcr : cr ∉ t) {e : Dispatched} (he : e ∈ eventsOf (Emission.passed t).text) :
    e.type = defaultType := by
  have hlines : clientLines (Emission.passed t).text = [t, []] := pieces_blankLine hlf hcr
  rw [eventsOf, hlines] at he
  cases t with
  | nil => cases he
  | cons c t =>
      have hlisten : (listen .empty [c :: t, []]).1 = (Pending.empty.field (c :: t)).dispatch ++ [] := rfl
      rw [hlisten, List.append_nil, Pending.field] at he
      dsimp only at he
      by_cases hevent : (partition (c :: t) (chr ':')).1 = str "event"
      · rw [if_pos hevent] at he
        cases he
      rw [if_neg hevent] at he
      by_cases hdata : (partition (c :: t) (chr ':')).1 = str "data"
      · rw [if_pos hdata, Pending.dispatch] at he
        split at he
        · cases he
        · rw [List.mem_singleton.mp he]
          rfl
      · rw [if_neg hdata] at he
        cases he

end Own

section Failure

variable (U json config) in
/-- The guardrail ends the stream with an error event. -/
def fails (reply : Reply (List Bytes × Option Raised)) : Bool :=
  match reply with
  | .failed => true
  | .response status (chunks, ending) =>
    400 ≤ status ||
      match (redactStream U json ending chunks (newRedactor config)).raised with
      | some (.malformedStream _) | some .httpError => true
      | _ => false

variable (U json config) in
/-- What redact_stream emits for a reply. -/
def emissionsFor (reply : Reply (List Bytes × Option Raised)) : List Emission :=
  match reply with
  | .failed => []
  | .response status (chunks, ending) =>
    if 400 ≤ status then [] else (redactStream U json ending chunks (newRedactor config)).emissions

variable (U json config) in
/-- The lines that are passed on have no CR in them. -/
def WholeLines (reply : Reply (List Bytes × Option Raised)) : Prop :=
  ∀ t, .passed t ∈ emissionsFor U json config reply → cr ∉ t

variable {reply : Reply (List Bytes × Option Raised)}

theorem proxyStreaming_eq (reply : Reply (List Bytes × Option Raised)) : (proxyStreaming U json config requestId reply).1 =
    (emissionsFor U json config reply).map .emission ++
      (if fails U json config reply then [errorFrame requestId .upstreamUnavailable] else []) := by
  cases reply with
  | failed => rfl
  | response status body =>
      obtain ⟨chunks, ending⟩ := body
      simp only [proxyStreaming, fails, emissionsFor, ge_iff_le]
      by_cases hstatus : 400 ≤ status
      · simp [hstatus]
      · simp only [hstatus, if_false, decide_false, Bool.false_or]
        cases (redactStream U json ending chunks (newRedactor config)).raised with
        | none => simp
        | some exc => cases exc <;> simp

theorem scalar_sent (reply : Reply (List Bytes × Option Raised)) {s : Sent}
    (hs : s ∈ (proxyStreaming U json config requestId reply).1) : scalar s.text := by
  rw [proxyStreaming_eq, List.mem_append, List.mem_map] at hs
  rcases hs with ⟨e, he, rfl⟩ | hs
  · cases reply with
    | failed => cases he
    | response status body =>
        rw [emissionsFor] at he
        split at he
        · cases he
        · exact scalar_emission he
  · split at hs
    · rw [List.mem_singleton.mp hs]
      have henvelope := Json.scalar_of_printed (printed_envelope (GatewayError.toResponse ⟨.upstreamUnavailable, requestId, none⟩))
      exact scalar_append (scalar_append (by decide) henvelope) (by decide)
    · cases hs

theorem lf_not_mem_passed (h : .passed t ∈ emissionsFor U json config reply) : lf ∉ t := by
  cases reply with
  | failed => cases h
  | response status body =>
      obtain ⟨chunks, ending⟩ := body
      rw [emissionsFor] at h
      split at h
      · cases h
      · rcases redactStream_emissions h with ⟨line, hline, stripped, hk, -, heq⟩ | hno | ⟨payload, hno, -⟩
        · cases heq
          have hlf := iterLoop_lines_whole ending [] chunks List.not_mem_nil line (mem_of_mem_handled hline)
          rw [stripped_eq hk]
          exact fun hm => hlf (mem_rstripCr hm)
        · cases hno
        · cases hno

theorem mem_of_mem_dropMark {c : CodePoint} (h : c ∈ dropMark t) : c ∈ t := by
  cases t with
  | nil => exact h
  | cons d t =>
      rw [dropMark] at h
      split at h
      · exact List.mem_cons_of_mem d h
      · exact h

/-- With or without the mark an emission is a message. -/
theorem type_of_emission (hwhole : WholeLines U json config reply) {e : Emission} (he : e ∈ emissionsFor U json config reply)
    (hu : u = e.text ∨ u = dropMark e.text) {d : Dispatched} (hd : d ∈ eventsOf u) : d.type = defaultType := by
  cases e with
  | passed t =>
      have hlf := lf_not_mem_passed he
      have hcr := hwhole t he
      rcases hu with rfl | rfl
      · exact eventsOf_passed hlf hcr hd
      · rw [Emission.text, dropMark_framed] at hd
        exact eventsOf_passed (fun h => hlf (mem_of_mem_dropMark h)) (fun h => hcr (mem_of_mem_dropMark h)) hd
  | done =>
      rw [dropMark_done, or_self] at hu
      rw [hu, eventsOf_done] at hd
      rw [List.mem_singleton.mp hd]
  | frame payload =>
      rw [dropMark_frame, or_self] at hu
      rw [hu, eventsOf_frame] at hd
      rw [List.mem_singleton.mp hd]

/-- A client hears of a failure by one event, which is the last one, and where
no line that passes has a CR in it nothing else can be taken for that event. -/
theorem own_events (U : Unicode) (json : Decoder) (config : GuardrailConfig) (requestId : Text)
    (reply : Reply (List Bytes × Option Raised)) :
    ∃ x, wire ((proxyStreaming U json config requestId reply).1.map Sent.text) = some x ∧
      (fails U json config reply → ∃ events, clientEvents x = events ++ [errorEvent requestId]) ∧
      (WholeLines U json config reply → (clientEvents x).filter (fun e => e.type ≠ defaultType) =
        if fails U json config reply then [errorEvent requestId] else []) := by
  obtain ⟨x, hx, hevents⟩ := @clientEvents_sent (proxyStreaming U json config requestId reply).1 fun s hs => scalar_sent reply hs
  have hmessages (hwhole : WholeLines U json config reply) :
      ((unmarked ((emissionsFor U json config reply).map Emission.text)).flatMap eventsOf).filter
        (fun e => e.type ≠ defaultType) = [] := by
    rw [List.filter_eq_nil_iff]
    intro d hd
    obtain ⟨t, ht, hd⟩ := List.mem_flatMap.mp hd
    obtain ⟨u, hu, hmark⟩ := mem_unmarked ht
    obtain ⟨e, he, rfl⟩ := List.mem_map.mp hu
    simpa using type_of_emission hwhole he hmark hd
  have htexts : (proxyStreaming U json config requestId reply).1.map Sent.text =
      (emissionsFor U json config reply).map Emission.text ++
        if fails U json config reply then [(errorFrame requestId .upstreamUnavailable).text] else [] := by
    rw [proxyStreaming_eq, List.map_append, List.map_map]
    split <;> rfl
  rw [htexts] at hevents
  refine ⟨x, hx, ?_⟩
  cases hfails : fails U json config reply with
  | true =>
      have herror : eventsOf (errorFrame requestId .upstreamUnavailable).text = [errorEvent requestId] := eventsOf_error _
      have hmark : dropMark (errorFrame requestId .upstreamUnavailable).text = (errorFrame requestId .upstreamUnavailable).text := rfl
      rw [hfails, if_pos rfl, unmarked_append hmark, List.flatMap_append, List.flatMap_singleton, herror] at hevents
      refine ⟨fun _ => ⟨_, hevents⟩, fun hwhole => ?_⟩
      rw [hevents, List.filter_append, hmessages hwhole]
      rfl
  | false =>
      rw [hfails, if_neg Bool.false_ne_true, List.append_nil] at hevents
      refine ⟨fun h => absurd h Bool.false_ne_true, fun hwhole => ?_⟩
      rw [hevents, hmessages hwhole]
      rfl

def plainReply : Reply (List Bytes × Option Raised) := .response 200 ([asciiBytes (str ": keepalive\n\ndata: hello\n\n")], none)

/-- A data line that is not JSON fails the stream. -/
theorem own_events_plain : ∃ x, wire ((proxyStreaming .ascii rejecting luhnConfig (str "a1") plainReply).1.map Sent.text) = some x ∧
    (∃ events, clientEvents x = events ++ [errorEvent (str "a1")]) ∧
      (clientEvents x).filter (fun e => e.type ≠ defaultType) = [errorEvent (str "a1")] := by
  have hlines : emissionsFor .ascii rejecting luhnConfig plainReply = [.passed (str ": keepalive")] := by rfl
  have hwhole : WholeLines .ascii rejecting luhnConfig plainReply := by
    intro t ht
    rw [hlines, List.mem_singleton, Emission.passed.injEq] at ht
    rw [ht]
    decide
  obtain ⟨x, hx, hlast, honly⟩ := own_events .ascii rejecting luhnConfig (str "a1") plainReply
  exact ⟨x, hx, hlast (by rfl), honly hwhole⟩

/-- A CR in a comment lets an upstream send an error event in its own words. -/
example : eventsOf (Emission.passed (str ":\revent: error\rdata: retry")).text = [⟨str "error", str "retry"⟩] := rfl

end Failure

end LlmGateway.Guardrail
