import LlmGateway.GuardrailAgreement
import LlmGateway.RedactorDelivery

namespace LlmGateway.Guardrail

open Sse Redactor Utf8
open Json (Members Decoder)

variable {U : Unicode} {json : Decoder} {ls : List Text} {line : Text} {r : StreamingRedactor}
variable {frame payload : Members} {text : Text}

section Rebuilding

/-- with_text can copy the choices of the frame. -/
def Rebuilds (json : Decoder) (frame : Members) : Prop := ∃ payload, withText json frame [] = .ok payload

theorem rebuilds_iff (json : Decoder) (frame : Members) (s : Text) :
    (∃ payload, withText json frame s = .ok payload) ↔ Rebuilds json frame := by
  rw [Rebuilds, withText, withText]
  split
  · simp
  split
  · simp
  split
  · simp
  · simp
  split <;> simp

theorem withText_error (h : ¬ Rebuilds json frame) (s : Text) : ∃ e, withText json frame s = .error e := by
  cases hw : withText json frame s with
  | error e => exact ⟨e, rfl⟩
  | ok payload => exact absurd ((rebuilds_iff json frame s).mp ⟨payload, hw⟩) h

end Rebuilding

section Frames

variable (U json)

/-- A data line with a JSON object in it, or the blank line that ends an event. -/
def Framed (line : Text) : Prop :=
  lineKind U json line = .blank ∨ (∃ frame, lineKind U json line = .bare frame) ∨
    ∃ frame text, lineKind U json line = .content frame text

/-- The text of the message in a line, empty if there is none. -/
def lineText (line : Text) : Text := (lineDelta U json line).getD []

/-- The text that a content frame releases can be put back into the frame. -/
def Unbroken (r : StreamingRedactor) (line : Text) : Prop :=
  ∀ frame text, lineKind U json line = .content frame text → (r.feed U text).1 ≠ [] → Rebuilds json frame

/-- A frame that flushes comes when nothing is held back or no more text follows. -/
def FlushesLast (r : StreamingRedactor) (line : Text) (ls : List Text) : Prop :=
  ∀ frame, lineKind U json line = .bare frame → isTerminal frame → r.buffer = [] ∨ ∀ l ∈ ls, lineText U json l = []

/-- Every line meets a condition on the state before it and the lines after it. -/
def Along (P : StreamingRedactor → Text → List Text → Prop) : StreamingRedactor → List Text → Prop
  | _, [] => True
  | r, line :: ls => P r line ls ∧ Along P (transformLine U json line r).redactor ls

end Frames

section Step

theorem transformLine_blank (hk : lineKind U json line = .blank) : transformLine U json line r = ⟨[], r, none⟩ := by
  simp only [transformLine, hk]

theorem lineDelta_blank (hk : lineKind U json line = .blank) : lineDelta U json line = none := by
  rw [lineDelta, hk]

theorem transformLine_bare (hk : lineKind U json line = .bare frame) : transformLine U json line r =
    if isTerminal frame then ⟨released (r.flush U).1 ++ [.frame frame], (r.flush U).2, none⟩
    else ⟨[.frame frame], r, none⟩ := by
  simp only [transformLine, hk]

theorem transformLine_content (hk : lineKind U json line = .content frame text)
    (hw : withText json frame (r.feed U text).1 = .ok payload) :
    transformLine U json line r =
      ⟨if (r.feed U text).1 = [] then [] else [.frame payload], (r.feed U text).2, none⟩ := by
  simp only [transformLine, hk, hw]
  split <;> rfl

theorem transformLine_withheld (hk : lineKind U json line = .content frame text) (hs : (r.feed U text).1 = []) :
    transformLine U json line r = ⟨[], (r.feed U text).2, none⟩ := by
  simp only [transformLine, hk, hs, if_true]

theorem transformLine_broken (hk : lineKind U json line = .content frame text) (hs : (r.feed U text).1 ≠ [])
    (hw : ¬ Rebuilds json frame) : ∃ e, transformLine U json line r = ⟨[], (r.feed U text).2, some e⟩ := by
  obtain ⟨e, he⟩ := withText_error hw (r.feed U text).1
  exact ⟨e, by simp only [transformLine, hk, if_neg hs, he]⟩

theorem lineDelta_bare (hk : lineKind U json line = .bare frame) : lineDelta U json line = none := by
  rw [lineDelta, hk]

theorem lineDelta_content (hk : lineKind U json line = .content frame text) : lineDelta U json line = some text := by
  rw [lineDelta, hk]

/-- A content frame feeds its text and sends what that releases. -/
theorem transformLine_feeds (hk : lineKind U json line = .content frame text) (h : Unbroken U json r line) :
    (transformLine U json line r).raised = none ∧
      received (transformLine U json line r).emissions = (r.feed U text).1 ∧
      (transformLine U json line r).redactor = (r.feed U text).2 ∧
      ∀ e ∈ (transformLine U json line r).emissions, ∃ payload, e = .frame payload := by
  by_cases hs : (r.feed U text).1 = []
  · rw [transformLine_withheld hk hs, hs]
    exact ⟨rfl, rfl, rfl, fun e he => absurd he List.not_mem_nil⟩
  · obtain ⟨payload, hw⟩ := (rebuilds_iff json frame (r.feed U text).1).mpr (h frame text hk hs)
    rw [transformLine_content hk hw, if_neg hs]
    refine ⟨rfl, received_frame (Inspected.deltaText_withText hw), rfl, fun e he => ⟨payload, List.mem_singleton.mp he⟩⟩

theorem transformLine_unfed (hk : lineKind U json line = .bare frame) :
    (transformLine U json line r).raised = none ∧
      (∀ e ∈ (transformLine U json line r).emissions, ∃ payload, e = .frame payload) ∧
      if isTerminal frame then
        received (transformLine U json line r).emissions = (r.flush U).1 ∧
          (transformLine U json line r).redactor = (r.flush U).2
      else received (transformLine U json line r).emissions = [] ∧ (transformLine U json line r).redactor = r := by
  have hb := received_bare (deltaText_of_bare hk)
  rw [transformLine_bare hk]
  split
  · refine ⟨rfl, fun e he => ?_, ?_, rfl⟩
    · rcases List.mem_append.mp he with he | he
      · exact ⟨_, mem_released he⟩
      · exact ⟨_, List.mem_singleton.mp he⟩
    · rw [received_append, received_released, hb, List.append_nil]
  · exact ⟨rfl, fun e he => ⟨_, List.mem_singleton.mp he⟩, hb, rfl⟩

theorem quiet_of_lineText (hf : Framed U json line) (ht : lineText U json line = []) : Quiet U json line := by
  intro r
  rcases hf with hk | ⟨frame, hk⟩ | ⟨frame, text, hk⟩
  · rw [transformLine_blank hk]
    exact ⟨rfl, Or.inl ⟨rfl, rfl⟩⟩
  · obtain ⟨hraised, -, hstep⟩ := transformLine_unfed (r := r) hk
    refine ⟨hraised, ?_⟩
    split at hstep
    · exact Or.inr hstep
    · exact Or.inl hstep
  · rw [lineText, lineDelta_content hk, Option.getD_some] at ht
    have hfeed : (r.feed U text) = ([], r) := by rw [ht, feed_nil]
    rw [transformLine_withheld hk (by rw [hfeed]), hfeed]
    exact ⟨rfl, Or.inl ⟨rfl, rfl⟩⟩

end Step

section Run

theorem frames_of_framed (hf : ∀ l ∈ ls, Framed U json l) :
    ∀ e ∈ (transformLines U json ls r).emissions, ∃ payload, e = .frame payload := by
  have hline {line : Text} {r : StreamingRedactor} (h : Framed U json line) :
      ∀ e ∈ (transformLine U json line r).emissions, ∃ payload, e = .frame payload := by
    rcases h with hk | ⟨frame, hk⟩ | ⟨frame, text, hk⟩
    · rw [transformLine_blank hk]
      exact fun e he => absurd he List.not_mem_nil
    · exact (transformLine_unfed hk).2.1
    · intro e he
      simp only [transformLine, hk] at he
      split at he
      · exact absurd he List.not_mem_nil
      · split at he
        · exact absurd he List.not_mem_nil
        · exact ⟨_, List.mem_singleton.mp he⟩
  induction ls generalizing r with
  | nil => exact fun e he => absurd he List.not_mem_nil
  | cons line ls ih =>
      obtain ⟨h, hs⟩ := List.forall_mem_cons.mp hf
      rw [transformLines]
      split
      · exact hline h
      · intro e he
        rcases List.mem_append.mp he with he | he
        · exact hline h e he
        · exact ih hs e he

theorem feedAll_silent (hs : ∀ l ∈ ls, lineText U json l = []) :
    r.feedAll U (ls.filterMap (lineDelta U json)) = ([], r) := by
  induction ls with
  | nil => rfl
  | cons line ls ih =>
      obtain ⟨h, hs⟩ := List.forall_mem_cons.mp hs
      rw [lineText] at h
      cases hd : lineDelta U json line with
      | none => rw [List.filterMap_cons_none hd, ih hs]
      | some text =>
          rw [hd, Option.getD_some] at h
          rw [List.filterMap_cons_some hd]
          simp only [StreamingRedactor.feedAll, h, feed_nil, ih hs, List.nil_append]

/-- The run has told the redactor these texts, or these and the end of the stream. -/
def Followed (U : Unicode) (r : StreamingRedactor) (texts : List Text) (run : Transformed) : Prop :=
  run.raised = none ∧
    (received run.emissions = (r.feedAll U texts).1 ∧ run.redactor = (r.feedAll U texts).2 ∨
      received run.emissions = (r.feedAll U texts).1 ++ ((r.feedAll U texts).2.flush U).1 ∧
        run.redactor = ((r.feedAll U texts).2.flush U).2)

theorem Followed.skip {texts : List Text} (h : Followed U r texts (transformLines U json ls r))
    (hraised : (transformLine U json line r).raised = none)
    (hout : received (transformLine U json line r).emissions = [])
    (hredactor : (transformLine U json line r).redactor = r) :
    Followed U r texts (transformLines U json (line :: ls) r) := by
  rw [transformLines_cons hraised, Followed, received_append, hout, hredactor]
  exact h

theorem Followed.feed {texts : List Text} (h : Followed U (r.feed U text).2 texts (transformLines U json ls (r.feed U text).2))
    (hraised : (transformLine U json line r).raised = none)
    (hout : received (transformLine U json line r).emissions = (r.feed U text).1)
    (hredactor : (transformLine U json line r).redactor = (r.feed U text).2) :
    Followed U r (text :: texts) (transformLines U json (line :: ls) r) := by
  rw [transformLines_cons hraised, Followed, received_append, hout, hredactor]
  simp only [StreamingRedactor.feedAll, List.append_assoc]
  refine ⟨h.1, ?_⟩
  rcases h.2 with ⟨h1, h2⟩ | ⟨h1, h2⟩
  · exact Or.inl ⟨by rw [h1], h2⟩
  · exact Or.inr ⟨by rw [h1], h2⟩

theorem followed_frames (hf : ∀ l ∈ ls, Framed U json l)
    (h : Along U json (fun r line ls => Unbroken U json r line ∧ FlushesLast U json r line ls) r ls) :
    Followed U r (ls.filterMap (lineDelta U json)) (transformLines U json ls r) := by
  induction ls generalizing r with
  | nil => exact ⟨rfl, Or.inl ⟨rfl, rfl⟩⟩
  | cons line ls ih =>
      obtain ⟨hline, hframed⟩ := List.forall_mem_cons.mp hf
      obtain ⟨⟨hunbroken, hlast⟩, hrest⟩ := h
      have hih := ih hframed hrest
      rcases hline with hk | ⟨frame, hk⟩ | ⟨frame, text, hk⟩
      · have hblank := transformLine_blank (r := r) hk
        rw [hblank] at hih
        rw [List.filterMap_cons_none (lineDelta_blank hk)]
        exact hih.skip (by rw [hblank]) (by rw [hblank]; rfl) (by rw [hblank])
      · obtain ⟨hraised, -, hstep⟩ := transformLine_unfed (r := r) hk
        rw [List.filterMap_cons_none (lineDelta_bare hk)]
        split at hstep
        · next hterminal =>
            rcases hlast frame hk hterminal with hempty | hsilent
            · rw [flush_of_buffer hempty] at hstep
              exact (hstep.2 ▸ hih).skip hraised hstep.1 hstep.2
            · have hquiet : ∀ l ∈ line :: ls, Quiet U json l := by
                intro l hl
                refine quiet_of_lineText (hf l hl) ?_
                rcases List.mem_cons.mp hl with rfl | hl
                · rw [lineText, lineDelta_bare hk, Option.getD_none]
                · exact hsilent l hl
              rw [Followed, feedAll_silent hsilent, List.nil_append]
              exact transformLines_quiet hquiet
        · exact (hstep.2 ▸ hih).skip hraised hstep.1 hstep.2
      · obtain ⟨hraised, hout, hredactor, -⟩ := transformLine_feeds hk hunbroken
        rw [List.filterMap_cons_some (lineDelta_content hk)]
        exact (hredactor ▸ hih).feed hraised hout hredactor

theorem Followed.stream_eq {texts : List Text} {run : Transformed} (h : Followed U r texts run) :
    received run.emissions ++ (run.redactor.flush U).1 = r.stream U texts := by
  rcases h.2 with ⟨h1, h2⟩ | ⟨h1, h2⟩
  · rw [h1, h2]
    rfl
  · rw [h1, h2, flush_flush, List.append_nil]
    rfl

end Run

section Stream

variable (U json) in
/-- Frames in any order, and [DONE] or the end of the stream. -/
structure FrameStream where
  frames : List Text
  ending : Option Text
  after : List Text
  framed : ∀ line ∈ frames, Framed U json line
  ending_done : ∀ line ∈ ending, lineKind U json line = .done
  after_blank : ∀ line ∈ after, lineKind U json line = .blank

def FrameStream.lines (s : FrameStream U json) : List Text := s.frames ++ (s.ending.toList ++ s.after)

def FrameStream.contents (s : FrameStream U json) : List Text := s.frames.filterMap (lineDelta U json)

theorem transformLines_blank (h : ∀ line ∈ ls, lineKind U json line = .blank) :
    transformLines U json ls r = ⟨[], r, none⟩ := by
  induction ls with
  | nil => rfl
  | cons line ls ih =>
      obtain ⟨hk, hs⟩ := List.forall_mem_cons.mp h
      rw [transformLines_cons (by rw [transformLine_blank hk]), transformLine_blank hk, ih hs]
      rfl

/-- Where every flush is the last thing that matters and no frame breaks, a
client receives what one redactor makes of the contents. -/
theorem frames_received (s : FrameStream U json) {chunks : List Bytes} (hlines : iterLines none chunks = (s.lines, none))
    (hold : Option Int) (luhn : Bool)
    (h : Along U json (fun r line ls => Unbroken U json r line ∧ FlushesLast U json r line ls) (.init hold luhn) s.frames) :
    (redactStream U json none chunks (.init hold luhn)).raised = none ∧
      received (redactStream U json none chunks (.init hold luhn)).emissions =
        (StreamingRedactor.init hold luhn).stream U s.contents := by
  have hfollowed := followed_frames s.framed h
  have hstream := hfollowed.stream_eq
  rw [redactStream]
  simp only [hlines]
  rw [FrameStream.lines, transformLines_append hfollowed.1]
  cases he : s.ending with
  | none =>
      rw [Option.toList_none, List.nil_append, transformLines_blank s.after_blank]
      have hopen : (transformLines U json s.frames (.init hold luhn)).emissions.any Emission.isDone = false := by
        rw [List.any_eq_false]
        intro e hmem
        obtain ⟨payload, rfl⟩ := frames_of_framed s.framed e hmem
        exact Bool.false_ne_true
      simp only [List.append_nil, Option.or_none, hopen, Bool.false_eq_true, if_false, received_append, received_released]
      exact ⟨trivial, hstream⟩
  | some last =>
      have hdone := transformLine_done (r := (transformLines U json s.frames (.init hold luhn)).redactor)
        (s.ending_done last he)
      rw [Option.toList_some, List.singleton_append, transformLines_cons (by rw [hdone]), hdone,
        transformLines_blank s.after_blank]
      have hany : ∀ es : List Emission, (es ++ [Emission.done]).any Emission.isDone = true := by
        intro es
        simp [Emission.isDone]
      simp only [List.append_nil, ← List.append_assoc, hany, Option.or_none, if_true, received_append, received_released]
      exact ⟨trivial, by rw [hstream]; exact List.append_nil _⟩

def usageFrame : Members := [(str "choices", .list []), (str "usage", .null)]

theorem framed_bodyOf {frames : List Members}
    (h : ∀ frame ∈ frames, Framed U json (dataLine (Emission.payloadText frame))) :
    ∀ line ∈ bodyOf frames, Framed U json line := by
  intro line hl
  obtain ⟨frame, hframe, hl⟩ := List.mem_flatMap.mp hl
  rcases List.mem_cons.mp hl with rfl | hl
  · exact h frame hframe
  · rw [List.mem_singleton.mp hl]
    exact Or.inl rfl

theorem rebuilds_deltaFrame (text : Text) : Rebuilds json (deltaFrame text) :=
  withText_of_objectChoices json (show deltaText (deltaFrame text) = some text from rfl) (objectChoices_deltaFrame text) []

theorem steady_blank (r : StreamingRedactor) (ls : List Text) : Unbroken U json r [] ∧ FlushesLast U json r [] ls := by
  have hk : lineKind U json [] = .blank := rfl
  refine ⟨fun frame text h => ?_, fun frame h => ?_⟩
  · rw [hk] at h; cases h
  · rw [hk] at h; cases h

theorem steady_delta (hk : lineKind U json line = .content (deltaFrame text) text) (r : StreamingRedactor) (ls : List Text) :
    Unbroken U json r line ∧ FlushesLast U json r line ls := by
  refine ⟨fun frame text h _ => ?_, fun frame h => ?_⟩
  · rw [hk] at h
    cases h
    exact rebuilds_deltaFrame text
  · rw [hk] at h; cases h

/-- The counts come when the message is over. -/
def countedStream : FrameStream .ascii (knowing ((emailTexts.map deltaFrame) ++ [usageFrame])) where
  frames := bodyOf (emailTexts.map deltaFrame ++ [usageFrame])
  ending := none
  after := []
  framed := framed_bodyOf (List.forall_mem_cons.mpr ⟨Or.inr (Or.inr ⟨_, _, rfl⟩),
    List.forall_mem_cons.mpr ⟨Or.inr (Or.inr ⟨_, _, rfl⟩), List.forall_mem_cons.mpr ⟨Or.inr (Or.inl ⟨_, rfl⟩),
      fun _ h => absurd h List.not_mem_nil⟩⟩⟩)
  ending_done _ h := absurd h (by simp)
  after_blank _ h := absurd h List.not_mem_nil

theorem frames_received_counted :
    let chunks := chunksOf ((emailTexts.map deltaFrame ++ [usageFrame]).map Emission.payloadText)
    (redactStream .ascii (knowing ((emailTexts.map deltaFrame) ++ [usageFrame])) none chunks (.init none true)).raised = none ∧
      received (redactStream .ascii (knowing ((emailTexts.map deltaFrame) ++ [usageFrame])) none chunks
        (.init none true)).emissions = (StreamingRedactor.init none true).stream .ascii countedStream.contents := by
  refine frames_received countedStream (by decide +kernel) none true ⟨steady_delta rfl _ _, steady_blank _ _,
    steady_delta rfl _ _, steady_blank _ _, ⟨fun frame text h => ?_, fun _ _ _ => Or.inr fun l hl => ?_⟩,
    steady_blank _ _, trivial⟩
  · cases h
  · rw [List.mem_singleton.mp hl]
    rfl

def interruptedFrames : List Members :=
  [deltaFrame (str "4111 1111 1111 "), usageFrame, deltaFrame (str "1111")]

/-- Counts of the tokens so far, between two parts of a card number. -/
def interruptedStream : FrameStream .ascii (knowing interruptedFrames) where
  frames := bodyOf interruptedFrames
  ending := some (dataLine done)
  after := [[]]
  framed := framed_bodyOf (List.forall_mem_cons.mpr ⟨Or.inr (Or.inr ⟨_, _, rfl⟩),
    List.forall_mem_cons.mpr ⟨Or.inr (Or.inl ⟨_, rfl⟩), List.forall_mem_cons.mpr ⟨Or.inr (Or.inr ⟨_, _, rfl⟩),
      fun _ h => absurd h List.not_mem_nil⟩⟩⟩)
  ending_done _ h := by
    cases h
    rfl
  after_blank line h := by
    rw [List.mem_singleton.mp h]
    rfl

/-- The number leaves in clear, and one redactor would have hidden it. -/
theorem interrupted_card :
    let chunks := chunksOf (interruptedFrames.map Emission.payloadText ++ [done])
    iterLines none chunks = (interruptedStream.lines, none) ∧
      received (redactStream .ascii (knowing interruptedFrames) none chunks (.init none false)).emissions =
        str "4111 1111 1111 1111" ∧
      (StreamingRedactor.init none false).stream .ascii interruptedStream.contents = redacted := by
  refine ⟨by decide +kernel, by decide +kernel, by decide +kernel⟩

end Stream

section Terminal

def finishReason (frame : Members) : Option Json :=
  (firstChoice frame).bind fun choice => choice.get? (str "finish_reason")

/-- The payload has the finish_reason and the usage of the frame. -/
def Carries (frame payload : Members) : Prop :=
  finishReason payload = finishReason frame ∧ payload.get? (str "usage") = frame.get? (str "usage")

variable (U json) in
def lineFrame (line : Text) : Option Members :=
  match lineKind U json line with
  | .bare frame | .content frame _ => some frame
  | _ => none

variable (U json) in
/-- Of what the line makes the guardrail send the last piece, and no other,
carries what the frame says about the end, and no text stays behind it. -/
def Arrives (r : StreamingRedactor) (line : Text) (frame : Members) : Prop :=
  (transformLine U json line r).raised = none ∧ (transformLine U json line r).redactor.buffer = [] ∧
    ∃ early payload, (transformLine U json line r).emissions = early ++ [.frame payload] ∧ Carries frame payload ∧
      ∀ e ∈ early, ∃ p, e = .frame p ∧ ¬ Carries frame p

variable (U json) in
/-- The text of the frame, if it has any, is not empty, can be put back into
it, and ends with a character that no match can go on with. -/
def Conclusive (r : StreamingRedactor) (line : Text) (frame : Members) : Prop :=
  ∀ text, lineDelta U json line = some text → text ≠ [] ∧ Rebuilds json frame ∧
    (r.hold ≤ 0 ∨ canContinueAMatch U (r.buffer ++ text) ((r.buffer ++ text).length - 1) = false)

theorem carries_withText (hd : deltaText frame = some text) {s : Text} (hw : withText json frame s = .ok payload) :
    Carries frame payload := by
  obtain ⟨choice, rest, delta, hframe, hdelta⟩ := deltaText_eq_some hd
  rw [withText_eq hframe hdelta] at hw
  cases hrest : rest.mapM (dictOf json) with
  | error e =>
      rw [hrest] at hw
      cases hw
  | ok others =>
      rw [hrest] at hw
      cases hw
      have hreason : str "finish_reason" ≠ str "delta" := by decide
      have husage : str "usage" ≠ str "choices" := by decide
      refine ⟨?_, Members.get?_set_of_ne _ husage⟩
      simp only [finishReason, firstChoice, Members.get?_set_self, hframe, Option.bind_some,
        Members.get?_set_of_ne _ hreason]

theorem get?_eq_none_iff (ms : Members) (key : Text) : ms.get? key = none ↔ key ∉ ms.keys := by
  simp only [Members.get?, Members.keys, Option.map_eq_none_iff, List.find?_eq_none, decide_eq_true_eq, List.mem_map, not_exists,
    not_and]

/-- The frame of a flush says nothing about the end. -/
theorem not_carries_synthetic (ht : isTerminal frame) (tail : Text) : ¬ Carries frame (syntheticDelta tail) := by
  rintro ⟨hreason, husage⟩
  have hnull : finishReason (syntheticDelta tail) = some .null := rfl
  have hnone : (syntheticDelta tail).get? (str "usage") = none := rfl
  rw [hnull] at hreason
  rw [hnone] at husage
  have hkeys := (get?_eq_none_iff frame (str "usage")).mp husage.symm
  rw [isTerminal, ← finishReason, ← hreason] at ht
  simp only [List.contains_iff_mem] at ht
  exact hkeys ht

theorem arrives_bare (hk : lineKind U json line = .bare frame) (ht : isTerminal frame) : Arrives U json r line frame := by
  rw [Arrives, transformLine_bare hk, if_pos ht]
  refine ⟨rfl, flush_buffer r, released (r.flush U).1, frame, rfl, ⟨rfl, rfl⟩, fun e he => ?_⟩
  exact ⟨_, mem_released he, not_carries_synthetic ht _⟩

theorem arrives_content (hk : lineKind U json line = .content frame text) :
    Arrives U json r line frame ↔ Conclusive U json r line frame := by
  constructor
  · rintro ⟨hraised, hbuffer, early, payload, hout, -, -⟩ text' hd
    rw [lineDelta_content hk, Option.some.injEq] at hd
    subst hd
    have hsome : (r.feed U text).1 ≠ [] := by
      intro hs
      rw [transformLine_withheld hk hs] at hout
      exact absurd hout.symm (List.append_ne_nil_of_right_ne_nil _ (List.cons_ne_nil _ _))
    have hx : text ≠ [] := by
      rintro rfl
      exact hsome (by rw [feed_nil])
    have hrebuilds : Rebuilds json frame := by
      by_contra hw
      obtain ⟨e, he⟩ := transformLine_broken hk hsome hw
      rw [he] at hraised
      cases hraised
    refine ⟨hx, hrebuilds, (feed_empties_iff hx).mp ?_⟩
    obtain ⟨-, -, hredactor, -⟩ := transformLine_feeds (r := r) hk fun frame' text' h _ => by
      rw [hk] at h
      cases h
      exact hrebuilds
    rw [← hredactor]
    exact hbuffer
  · intro h
    obtain ⟨hx, hrebuilds, hlast⟩ := h text (lineDelta_content hk)
    have hbuffer := (feed_empties_iff hx).mpr hlast
    have hsome : (r.feed U text).1 ≠ [] := by
      intro hs
      rw [feed_withheld hx hs] at hbuffer
      exact hx (List.append_eq_nil_iff.mp hbuffer).2
    obtain ⟨payload, hw⟩ := (rebuilds_iff json frame (r.feed U text).1).mpr hrebuilds
    rw [Arrives, transformLine_content hk hw, if_neg hsome]
    exact ⟨rfl, hbuffer, [], payload, rfl, carries_withText (deltaText_of_content hk) hw,
      fun e he => absurd he List.not_mem_nil⟩

theorem arrives_iff (hl : lineFrame U json line = some frame) (ht : isTerminal frame) :
    Arrives U json r line frame ↔ Conclusive U json r line frame := by
  rw [lineFrame] at hl
  split at hl
  · next hk =>
      cases hl
      refine iff_of_true (arrives_bare hk ht) fun text hd => ?_
      rw [lineDelta_bare hk] at hd
      cases hd
  · next hk =>
      cases hl
      exact arrives_content hk
  · cases hl

theorem unbroken_iff (hf : ∀ l ∈ ls, Framed U json l) :
    (transformLines U json ls r).raised = none ↔ Along U json (fun r line _ => Unbroken U json r line) r ls := by
  induction ls generalizing r with
  | nil => exact iff_of_true rfl trivial
  | cons line ls ih =>
      obtain ⟨hline, hs⟩ := List.forall_mem_cons.mp hf
      have hstep : (transformLine U json line r).raised = none ↔ Unbroken U json r line := by
        rcases hline with hk | ⟨frame, hk⟩ | ⟨frame, text, hk⟩
        · refine iff_of_true (by rw [transformLine_blank hk]) fun frame text h => ?_
          rw [hk] at h
          cases h
        · refine iff_of_true (transformLine_unfed hk).1 fun frame text h => ?_
          rw [hk] at h
          cases h
        · refine ⟨fun hraised frame' text' h hsome => ?_, fun h => (transformLine_feeds hk h).1⟩
          rw [hk] at h
          cases h
          by_contra hw
          obtain ⟨e, he⟩ := transformLine_broken hk hsome hw
          rw [he] at hraised
          cases hraised
      rw [Along, ← ih hs, ← hstep, transformLines]
      cases hr : (transformLine U json line r).raised with
      | none => simp
      | some exc => simp

/-- A frame that ends the message arrives, and last, exactly when no frame
before it breaks and it has no text or brings all the text out. -/
theorem terminal_arrives_iff (U : Unicode) (json : Decoder) (hold : Option Int) (luhn : Bool) {pre : List Text}
    (hf : ∀ l ∈ pre, Framed U json l) (hl : lineFrame U json line = some frame) (ht : isTerminal frame) :
    (transformLines U json pre (.init hold luhn)).raised = none ∧
        Arrives U json (transformLines U json pre (.init hold luhn)).redactor line frame ↔
      Along U json (fun r line _ => Unbroken U json r line) (.init hold luhn) pre ∧
        Conclusive U json (transformLines U json pre (.init hold luhn)).redactor line frame := by
  rw [unbroken_iff hf, arrives_iff hl ht]

def stopFrame (text : Text) : Members :=
  [(str "choices", .list [.dict [(str "delta", .dict [(str "content", .str text)]),
    (str "finish_reason", .str (str "stop"))]])]

theorem terminal_arrives_prose :
    let json := knowing [deltaFrame (str "hi "), stopFrame (str "there. ")]
    let pre := bodyOf [deltaFrame (str "hi ")]
    let before := transformLines .ascii json pre (.init none false)
    before.raised = none ∧
      Arrives .ascii json before.redactor (dataLine (Emission.payloadText (stopFrame (str "there. ")))) (stopFrame (str "there. ")) := by
  refine (terminal_arrives_iff .ascii _ none false (framed_bodyOf (List.forall_mem_cons.mpr ⟨Or.inr (Or.inr ⟨_, _, rfl⟩),
    fun _ h => absurd h List.not_mem_nil⟩)) rfl (by decide)).mpr ⟨⟨(steady_delta rfl _ []).1, (steady_blank _ []).1, trivial⟩, ?_⟩
  intro text h
  cases h
  exact ⟨by decide, ⟨_, rfl⟩, Or.inr (by decide +kernel)⟩

/-- The last word is held back, and the frame that ends the message with it. -/
theorem terminal_withheld :
    let json := knowing [stopFrame (str "there")]
    let line := dataLine (Emission.payloadText (stopFrame (str "there")))
    lineFrame .ascii json line = some (stopFrame (str "there")) ∧ isTerminal (stopFrame (str "there")) ∧
      ¬ Arrives .ascii json (.init none false) line (stopFrame (str "there")) := by
  refine ⟨rfl, by decide, ?_⟩
  rintro ⟨-, -, early, payload, hout, -⟩
  have hnone : (transformLine .ascii (knowing [stopFrame (str "there")])
      (dataLine (Emission.payloadText (stopFrame (str "there")))) (.init none false)).emissions = [] := rfl
  rw [hnone] at hout
  exact absurd hout.symm (List.append_ne_nil_of_right_ne_nil _ (List.cons_ne_nil _ _))

end Terminal

end LlmGateway.Guardrail
