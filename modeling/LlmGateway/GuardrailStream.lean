import LlmGateway.Guardrail
import LlmGateway.SseInspection

namespace LlmGateway.Guardrail

open Sse Redactor Utf8
open Json (Members Decoder)

variable {U : Unicode} {json : Decoder} {ls : List Text} {line : Text} {r : StreamingRedactor}
variable {frame : Members} {text : Text}

section Frames

def ObjectChoices (frame : Members) : Prop :=
  ∀ items, frame.get? (str "choices") = some (.list items) → ∀ v ∈ items, ∃ ms, v = .dict ms

theorem mapM_ok {α β ε : Type} {f : α → Except ε β} {as : List α} (h : ∀ a ∈ as, ∃ b, f a = .ok b) :
    ∃ bs, as.mapM f = .ok bs ∧ List.Forall₂ (fun a b => f a = .ok b) as bs := by
  induction as with
  | nil => exact ⟨[], rfl, .nil⟩
  | cons a as ih =>
      obtain ⟨⟨b, hb⟩, has⟩ := List.forall_mem_cons.mp h
      obtain ⟨bs, hbs, hall⟩ := ih has
      exact ⟨b :: bs, by rw [List.mapM_cons, hb, hbs]; rfl, .cons hb hall⟩

theorem deltaText_eq_some (h : deltaText frame = some text) : ∃ choice rest delta,
    frame.get? (str "choices") = some (.list (.dict choice :: rest)) ∧
      Members.get? choice (str "delta") = some (.dict delta) := by
  rw [deltaText] at h
  cases hc : firstChoice frame with
  | none => rw [hc] at h; cases h
  | some choice =>
      rw [hc, Option.bind_some] at h
      cases hd : choice.get? (str "delta") with
      | none => rw [hd] at h; cases h
      | some delta =>
          rw [hd] at h
          rw [firstChoice] at hc
          split at hc
          · next choice' rest hframe =>
              cases hc
              cases delta with
              | dict delta => exact ⟨choice, rest, delta, hframe, hd⟩
              | null | bool _ | int _ | float _ | str _ | list _ => cases h
          · cases hc

/-- with_text copies every choice and puts the text into the first one. -/
theorem withText_eq {choice delta : Members} {rest : List Json}
    (hframe : frame.get? (str "choices") = some (.list (.dict choice :: rest)))
    (hdelta : choice.get? (str "delta") = some (.dict delta)) (s : Text) :
    withText json frame s = (rest.mapM (dictOf json)).map fun others =>
      frame.set (str "choices") (.list (.dict (choice.set (str "delta")
        (.dict (delta.set (str "content") (.str s)))) :: others.map .dict)) := by
  have hfirst : dictOf json (.dict choice) = .ok choice := rfl
  rw [withText, hframe]
  simp only [elements, List.mapM_cons, hfirst]
  cases rest.mapM (dictOf json) with
  | error e => rfl
  | ok others =>
      simp only [bind, Except.bind, pure, Except.pure, hdelta, Option.getD_some]
      rfl

theorem mapM_dict (mss : List Members) : (mss.map Json.dict).mapM (dictOf json) = .ok mss := by
  induction mss with
  | nil => rfl
  | cons ms mss ih =>
      rw [List.map_cons, List.mapM_cons, ih]
      rfl

theorem dicts_of_forall {items : List Json} (h : ∀ v ∈ items, ∃ ms, v = .dict ms) : ∃ mss : List Members, items = mss.map .dict := by
  induction items with
  | nil => exact ⟨[], rfl⟩
  | cons v items ih =>
      obtain ⟨⟨ms, rfl⟩, hitems⟩ := List.forall_mem_cons.mp h
      obtain ⟨mss, rfl⟩ := ih hitems
      exact ⟨ms :: mss, rfl⟩

/-- A frame whose choices are objects can carry any other text. -/
theorem withText_of_objectChoices (json : Decoder) (hd : deltaText frame = some text) (ho : ObjectChoices frame) (s : Text) :
    ∃ payload, withText json frame s = .ok payload := by
  obtain ⟨choice, rest, delta, hframe, hdelta⟩ := deltaText_eq_some hd
  obtain ⟨mss, rfl⟩ := dicts_of_forall fun v hv => ho _ hframe v (List.mem_cons_of_mem _ hv)
  rw [withText_eq hframe hdelta, mapM_dict]
  exact ⟨_, rfl⟩

end Frames

section Received

/-- The text of the message in a piece of the stream. -/
def contentOf : Emission → Text
  | .frame payload => (deltaText payload).getD []
  | .passed _ | .done => []

def received (es : List Emission) : Text := es.flatMap contentOf

theorem received_append (a b : List Emission) : received (a ++ b) = received a ++ received b := List.flatMap_append

theorem received_released (tail : Text) : received (released tail) = tail := by
  rw [released]
  split
  · next h => exact h.symm
  · exact List.append_nil tail

theorem received_frame (h : deltaText frame = some text) : received [.frame frame] = text := by
  simp [received, contentOf, h]

theorem received_bare (h : deltaText frame = none) : received [.frame frame] = [] := by
  simp [received, contentOf, h]

end Received

section Redactor

theorem flush_buffer (r : StreamingRedactor) : (r.flush U).2.buffer = [] := by
  rw [StreamingRedactor.flush]
  split
  · assumption
  · rfl

theorem flush_of_buffer (h : r.buffer = []) : r.flush U = ([], r) := if_pos h

theorem flush_flush (r : StreamingRedactor) : (r.flush U).2.flush U = ([], (r.flush U).2) :=
  flush_of_buffer (flush_buffer r)

theorem feedAll_append (r : StreamingRedactor) (a b : List Text) :
    r.feedAll U (a ++ b) =
      ((r.feedAll U a).1 ++ ((r.feedAll U a).2.feedAll U b).1, ((r.feedAll U a).2.feedAll U b).2) := by
  induction a generalizing r with
  | nil => rfl
  | cons chunk a ih => simp only [List.cons_append, StreamingRedactor.feedAll, ih, List.append_assoc]

end Redactor

section Lines

variable (U json)

/-- The text of the message in a line. -/
def lineDelta (line : Text) : Option Text :=
  match lineKind U json line with
  | .content _ text => some text
  | _ => none

/-- What a provider sends before [DONE]: a blank, a line without data (also
where a byte order mark is taken away), or a frame. -/
def Ordinary (line : Text) : Prop :=
  match lineKind U json line with
  | .blank | .bare _ => True
  | .passed stripped => dataValues (dropMark (Emission.passed stripped).text) = []
  | .content frame _ => ObjectChoices frame
  | .done | .refused _ => False

/-- A frame that ends the message. -/
def Ends (line : Text) : Prop := ∃ frame, lineKind U json line = .bare frame ∧ isTerminal frame

/-- The lines of a stream that carries a message and ends with [DONE]. A frame
that ends the message does not come between two deltas. -/
structure DeltaStream where
  opening : List Text
  body : List Text
  closing : List Text
  last : Text
  after : List Text
  opening_framing : ∀ line ∈ opening, Ordinary U json line ∧ lineDelta U json line = none
  body_ordinary : ∀ line ∈ body, Ordinary U json line ∧ ¬ Ends U json line
  closing_framing : ∀ line ∈ closing, Ordinary U json line ∧ lineDelta U json line = none
  last_done : lineKind U json last = .done
  after_framing : ∀ line ∈ after, Ordinary U json line ∧ lineDelta U json line = none

variable {U json}

def DeltaStream.lines (s : DeltaStream U json) : List Text :=
  s.opening ++ (s.body ++ (s.closing ++ s.last :: s.after))

def DeltaStream.deltas (s : DeltaStream U json) : List Text := s.body.filterMap (lineDelta U json)

end Lines

section Step

theorem scalar_rstripCr (h : scalar line) : scalar (rstripCr line) :=
  scalar_of_subset h fun _ hc => mem_rstripCr hc

theorem transformLine_passed {stripped : Text} (hk : lineKind U json line = .passed stripped) (hs : scalar line) :
    transformLine U json line r = ⟨[.passed stripped], r, none⟩ := by
  have h : scalar stripped = true := stripped_eq hk ▸ scalar_rstripCr hs
  simp only [transformLine, hk, h, if_true]

theorem transformLine_framing (hs : scalar line) (ho : Ordinary U json line) (hd : lineDelta U json line = none) :
    (transformLine U json line r).raised = none ∧
      (received (transformLine U json line r).emissions = [] ∧ (transformLine U json line r).redactor = r ∨
        received (transformLine U json line r).emissions = (r.flush U).1 ∧
          (transformLine U json line r).redactor = (r.flush U).2) := by
  rw [Ordinary] at ho
  rw [lineDelta] at hd
  cases hk : lineKind U json line with
  | blank => simp [transformLine, hk, received]
  | passed stripped =>
      rw [transformLine_passed hk hs]
      exact ⟨rfl, Or.inl ⟨rfl, rfl⟩⟩
  | done | refused exc => simp [hk] at ho
  | bare frame =>
      have hb := received_bare (deltaText_of_bare hk)
      simp only [transformLine, hk]
      split
      · exact ⟨rfl, Or.inr ⟨by rw [received_append, received_released, hb, List.append_nil], rfl⟩⟩
      · exact ⟨rfl, Or.inl ⟨hb, rfl⟩⟩
  | content frame text => simp [hk] at hd

theorem transformLine_body (hs : scalar line) (ho : Ordinary U json line) (he : ¬ Ends U json line) :
    (transformLine U json line r).raised = none ∧
      received (transformLine U json line r).emissions = (r.feedAll U (lineDelta U json line).toList).1 ∧
      (transformLine U json line r).redactor = (r.feedAll U (lineDelta U json line).toList).2 := by
  rw [Ordinary] at ho
  rw [lineDelta]
  cases hk : lineKind U json line with
  | blank => simp [transformLine, hk, received, StreamingRedactor.feedAll]
  | passed stripped =>
      rw [transformLine_passed hk hs]
      exact ⟨rfl, rfl, rfl⟩
  | done | refused exc => simp [hk] at ho
  | bare frame =>
      have hb := received_bare (deltaText_of_bare hk)
      have ht : isTerminal frame = false := by
        rw [← Bool.not_eq_true]
        exact fun ht => he ⟨frame, hk, ht⟩
      simp only [transformLine, hk, ht]
      exact ⟨rfl, hb, rfl⟩
  | content frame text =>
      have hd := deltaText_of_content hk
      obtain ⟨payload, hw⟩ := withText_of_objectChoices json hd (by simpa [hk] using ho) (r.feed U text).1
      simp only [transformLine, hk, Option.toList_some, StreamingRedactor.feedAll, List.append_nil]
      split
      · next h => exact ⟨rfl, h.symm, rfl⟩
      · rw [hw]
        exact ⟨rfl, received_frame (Inspected.deltaText_withText hw), rfl⟩

end Step

section Run

theorem transformLines_append {a b : List Text} (h : (transformLines U json a r).raised = none) :
    transformLines U json (a ++ b) r =
      ⟨(transformLines U json a r).emissions ++
          (transformLines U json b (transformLines U json a r).redactor).emissions,
        (transformLines U json b (transformLines U json a r).redactor).redactor,
        (transformLines U json b (transformLines U json a r).redactor).raised⟩ := by
  induction a generalizing r with
  | nil => rfl
  | cons line a ih =>
      rw [transformLines] at h
      rw [List.cons_append, transformLines, transformLines]
      cases hr : (transformLine U json line r).raised with
      | some exc => simp [hr] at h
      | none =>
          simp only [hr] at h ⊢
          rw [ih h, List.append_assoc]

theorem transformLines_cons (h : (transformLine U json line r).raised = none) :
    transformLines U json (line :: ls) r =
      ⟨(transformLine U json line r).emissions ++
          (transformLines U json ls (transformLine U json line r).redactor).emissions,
        (transformLines U json ls (transformLine U json line r).redactor).redactor,
        (transformLines U json ls (transformLine U json line r).redactor).raised⟩ := by
  simp only [transformLines, h]

variable (U json) in
/-- A line that at most flushes. -/
def Quiet (line : Text) : Prop := ∀ r : StreamingRedactor, (transformLine U json line r).raised = none ∧
  (received (transformLine U json line r).emissions = [] ∧ (transformLine U json line r).redactor = r ∨
    received (transformLine U json line r).emissions = (r.flush U).1 ∧
      (transformLine U json line r).redactor = (r.flush U).2)

theorem transformLines_quiet (h : ∀ line ∈ ls, Quiet U json line) :
    (transformLines U json ls r).raised = none ∧
      (received (transformLines U json ls r).emissions = [] ∧ (transformLines U json ls r).redactor = r ∨
        received (transformLines U json ls r).emissions = (r.flush U).1 ∧
          (transformLines U json ls r).redactor = (r.flush U).2) := by
  induction ls generalizing r with
  | nil => exact ⟨rfl, Or.inl ⟨rfl, rfl⟩⟩
  | cons line ls ih =>
      obtain ⟨hline, hrest⟩ := List.forall_mem_cons.mp h
      obtain ⟨hraised, hstep⟩ := hline r
      obtain ⟨hraised', hrun⟩ := ih (r := (transformLine U json line r).redactor) hrest
      rw [transformLines_cons hraised]
      refine ⟨hraised', ?_⟩
      simp only [received_append]
      rcases hstep with ⟨he, hr⟩ | ⟨he, hr⟩
      · rw [hr] at hrun ⊢
        rwa [he, List.nil_append]
      · rw [hr, flush_flush] at hrun
        rw [hr, he]
        rcases hrun with ⟨he', hr'⟩ | ⟨he', hr'⟩
        · exact Or.inr ⟨by rw [he', List.append_nil], hr'⟩
        · exact Or.inr ⟨by rw [he', List.append_nil], hr'⟩

theorem transformLines_framing (hs : ∀ line ∈ ls, scalar line)
    (hf : ∀ line ∈ ls, Ordinary U json line ∧ lineDelta U json line = none) :
    (transformLines U json ls r).raised = none ∧
      (received (transformLines U json ls r).emissions = [] ∧ (transformLines U json ls r).redactor = r ∨
        received (transformLines U json ls r).emissions = (r.flush U).1 ∧
          (transformLines U json ls r).redactor = (r.flush U).2) :=
  transformLines_quiet fun line hl _ => transformLine_framing (hs line hl) (hf line hl).1 (hf line hl).2

theorem transformLines_framing_empty (hb : r.buffer = []) (hs : ∀ line ∈ ls, scalar line)
    (hf : ∀ line ∈ ls, Ordinary U json line ∧ lineDelta U json line = none) :
    (transformLines U json ls r).raised = none ∧ received (transformLines U json ls r).emissions = [] ∧
      (transformLines U json ls r).redactor = r := by
  have h := transformLines_framing (r := r) hs hf
  rw [flush_of_buffer hb] at h
  exact ⟨h.1, h.2.elim id id⟩

theorem transformLines_body (hs : ∀ line ∈ ls, scalar line)
    (hb : ∀ line ∈ ls, Ordinary U json line ∧ ¬ Ends U json line) :
    (transformLines U json ls r).raised = none ∧
      received (transformLines U json ls r).emissions = (r.feedAll U (ls.filterMap (lineDelta U json))).1 ∧
      (transformLines U json ls r).redactor = (r.feedAll U (ls.filterMap (lineDelta U json))).2 := by
  induction ls generalizing r with
  | nil => exact ⟨rfl, rfl, rfl⟩
  | cons line ls ih =>
      obtain ⟨hs, hss⟩ := List.forall_mem_cons.mp hs
      obtain ⟨hb, hbs⟩ := List.forall_mem_cons.mp hb
      obtain ⟨hraised, he, hr⟩ := transformLine_body (r := r) hs hb.1 hb.2
      obtain ⟨hraised', he', hr'⟩ := ih (r := (transformLine U json line r).redactor) hss hbs
      have hcons : (line :: ls).filterMap (lineDelta U json) =
          (lineDelta U json line).toList ++ ls.filterMap (lineDelta U json) := by
        rw [List.filterMap_cons]
        cases lineDelta U json line <;> rfl
      rw [transformLines_cons hraised, hcons, feedAll_append]
      refine ⟨hraised', ?_, ?_⟩
      · rw [received_append, he, he', hr]
      · rw [hr', hr]

theorem transformLine_done (h : lineKind U json line = .done) :
    transformLine U json line r = ⟨released (r.flush U).1 ++ [.done], (r.flush U).2, none⟩ := by
  simp only [transformLine, h]

/-- A client receives what the redactor makes of the deltas. -/
theorem transformLines_stream (s : DeltaStream U json) (hs : ∀ line ∈ s.lines, scalar line) (hb : r.buffer = []) :
    (transformLines U json s.lines r).raised = none ∧
      (transformLines U json s.lines r).emissions.any Emission.isDone ∧
      received (transformLines U json s.lines r).emissions = r.stream U s.deltas := by
  simp only [DeltaStream.lines, List.forall_mem_append, List.forall_mem_cons] at hs
  obtain ⟨hopening, hbody, hclosing, -, hafter⟩ := hs
  obtain ⟨ho, ho', ho''⟩ := transformLines_framing_empty hb hopening s.opening_framing
  obtain ⟨hb, hb', hb''⟩ := transformLines_body (r := r) hbody s.body_ordinary
  obtain ⟨hc, hc'⟩ := transformLines_framing (r := (r.feedAll U s.deltas).2) hclosing s.closing_framing
  have hlast := transformLine_done (r := (transformLines U json s.closing (r.feedAll U s.deltas).2).redactor) s.last_done
  obtain ⟨ha, ha', -⟩ := transformLines_framing_empty
    (r := ((transformLines U json s.closing (r.feedAll U s.deltas).2).redactor.flush U).2) (flush_buffer _) hafter
    s.after_framing
  rw [DeltaStream.lines, transformLines_append ho, ho'', transformLines_append hb, hb'', ← DeltaStream.deltas,
    transformLines_append hc, transformLines_cons (by rw [hlast]), hlast]
  refine ⟨ha, ?_, ?_⟩
  · simp [Emission.isDone]
  · have hflush : received (transformLines U json s.closing (r.feedAll U s.deltas).2).emissions ++
        ((transformLines U json s.closing (r.feedAll U s.deltas).2).redactor.flush U).1 =
          ((r.feedAll U s.deltas).2.flush U).1 := by
      rcases hc' with ⟨he, hr⟩ | ⟨he, hr⟩
      · rw [he, hr, List.nil_append]
      · rw [he, hr, flush_flush, List.append_nil]
    have hdone : received [Emission.done] = [] := rfl
    simp only [received_append, received_released, ho', hb', ha', hdone, List.nil_append, List.append_nil]
    rw [← DeltaStream.deltas, hflush]
    rfl

theorem redactStream_stream {chunks : List Bytes} (s : DeltaStream U json) (hlines : iterLines none chunks = (s.lines, none))
    (hb : r.buffer = []) : (redactStream U json none chunks r).raised = none ∧
      received (redactStream U json none chunks r).emissions = r.stream U s.deltas := by
  have hs : ∀ line ∈ s.lines, scalar line := by
    have h := iterLines_scalar none chunks
    rwa [hlines] at h
  obtain ⟨hraised, hdone, hreceived⟩ := transformLines_stream s hs hb
  rw [redactStream]
  simp only [hlines, hraised, Option.or_none, hdone, if_true, true_and]
  exact hreceived

end Run

end LlmGateway.Guardrail
