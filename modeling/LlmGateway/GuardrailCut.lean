import LlmGateway.GuardrailFrames

namespace LlmGateway.Guardrail

open Sse Redactor Utf8 Splitting
open Json (Members Decoder)

variable {U : Unicode} {json : Decoder} {ls : List Text} {line p t : Text} {r : StreamingRedactor}
variable {frame : Members} {text : Text} {chunks : List Bytes}

section Sent

/-- The text of the message in what is sent. -/
def sentText (sent : List Sent) : Text :=
  sent.flatMap fun
    | .emission e => contentOf e
    | .error _ => []

theorem sentText_append (a b : List Sent) : sentText (a ++ b) = sentText a ++ sentText b := List.flatMap_append

theorem sentText_emissions (es : List Emission) : sentText (es.map .emission) = received es := by
  rw [sentText, List.flatMap_map]
  rfl

theorem sentText_proxyStreaming (config : GuardrailConfig) (requestId : Text) {status : Int} (hstatus : status < 400)
    (ending : Option Raised) : sentText (proxyStreaming U json config requestId (.response status (chunks, ending))).1 =
      received (redactStream U json ending chunks (newRedactor config)).emissions := by
  have herror (e : Sent) (he : sentText [e] = []) (es : List Emission) :
      sentText (es.map Sent.emission ++ [e]) = received es := by
    rw [sentText_append, sentText_emissions, he, List.append_nil]
  simp only [proxyStreaming, if_neg (Int.not_le.mpr hstatus)]
  split
  · exact sentText_emissions _
  · exact herror _ rfl _
  · exact herror _ rfl _
  · exact sentText_emissions _

end Sent

section Upstream

variable (U json) in
/-- The lines of a stream of content frames that [DONE] ends, with the blank
lines between them. -/
structure Upstream where
  body : List Text
  last : Text
  body_content : ∀ line ∈ body, lineKind U json line = .blank ∨
    ∃ frame text, lineKind U json line = .content frame text ∧ ObjectChoices frame
  last_done : lineKind U json last = .done
  no_break : ∀ line ∈ body ++ [last], lf ∉ line

def Upstream.lines (s : Upstream U json) : List Text := s.body ++ [s.last, []]

def Upstream.wireText (s : Upstream U json) : Text := s.lines.flatMap (· ++ [lf])

/-- Wherever the bytes are cut, whole lines and a part of the next one have
arrived, and after [DONE] no part is left over. -/
theorem Upstream.cut (s : Upstream U json) {x : Bytes} (hx : encode s.wireText = some x) (k : Nat) :
    ∃ n, pieces lf (decodeReplace (x.take k)) = s.lines.take n ∧
      (s.body.length < n → rest lf (decodeReplace (x.take k)) = []) := by
  have hlines : ∀ l ∈ s.lines, lf ∉ l := by
    intro l hl
    rw [Upstream.lines, List.append_cons, List.mem_append, List.mem_singleton] at hl
    rcases hl with hl | rfl
    · exact s.no_break l hl
    · exact List.not_mem_nil
  have hafter {n : Nat} {q : Text} (hn : s.body.length < n) (hq : q <+: (s.lines[n]?).getD []) : q = [] := by
    obtain ⟨d, rfl⟩ : ∃ d, n = s.body.length + (d + 1) := ⟨n - s.body.length - 1, by omega⟩
    rw [Upstream.lines, List.getElem?_append_right (Nat.le_add_right _ _), Nat.add_sub_cancel_left] at hq
    cases d with
    | zero => simpa using hq
    | succ d => simpa using hq
  obtain ⟨u, v, hdecode, hv, hprefix⟩ := decode_take hx k
  have hlf : lf ∉ v := fun hmem => absurd (hv lf hmem) (by decide)
  rw [hdecode, (append_of_not_mem hlf).1, (append_of_not_mem hlf).2]
  rcases hprefix with ⟨rfl, hu⟩ | ⟨c, hc, hu⟩
  · obtain ⟨n, hn, hq⟩ := of_prefix hlines hu
    exact ⟨n, hn, fun hlt => by rw [hafter hlt hq, List.append_nil]⟩
  · have hcut : lf ∉ [c] := by
      intro hmem
      rw [← List.mem_singleton.mp hmem] at hc
      exact absurd hc (by decide)
    obtain ⟨n, hn, hq⟩ := of_prefix hlines hu
    rw [(append_of_not_mem hcut).1] at hn
    rw [(append_of_not_mem hcut).2] at hq
    exact ⟨n, hn, fun hlt => absurd (hafter hlt hq) (List.append_ne_nil_of_right_ne_nil _ (List.cons_ne_nil _ _))⟩

end Upstream

section LastLine

variable (U json)

/-- The contents of the frames that are whole in the text. -/
def contents (t : Text) : List Text := (linesOf t).filterMap (lineDelta U json)

/-- transform_line raises nothing at the line. -/
def Readable (r : StreamingRedactor) (line : Text) : Prop :=
  (∀ exc, lineKind U json line ≠ .refused exc) ∧ Unbroken U json r line

variable {U json}

theorem lineDelta_nil : lineDelta U json [] = none := lineDelta_blank rfl

theorem contents_eq (t : Text) :
    contents U json t = (pieces lf t).filterMap (lineDelta U json) ++ (lineDelta U json (rest lf t)).toList := by
  rw [contents, linesOf, records, List.filterMap_append]
  split
  · next h => rw [h, lineDelta_nil]; rfl
  · cases h : lineDelta U json (rest lf t) <;> simp [h]

theorem stream_append (r : StreamingRedactor) (a b : List Text) :
    r.stream U (a ++ b) = (r.feedAll U a).1 ++ (r.feedAll U a).2.stream U b := by
  simp only [StreamingRedactor.stream, feedAll_append, List.append_assoc]

theorem stream_of_flush (r : StreamingRedactor) : r.stream U [] = (r.flush U).1 := List.nil_append _

/-- What the end of the stream adds to the emissions of a run. -/
def closing (U : Unicode) (run : Transformed) : Text :=
  if run.emissions.any Emission.isDone then [] else (run.redactor.flush U).1

theorem readable_nil (r : StreamingRedactor) : Readable U json r [] := by
  refine ⟨fun exc h => ?_, fun frame text h => ?_⟩
  · cases h
  · cases h

/-- A line that nothing follows brings out all that is held and its own text. -/
theorem readable_last (hs : scalar p) (h : Readable U json r p) :
    (transformLine U json p r).raised = none ∧
      received (transformLine U json p r).emissions ++ closing U (transformLine U json p r) =
        r.stream U (lineDelta U json p).toList := by
  have hframes {es : List Emission} (he : ∀ e ∈ es, ∃ payload, e = .frame payload) : es.any Emission.isDone = false := by
    rw [List.any_eq_false]
    intro e hmem
    obtain ⟨payload, rfl⟩ := he e hmem
    exact Bool.false_ne_true
  cases hk : lineKind U json p with
  | blank =>
      rw [transformLine_blank hk, lineDelta_blank hk, Option.toList_none, stream_of_flush]
      exact ⟨rfl, rfl⟩
  | passed stripped =>
      rw [transformLine_passed hk hs, lineDelta, hk, Option.toList_none, stream_of_flush]
      exact ⟨rfl, rfl⟩
  | done =>
      rw [transformLine_done hk, lineDelta, hk, Option.toList_none, stream_of_flush, received_append, received_released]
      refine ⟨rfl, ?_⟩
      have hany : (released (r.flush U).1 ++ [Emission.done]).any Emission.isDone = true := by simp [Emission.isDone]
      rw [closing, if_pos hany]
      exact (List.append_nil _).trans (List.append_nil _)
  | refused exc => exact absurd hk (h.1 exc)
  | bare frame =>
      obtain ⟨hraised, hes, hstep⟩ := transformLine_unfed (r := r) hk
      rw [closing, hframes hes, lineDelta_bare hk, Option.toList_none, stream_of_flush]
      refine ⟨hraised, ?_⟩
      simp only [Bool.false_eq_true, if_false]
      split at hstep
      · rw [hstep.1, hstep.2, flush_flush, List.append_nil]
      · rw [hstep.1, hstep.2, List.nil_append]
  | content frame text =>
      obtain ⟨hraised, hout, hredactor, hes⟩ := transformLine_feeds hk h.2
      rw [closing, hframes hes, lineDelta_content hk, Option.toList_some, hout, hredactor]
      refine ⟨hraised, ?_⟩
      simp only [Bool.false_eq_true, if_false, StreamingRedactor.stream, StreamingRedactor.feedAll, List.append_nil]

/-- A line that raises sends nothing. -/
theorem unreadable_last (h : ¬ Readable U json r p) :
    (transformLine U json p r).raised ≠ none ∧ received (transformLine U json p r).emissions = [] := by
  by_cases hrefused : ∃ exc, lineKind U json p = .refused exc
  · obtain ⟨exc, hk⟩ := hrefused
    simp only [transformLine, hk]
    exact ⟨by simp, rfl⟩
  · have hbroken : ¬ Unbroken U json r p := fun hu => h ⟨fun exc hk => hrefused ⟨exc, hk⟩, hu⟩
    simp only [Unbroken, not_forall] at hbroken
    obtain ⟨frame, text, hk, hsome, hw⟩ := hbroken
    obtain ⟨e, he⟩ := transformLine_broken hk hsome hw
    rw [he]
    exact ⟨by simp, rfl⟩

end LastLine

section Dropped

/-- The whole lines that are read before the end or an exception. -/
def wholeLines (chunks : List Bytes) : List Text := pieces lf (seen (underCap [] chunks))

/-- The lines that have arrived after these. -/
def unread (chunks : List Bytes) : List Text := (linesOf (seen chunks)).drop (wholeLines chunks).length

variable (U json) in
/-- Nothing of what has arrived is lost: either the response ends as it should
and its last line can be read, or nothing is held back after the whole lines and
there is no text in the lines after them. -/
def Kept (ending : Option Raised) (chunks : List Bytes) (r : StreamingRedactor) : Prop :=
  let redactor := (transformLines U json (wholeLines chunks) r).redactor
  (ending = none ∧ WithinCap [] chunks ∧ Readable U json redactor (rest lf (seen chunks))) ∨
    redactor.buffer = [] ∧ ∀ line ∈ unread chunks, lineText U json line = []

theorem wholeLines_isPrefix (chunks : List Bytes) : wholeLines chunks <+: pieces lf (seen chunks) := by
  obtain ⟨post, hpost⟩ := underCap_isPrefix [] chunks
  have hseen : seen chunks = seen (underCap [] chunks) ++ seen post := by
    conv_lhs => rw [← hpost]
    exact seen_append _ _
  rw [hseen, pieces_append]
  exact List.prefix_append _ _

theorem linesOf_seen (chunks : List Bytes) : linesOf (seen chunks) = wholeLines chunks ++ unread chunks :=
  (List.prefix_iff_eq_append.mp ((wholeLines_isPrefix chunks).trans (List.prefix_append _ _))).symm

theorem wholeLines_of_withinCap (h : WithinCap [] chunks) : wholeLines chunks = pieces lf (seen chunks) := by
  rw [wholeLines, underCap_of_withinCap h]

theorem unread_of_withinCap (h : WithinCap [] chunks) :
    (∀ line ∈ unread chunks, lineText U json line = []) ↔ lineText U json (rest lf (seen chunks)) = [] := by
  have hlines := linesOf_seen chunks
  rw [linesOf, records, wholeLines_of_withinCap h, List.append_cancel_left_eq] at hlines
  rw [← hlines]
  split
  · next hnil => exact iff_of_true (fun line hl => absurd hl List.not_mem_nil) (by rw [hnil, lineText, lineDelta_nil]; rfl)
  · rw [List.forall_mem_singleton]

theorem flatten_lineDelta_eq_nil_iff (ls : List Text) :
    (ls.filterMap (lineDelta U json)).flatten = [] ↔ ∀ line ∈ ls, lineText U json line = [] := by
  induction ls with
  | nil => simp
  | cons line ls ih =>
      rw [List.forall_mem_cons, ← ih, lineText]
      cases h : lineDelta U json line with
      | none => simp [h]
      | some text => simp [h]

theorem lineText_eq (p : Text) : (lineDelta U json p).toList.flatten = lineText U json p := by
  rw [lineText]
  cases lineDelta U json p with
  | none => rfl
  | some text => exact List.append_nil text

/-- The lines before the end have told the redactor their texts. -/
structure Fed (U : Unicode) (json : Decoder) (r : StreamingRedactor) (ls : List Text) : Prop where
  raised : (transformLines U json ls r).raised = none
  out : received (transformLines U json ls r).emissions = (r.feedAll U (ls.filterMap (lineDelta U json))).1
  redactor : (transformLines U json ls r).redactor = (r.feedAll U (ls.filterMap (lineDelta U json))).2
  isOpen : (transformLines U json ls r).emissions.any Emission.isDone = false

theorem Upstream.fed (s : Upstream U json) (n : Nat) (hs : ∀ l ∈ s.body.take n, scalar l) (r : StreamingRedactor) :
    Fed U json r (s.body.take n) := by
  have hbody : ∀ l ∈ s.body.take n, Ordinary U json l ∧ ¬ Ends U json l := by
    intro l hl
    rcases s.body_content l (List.mem_of_mem_take hl) with hk | ⟨frame, text, hk, ho⟩
    · refine ⟨by rw [Ordinary, hk]; trivial, fun ⟨frame, h, _⟩ => ?_⟩
      rw [hk] at h
      cases h
    · exact ordinary_content hk ho
  have hframed : ∀ l ∈ s.body.take n, Framed U json l := by
    intro l hl
    rcases s.body_content l (List.mem_of_mem_take hl) with hk | ⟨frame, text, hk, -⟩
    · exact Or.inl hk
    · exact Or.inr (Or.inr ⟨frame, text, hk⟩)
  obtain ⟨h1, h2, h3⟩ := transformLines_body (r := r) hs hbody
  refine ⟨h1, h2, h3, ?_⟩
  rw [List.any_eq_false]
  intro e hmem
  obtain ⟨payload, rfl⟩ := frames_of_framed hframed e hmem
  exact Bool.false_ne_true

theorem Fed.interrupted (h : Fed U json r ls) {ending : Option Raised} {exc : Raised}
    (hlines : iterLines ending chunks = (ls, some exc)) {more : List Text} (ht : linesOf t = ls ++ more) :
    received (redactStream U json ending chunks r).emissions = r.stream U (contents U json t) ↔
      (transformLines U json ls r).redactor.buffer = [] ∧ ∀ line ∈ more, lineText U json line = [] := by
  rw [redactStream]
  simp only [hlines, h.raised, Option.none_or]
  rw [h.out, contents, ht, List.filterMap_append, stream_append, h.redactor, List.self_eq_append_right, stream_eq_nil_iff,
    flatten_lineDelta_eq_nil_iff]

theorem Fed.ended (h : Fed U json r (pieces lf t)) (hp : scalar (rest lf t)) (hlines : iterLines none chunks = (linesOf t, none)) :
    received (redactStream U json none chunks r).emissions = r.stream U (contents U json t) ↔
      Readable U json (transformLines U json (pieces lf t) r).redactor (rest lf t) ∨
        (transformLines U json (pieces lf t) r).redactor.buffer = [] ∧ lineText U json (rest lf t) = [] := by
  have hrun : transformLines U json (linesOf t) r = transformLines U json (pieces lf t ++ [rest lf t]) r := by
    rw [linesOf, records, transformLines_append h.raised, transformLines_append h.raised]
    split
    · next hnil =>
        rw [hnil]
        rfl
    · rfl
  have hlast : transformLines U json [rest lf t] (transformLines U json (pieces lf t) r).redactor =
      transformLine U json (rest lf t) (transformLines U json (pieces lf t) r).redactor := by
    rw [transformLines]
    split
    · next hraised => rw [← hraised]
    · next hraised => simp only [transformLines, List.append_nil, ← hraised]
  rw [redactStream]
  simp only [hlines, hrun, transformLines_append h.raised, hlast, Option.or_none, List.any_append, h.isOpen, Bool.false_or]
  rw [contents_eq, stream_append, ← h.redactor, ← h.out]
  generalize (transformLines U json (pieces lf t) r).redactor = r'
  by_cases hread : Readable U json r' (rest lf t)
  · obtain ⟨hraised, hout⟩ := readable_last hp hread
    refine iff_of_true ?_ (Or.inl hread)
    rw [hraised, ← hout, closing]
    simp only
    split
    · rw [received_append, List.append_nil]
    · rw [received_append, received_append, received_released, List.append_assoc]
  · obtain ⟨hraised, hout⟩ := unreadable_last hread
    obtain ⟨exc, hexc⟩ := Option.ne_none_iff_exists'.mp hraised
    rw [hexc]
    simp only
    rw [received_append, hout, List.append_nil, List.self_eq_append_right, stream_eq_nil_iff, lineText_eq]
    exact ⟨Or.inr, fun h => h.resolve_left hread⟩

/-- Once [DONE] is in, everything is out. -/
theorem Upstream.finished (s : Upstream U json) (hs : ∀ l ∈ s.body, scalar l) (d : Nat) (r : StreamingRedactor) :
    let ls := s.body ++ s.last :: List.take d [[]]
    (transformLines U json ls r).raised = none ∧
      received (transformLines U json ls r).emissions = r.stream U (ls.filterMap (lineDelta U json)) ∧
      (transformLines U json ls r).redactor.buffer = [] ∧
      (transformLines U json ls r).emissions.any Emission.isDone = true := by
  intro ls
  have hfed := s.fed s.body.length (by rwa [List.take_length]) r
  rw [List.take_length] at hfed
  have hblank : ∀ line ∈ List.take d [([] : Text)], lineKind U json line = .blank := by
    intro line hl
    rw [List.mem_singleton.mp (List.mem_of_mem_take hl)]
    rfl
  have hdone := transformLine_done (r := (transformLines U json s.body r).redactor) s.last_done
  have hnone : (s.last :: List.take d [[]]).filterMap (lineDelta U json) = [] := by
    rw [List.filterMap_eq_nil_iff]
    intro line hl
    rcases List.mem_cons.mp hl with rfl | hl
    · rw [lineDelta, s.last_done]
    · exact lineDelta_blank (hblank line hl)
  rw [transformLines_append hfed.raised, transformLines_cons (by rw [hdone]), hdone, transformLines_blank hblank]
  refine ⟨rfl, ?_, flush_buffer _, by simp [Emission.isDone]⟩
  rw [List.filterMap_append, hnone, stream_append, stream_of_flush, received_append, hfed.out, hfed.redactor,
    List.append_nil, received_append, received_released]
  exact congrArg _ (List.append_nil _)

/-- When the terminal frame is in, nothing is lost however the response ends. -/
theorem Upstream.terminated (s : Upstream U json) (hs : ∀ l ∈ s.body, scalar l) {d : Nat} (r : StreamingRedactor)
    {ending exc : Option Raised} (hlines : iterLines ending chunks = (s.body ++ s.last :: List.take d [[]], exc)) :
    received (redactStream U json ending chunks r).emissions =
      r.stream U ((s.body ++ s.last :: List.take d [[]]).filterMap (lineDelta U json)) := by
  obtain ⟨hraised, hout, -, hdone⟩ := s.finished hs d r
  rw [redactStream, ← hout]
  simp only [hlines, hraised, Option.none_or]
  cases exc with
  | none => simp only [hdone, if_true]
  | some exc => rfl

/-- The whole lines are lines of the stream, and after [DONE] come only blank ones. -/
theorem Upstream.wholeLines (s : Upstream U json) {x : Bytes} (hx : encode s.wireText = some x) (k : Nat)
    (hseen : seen chunks = decodeReplace (x.take k)) :
    Guardrail.wholeLines chunks = s.lines.take (Guardrail.wholeLines chunks).length ∧
      (s.body.length < (Guardrail.wholeLines chunks).length →
        rest lf (seen chunks) = [] ∧ ∀ line ∈ unread chunks, line = []) := by
  obtain ⟨n, hn, hnil⟩ := s.cut hx k
  rw [← hseen] at hn hnil
  have hwhole : Guardrail.wholeLines chunks <+: s.lines := by
    have h := wholeLines_isPrefix chunks
    rw [hn] at h
    exact h.trans (List.take_prefix n s.lines)
  refine ⟨List.prefix_iff_eq_take.mp hwhole, fun hlt => ?_⟩
  have hle : (Guardrail.wholeLines chunks).length ≤ n := by
    have h := (wholeLines_isPrefix chunks).length_le
    rw [hn, List.length_take] at h
    omega
  have hrest := hnil (by omega)
  refine ⟨hrest, fun line hl => ?_⟩
  rw [unread, linesOf, records, hrest, if_pos rfl, List.append_nil, hn] at hl
  obtain ⟨d, hd⟩ : ∃ d, (Guardrail.wholeLines chunks).length = s.body.length + (d + 1) :=
    ⟨(Guardrail.wholeLines chunks).length - s.body.length - 1, by omega⟩
  have hmem := (List.Sublist.drop (List.take_sublist n s.lines) _).mem hl
  rw [hd, Upstream.lines, List.drop_length_add_append] at hmem
  exact List.mem_singleton.mp (List.mem_of_mem_drop hmem)

/-- What a client has of a connection that drops is what one redactor makes of
the whole frames exactly when nothing of them is lost. -/
theorem dropped_iff (s : Upstream U json) {x : Bytes} (hx : encode s.wireText = some x) (k : Nat)
    (hcut : chunks.flatten = x.take k) (hseen : seen chunks = decodeReplace chunks.flatten)
    (config : GuardrailConfig) (requestId : Text) {status : Int} (hstatus : status < 400) (ending : Option Raised) :
    sentText (proxyStreaming U json config requestId (.response status (chunks, ending))).1 =
        (newRedactor config).stream U (contents U json (decodeReplace (x.take k))) ↔
      Kept U json ending chunks (newRedactor config) := by
  rw [hcut] at hseen
  rw [sentText_proxyStreaming config requestId hstatus, ← hseen]
  obtain ⟨hwhole, hafter⟩ := s.wholeLines hx k hseen
  have hsub {l : Text} (hl : ∀ c ∈ l, c ∈ seen chunks) : scalar l := by
    rw [hseen] at hl
    exact scalar_of_subset (scalar_decodeReplace (x.take k)) hl
  have hscalar : ∀ l ∈ wholeLines chunks, scalar l := fun l hl =>
    hsub fun c hc => mem_of_mem_pieces ((wholeLines_isPrefix chunks).subset hl) hc
  rcases Nat.lt_or_ge s.body.length (wholeLines chunks).length with hlt | hle
  · obtain ⟨hrest, hblank⟩ := hafter hlt
    obtain ⟨d, hd⟩ : ∃ d, (wholeLines chunks).length = s.body.length + (d + 1) :=
      ⟨(wholeLines chunks).length - s.body.length - 1, by omega⟩
    rw [hd, Upstream.lines, List.take_length_add_append] at hwhole
    have hbody : ∀ l ∈ s.body, scalar l := fun l hl => hscalar l (by rw [hwhole]; exact List.mem_append_left _ hl)
    obtain ⟨exc, hlines⟩ : ∃ exc, iterLines ending chunks = (wholeLines chunks, exc) := by
      cases hraised : (iterLines ending chunks).2 with
      | some exc => exact ⟨_, iterLines_raised hraised⟩
      | none =>
          obtain ⟨rfl, hfit⟩ := (iterLines_none_iff _).mp hraised
          refine ⟨none, (iterLines_ended hfit).trans ?_⟩
          rw [linesOf, records, hrest, if_pos rfl, List.append_nil, wholeLines_of_withinCap hfit]
    have hnone : (unread chunks).filterMap (lineDelta U json) = [] := by
      rw [List.filterMap_eq_nil_iff]
      intro line hl
      rw [hblank line hl]
      exact lineDelta_nil
    refine iff_of_true ?_ (Or.inr ⟨?_, fun line hl => ?_⟩)
    · rw [hwhole] at hlines
      rw [contents, linesOf_seen, List.filterMap_append, hnone, List.append_nil, hwhole]
      exact s.terminated hbody _ hlines
    · rw [hwhole]
      exact (s.finished hbody d _).2.2.1
    · rw [hblank line hl, lineText, lineDelta_nil]
      rfl
  · rw [Upstream.lines, List.take_append_of_le_length hle] at hwhole
    have hfed := s.fed _ (fun l hl => hscalar l (by rw [hwhole]; exact hl)) (newRedactor config)
    rw [← hwhole] at hfed
    cases hraised : (iterLines ending chunks).2 with
    | some exc =>
        have hclean : ¬ (ending = none ∧ WithinCap [] chunks) := by
          rw [← iterLines_none_iff ending, hraised]
          exact Option.some_ne_none exc
        rw [Kept, or_iff_right fun h => hclean ⟨h.1, h.2.1⟩]
        exact hfed.interrupted (iterLines_raised hraised) (linesOf_seen chunks)
    | none =>
        obtain ⟨rfl, hfit⟩ := (iterLines_none_iff _).mp hraised
        rw [wholeLines_of_withinCap hfit] at hfed
        rw [Kept, unread_of_withinCap hfit, wholeLines_of_withinCap hfit, hfed.ended (hsub fun c hc => mem_of_mem_rest hc)
          (iterLines_ended hfit)]
        simp only [true_and, hfit]

def heldFrames : List Members := [deltaFrame (str "hi 4111"), deltaFrame (str " x")]

/-- Digits at the end of the first delta are held back until the second one. -/
def heldStream : Upstream .ascii (knowing heldFrames) where
  body := bodyOf heldFrames
  last := dataLine done
  body_content line hl := by
    obtain ⟨frame, hframe, hl⟩ := List.mem_flatMap.mp hl
    rcases List.mem_cons.mp hl with rfl | hl
    · simp only [heldFrames, List.mem_cons, List.not_mem_nil, or_false] at hframe
      rcases hframe with rfl | rfl
      · exact Or.inr ⟨_, _, rfl, objectChoices_deltaFrame _⟩
      · exact Or.inr ⟨_, _, rfl, objectChoices_deltaFrame _⟩
    · rw [List.mem_singleton.mp hl]
      exact Or.inl rfl
  last_done := rfl
  no_break := by decide +kernel

def heldBytes (k : Nat) : Bytes := (asciiBytes heldStream.wireText).take k

theorem dropped_between_frames :
    sentText (proxyStreaming .ascii (knowing heldFrames) luhnConfig (str "id") (.response 200 ([heldBytes 53], none))).1 =
      (newRedactor luhnConfig).stream .ascii (contents .ascii (knowing heldFrames) (decodeReplace (heldBytes 53))) := by
  have hempty : rest lf (seen [heldBytes 53]) = [] := by decide +kernel
  have hfit : WithinCap [] [heldBytes 53] := ((iterLines_none_iff none).mp (by decide +kernel)).2
  refine (dropped_iff heldStream (x := asciiBytes heldStream.wireText) (by decide +kernel) 53 (by rfl) (by decide +kernel)
    luhnConfig (str "id") (by decide) none).mpr (Or.inl ⟨rfl, hfit, ?_⟩)
  rw [hempty]
  exact readable_nil _

/-- Both a failure of the connection between two frames and its end inside the
second one lose the digits. -/
theorem dropped_digits :
    let sent (k : Nat) (ending : Option Raised) := sentText (proxyStreaming .ascii (knowing heldFrames) luhnConfig (str "id")
      (.response 200 ([heldBytes k], ending))).1
    let whole (k : Nat) := (newRedactor luhnConfig).stream .ascii
      (contents .ascii (knowing heldFrames) (decodeReplace (heldBytes k)))
    sent 53 (some .httpError) = str "hi " ∧ whole 53 = str "hi 4111" ∧
      sent 63 none = str "hi " ∧ whole 63 = str "hi 4111" := by
  refine ⟨by decide +kernel, by decide +kernel, by decide +kernel, by decide +kernel⟩

end Dropped

end LlmGateway.Guardrail
