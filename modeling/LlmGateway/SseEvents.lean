import LlmGateway.GuardrailAgreement
import LlmGateway.SsePackets

namespace LlmGateway.Sse

open Redactor Splitting Utf8
open Json (Members Decoder)
open Guardrail (ReadsBack)

variable {U : Unicode} {json : Decoder} {r : StreamingRedactor} {frame : Members}

section Plain

variable (U json)

/-- The frame of a line if it has no text. -/
def frameOf (line : Text) : Option Members :=
  match lineKind U json line with
  | .bare frame => some frame
  | _ => none

variable {U json} {line : Text} {ls : List Text} {ending : Option Raised} {chunks : List Bytes}

def plainFrame : Emission → Option Members
  | .frame payload => if (deltaText payload).isNone then some payload else none
  | .passed _ | .done => none

theorem filterMap_released (tail : Text) : (released tail).filterMap plainFrame = [] := by
  rw [released]
  split <;> rfl

/-- Only a frame without text is sent as a frame without text. -/
theorem filterMap_transformLine (line : Text) (r : StreamingRedactor) :
    (transformLine U json line r).emissions.filterMap plainFrame = (frameOf U json line).toList := by
  rw [transformLine, frameOf]
  cases hk : lineKind U json line with
  | blank | refused exc => rfl
  | passed stripped =>
      dsimp only
      split <;> rfl
  | done =>
      dsimp only
      rw [List.filterMap_append, filterMap_released]
      rfl
  | bare frame =>
      have hframe : [Emission.frame frame].filterMap plainFrame = [frame] := by
        simp [plainFrame, deltaText_of_bare hk]
      dsimp only
      split
      · dsimp only
        rw [List.filterMap_append, filterMap_released, hframe]
        rfl
      · exact hframe
  | content frame text =>
      dsimp only
      split
      · rfl
      · split
        · rfl
        · next hw => simp [plainFrame, Inspected.deltaText_withText hw]

theorem filterMap_transformLines (ls : List Text) (r : StreamingRedactor) :
    (transformLines U json ls r).emissions.filterMap plainFrame = (handled U json ls r).filterMap (frameOf U json) := by
  rw [List.filterMap_eq_flatMap_toList (frameOf U json)]
  induction ls generalizing r with
  | nil => rfl
  | cons line ls ih =>
      have hline : (transformLine U json line r).emissions.filterMap plainFrame = (frameOf U json line).toList :=
        filterMap_transformLine line r
      rw [transformLines, handled]
      cases (transformLine U json line r).raised with
      | some exc =>
          dsimp only
          rw [hline, List.flatMap_singleton]
      | none =>
          dsimp only
          rw [List.filterMap_append, hline, ih, List.flatMap_cons]

theorem filterMap_redactStream (ending : Option Raised) (chunks : List Bytes) (r : StreamingRedactor) :
    (redactStream U json ending chunks r).emissions.filterMap plainFrame =
      (streamLines U json ending chunks r).filterMap (frameOf U json) := by
  rw [streamLines, ← filterMap_transformLines, redactStream]
  dsimp only
  split
  · rfl
  · split
    · rfl
    · rw [List.filterMap_append, filterMap_released, List.append_nil]

end Plain

section Heard

variable {es : List Emission}

/-- What a client dispatches for a piece of the stream. -/
def heardOf : Emission → List Dispatched
  | .passed _ => []
  | .done => [⟨defaultType, done⟩]
  | .frame payload => [⟨defaultType, Emission.payloadText payload⟩]

/-- A comment or the name of an event. -/
def Silent (t : Text) : Prop := ∃ line : Line, t = line.comment.text ∨ t = line.event.text

theorem clientLines_passed (line : Line) : clientLines (Emission.passed line.text).text = [line.text, []] :=
  pieces_blankLine line.whole.1 line.whole.2

theorem listen_data_emission {v : Text} (hlf : lf ∉ v) (hcr : cr ∉ v) :
    listen .empty (clientLines (dataPrefix ++ v ++ str "\n\n")) = ([⟨defaultType, v⟩], .empty) := by
  have hlines : clientLines (dataPrefix ++ v ++ str "\n\n") = [dataPrefix ++ v, []] := by
    apply pieces_blankLine
    · rw [List.mem_append, not_or]
      exact ⟨by decide, hlf⟩
    · rw [List.mem_append, not_or]
      exact ⟨by decide, hcr⟩
  rw [hlines]
  exact listen_data [] v

theorem listen_emission (e : Emission) (h : ∀ t, e = .passed t → Silent t) :
    listen .empty (clientLines e.text) = (heardOf e, .empty) := by
  cases e with
  | passed t =>
      obtain ⟨line, rfl | rfl⟩ := h t rfl
      · rw [clientLines_passed]
        rfl
      · rw [clientLines_passed]
        rfl
  | done => exact listen_data_emission (by decide) (by decide)
  | frame payload =>
      have hprinted := not_mem_of_printed (printed_payloadText payload)
      exact listen_data_emission hprinted.1 hprinted.2

theorem head?_text {e : Emission} (h : ∀ t, e = .passed t → Silent t) : e.text.head? ≠ some byteOrderMark := by
  cases e with
  | passed t =>
      obtain ⟨line, rfl | rfl⟩ := h t rfl
      · exact fun h => absurd (Option.some.inj h) (by decide)
      · exact fun h => absurd (Option.some.inj h) (by decide)
  | done => decide
  | frame payload => exact fun h => absurd (Option.some.inj h) (by decide)

theorem clientEvents_emissions (hsilent : ∀ t, .passed t ∈ es → Silent t) (hs : ∀ e ∈ es, scalar e.text) :
    ∃ x, wire (es.map Emission.text) = some x ∧ clientEvents x = es.flatMap heardOf := by
  obtain ⟨x, hx, hd⟩ := wire_emissions es hs
  refine ⟨x, hx, ?_⟩
  have hmark : unmarked (es.map Emission.text) = es.map Emission.text :=
    unmarked_of_head (List.forall_mem_map.mpr fun e he => head?_text fun t ht => hsilent t (ht ▸ he))
  rw [hmark] at hd
  rw [clientEvents, hd, clientLines, pieces_flatten (List.forall_mem_map.mpr fun e _ => text_eq e), List.flatMap_map]
  exact congrArg Prod.fst (listen_flatMap es fun e he => listen_emission e fun t ht => hsilent t (ht ▸ he))

end Heard

section Values

variable {es : List Emission}

variable (json) in
/-- An event whose data is the JSON of an object without text. -/
structure Event extends Packet where
  frame : Members
  parsed : json.loads value.text = .ok (.dict frame)
  textless : deltaText frame = none

variable (json) in
/-- An event with its data as a JSON value. -/
def typedValue (e : Dispatched) : Text × Except Json.LoadError Json := (e.type, json.loads e.data)

def Event.typed (event : Event json) : Text × Except Json.LoadError Json := (event.type, .ok (.dict event.frame))

/-- A line that passes, or a frame without text. -/
def Plain : Emission → Prop
  | .passed _ => True
  | .done => False
  | .frame payload => deltaText payload = none

theorem typed_heard (hplain : ∀ e ∈ es, Plain e) (hback : ∀ payload, .frame payload ∈ es → ReadsBack json payload) :
    (es.flatMap heardOf).map (typedValue json) =
      (es.filterMap plainFrame).map fun frame => (defaultType, .ok (.dict frame)) := by
  induction es with
  | nil => rfl
  | cons e es ih =>
      obtain ⟨he, hes⟩ := List.forall_mem_cons.mp hplain
      have hrest := ih hes fun payload hp => hback payload (List.mem_cons_of_mem e hp)
      rw [List.flatMap_cons, List.map_append, hrest]
      cases e with
      | passed t => rfl
      | done => exact he.elim
      | frame payload =>
          have hread : json.loads (Emission.payloadText payload) = .ok (.dict payload) := hback payload List.mem_cons_self
          have hframe : plainFrame (.frame payload) = some payload := by
            rw [Plain] at he
            rw [plainFrame, he]
            rfl
          rw [List.filterMap_cons_some hframe, List.map_cons, heardOf, List.map_singleton, typedValue, hread]
          rfl

/-- The same is heard exactly if every frame is sent as it is and no event has a
type of its own. -/
theorem heard_iff (events : List (Event json)) (hdone : ∀ v, json.loads done ≠ .ok v)
    (hback : ∀ payload, .frame payload ∈ es → ReadsBack json payload) :
    (es.flatMap heardOf).map (typedValue json) = events.map Event.typed ↔
      (∀ event ∈ events, event.type = defaultType) ∧ (∀ e ∈ es, Plain e) ∧
        es.filterMap plainFrame = events.map Event.frame := by
  constructor
  · intro h
    have hmem {e : Emission} {d : Dispatched} (he : e ∈ es) (hd : d ∈ heardOf e) :
        ∃ event ∈ events, event.typed = typedValue json d := by
      rw [← List.mem_map, ← h]
      exact List.mem_map_of_mem (List.mem_flatMap.mpr ⟨e, he, hd⟩)
    have hplain : ∀ e ∈ es, Plain e := by
      intro e he
      cases e with
      | passed t => trivial
      | done =>
          obtain ⟨event, -, heq⟩ := hmem he List.mem_cons_self
          exact hdone _ (congrArg Prod.snd heq).symm
      | frame payload =>
          obtain ⟨event, -, heq⟩ := hmem he List.mem_cons_self
          have hsame : event.typed.2 = .ok (.dict payload) := (congrArg Prod.snd heq).trans (hback payload he)
          cases hsame
          exact event.textless
    rw [typed_heard hplain hback] at h
    refine ⟨fun event he => ?_, hplain, ?_⟩
    · have htyped : event.typed ∈ events.map Event.typed := List.mem_map_of_mem he
      rw [← h] at htyped
      obtain ⟨frame, -, heq⟩ := List.mem_map.mp htyped
      exact (congrArg Prod.fst heq).symm
    · have hvalues := congrArg (List.map Prod.snd) h
      rw [List.map_map, List.map_map] at hvalues
      have hinj : Function.Injective fun frame : Members => (Except.ok (.dict frame) : Except Json.LoadError Json) := by
        intro a b hab
        cases hab
        rfl
      apply List.map_injective_iff.mpr hinj
      rw [List.map_map]
      exact hvalues
  · rintro ⟨htypes, hplain, hframes⟩
    rw [typed_heard hplain hback, hframes, List.map_map]
    refine List.map_congr_left fun event he => ?_
    rw [Event.typed, htypes event he]
    rfl

end Values

section Textless

variable (U json)

/-- A line that does not concern the redactor. -/
def Textless (line : Text) : Prop :=
  match lineKind U json line with
  | .blank | .passed _ | .bare _ => True
  | .done | .refused _ | .content _ _ => False

/-- What such a line is turned into. -/
def emissionsOf (line : Text) : List Emission :=
  match lineKind U json line with
  | .passed stripped => [.passed stripped]
  | .bare frame => [.frame frame]
  | _ => []

variable {U json} {line : Text} {ls : List Text} {chunks : List Bytes}

theorem transformLine_textless (h : Textless U json line) (hs : scalar line) (hb : r.buffer = []) :
    transformLine U json line r = ⟨emissionsOf U json line, r, none⟩ := by
  rw [Textless] at h
  rw [emissionsOf]
  cases hk : lineKind U json line with
  | blank => simp only [transformLine, hk]
  | passed stripped => exact Guardrail.transformLine_passed hk hs
  | bare frame =>
      have hflush := Guardrail.flush_of_buffer (U := U) hb
      simp only [transformLine, hk, hflush]
      split <;> rfl
  | done | refused exc | content frame text =>
      rw [hk] at h
      exact h.elim

theorem transformLines_textless (h : ∀ line ∈ ls, Textless U json line) (hs : ∀ line ∈ ls, scalar line) (hb : r.buffer = []) :
    transformLines U json ls r = ⟨ls.flatMap (emissionsOf U json), r, none⟩ := by
  induction ls with
  | nil => rfl
  | cons line ls ih =>
      obtain ⟨hline, hls⟩ := List.forall_mem_cons.mp h
      obtain ⟨hscalar, hscalars⟩ := List.forall_mem_cons.mp hs
      rw [transformLines, transformLine_textless hline hscalar hb]
      simp only [ih hls hscalars, List.flatMap_cons]

/-- Without text the stream is a matter of the lines alone. -/
theorem redactStream_textless {ending : Option Raised} (h : ∀ line ∈ (iterLines ending chunks).1, Textless U json line)
    (hb : r.buffer = []) :
    (redactStream U json ending chunks r).emissions = (iterLines ending chunks).1.flatMap (emissionsOf U json) := by
  have hflush := Guardrail.flush_of_buffer (U := U) hb
  rw [redactStream]
  simp only [transformLines_textless h (iterLines_scalar ending chunks) hb, Option.none_or]
  split
  · rfl
  · split
    · rfl
    · rw [hflush]
      exact List.append_nil _

theorem plain_emissionsOf {e : Emission} (he : e ∈ emissionsOf U json line) : Plain e := by
  rw [emissionsOf] at he
  cases hk : lineKind U json line with
  | passed stripped =>
      rw [hk] at he
      rw [List.mem_singleton.mp he]
      trivial
  | bare frame =>
      rw [hk] at he
      rw [List.mem_singleton.mp he]
      exact deltaText_of_bare hk
  | blank | done | refused exc | content frame text =>
      rw [hk] at he
      cases he

theorem filterMap_emissionsOf (ls : List Text) :
    (ls.flatMap (emissionsOf U json)).filterMap plainFrame = ls.filterMap (frameOf U json) := by
  rw [List.filterMap_flatMap, List.filterMap_eq_flatMap_toList]
  refine List.flatMap_congr fun line _ => ?_
  rw [emissionsOf, frameOf]
  cases hk : lineKind U json line with
  | bare frame => simp [plainFrame, deltaText_of_bare hk]
  | blank | passed stripped | done | refused exc | content frame text => rfl

end Textless

section Reading

variable {packets : List Packet} {chunks : List Bytes}

theorem lineKind_comment (line : Line) : lineKind U json line.comment.read = .passed line.comment.text := by
  rw [lineKind]
  simp only [Line.rstripCr_read]
  rfl

theorem lineKind_event (line : Line) : lineKind U json line.event.read = .passed line.event.text := by
  rw [lineKind]
  simp only [Line.rstripCr_read]
  rfl

theorem lineKind_blank (crlf : Bool) : lineKind U json (Line.blank crlf).read = .blank := by
  rw [lineKind]
  simp only [Line.rstripCr_read]
  rfl

theorem lineKind_data (line : Line) : lineKind U json line.data.read =
    if U.strip line.text = done then .done
    else
      match json.loads (U.strip line.text) with
      | .error e => .refused (raisedBy e)
      | .ok (.dict frame) =>
        match deltaText frame with
        | none => .bare frame
        | some text => .content frame text
      | .ok _ => .refused (.malformedStream "upstream sent a data frame that is not an object") := by
  have hprefix : dataPrefix.isPrefixOf (dataPrefix ++ line.text) = true := rfl
  have hdrop : (dataPrefix ++ line.text).drop dataPrefix.length = line.text := rfl
  have htext : line.data.text = dataPrefix ++ line.text := rfl
  rw [lineKind]
  simp only [Line.rstripCr_read, htext, hprefix, hdrop]
  rfl

/-- The data of an event is read as a frame without text. -/
theorem frameOf_data (hdone : ∀ v, json.loads done ≠ .ok v) (line : Line) : frameOf U json line.data.read = some frame ↔
    json.loads (U.strip line.text) = .ok (.dict frame) ∧ deltaText frame = none := by
  rw [frameOf, lineKind_data]
  by_cases hstrip : U.strip line.text = done
  · rw [if_pos hstrip, hstrip]
    exact iff_of_false (by simp) fun h => hdone _ h.1
  · rw [if_neg hstrip]
    cases json.loads (U.strip line.text) with
    | error e => simp
    | ok v =>
        cases v with
        | dict frame' =>
            cases hd : deltaText frame' with
            | none =>
                simp only [hd, Option.some.injEq, Except.ok.injEq, Json.dict.injEq]
                exact ⟨fun h => ⟨h, h ▸ hd⟩, And.left⟩
            | some text =>
                simp only [hd, Except.ok.injEq, Json.dict.injEq]
                exact iff_of_false (by simp) fun h => by simp [← h.1, hd] at h
        | _ => simp

/-- What a proxy makes of the data of an event. -/
def packetFrame (U : Unicode) (json : Decoder) (packet : Packet) : Option Members := frameOf U json packet.value.data.read

/-- The lines of the stream as they are read. -/
def readLines (packets : List Packet) : List Text := (packets.flatMap Packet.lines).map Line.read

theorem filterMap_readLines (packets : List Packet) :
    (readLines packets).filterMap (frameOf U json) = packets.filterMap (packetFrame U json) := by
  have hcomment (line : Line) : frameOf U json line.comment.read = none := by rw [frameOf, lineKind_comment]
  have hname (line : Line) : frameOf U json line.event.read = none := by rw [frameOf, lineKind_event]
  have hblank (crlf : Bool) : frameOf U json (Line.blank crlf).read = none := by rw [frameOf, lineKind_blank]
  rw [readLines, List.map_flatMap, List.filterMap_flatMap, List.filterMap_eq_flatMap_toList]
  refine List.flatMap_congr fun packet _ => ?_
  have hvalue : ([packet.value.data, Line.blank packet.blank].map Line.read).filterMap (frameOf U json) =
      (packetFrame U json packet).toList := by
    rw [packetFrame, List.map_cons, List.filterMap_cons, List.map_singleton, List.filterMap_cons_none (hblank _)]
    cases frameOf U json packet.value.data.read <;> rfl
  rw [Packet.lines, List.map_append, List.filterMap_append, hvalue]
  cases packet.comment <;> cases packet.name <;> simp [hcomment, hname]

theorem read_kinds {l : Text} (h : l ∈ readLines packets) : (∃ line : Line, l = line.comment.read) ∨
    (∃ line : Line, l = line.event.read) ∨ (∃ packet ∈ packets, l = packet.value.data.read) ∨
      ∃ crlf, l = (Line.blank crlf).read := by
  obtain ⟨line, hline, rfl⟩ := List.mem_map.mp h
  obtain ⟨packet, hpacket, hline⟩ := List.mem_flatMap.mp hline
  simp only [Packet.lines, List.mem_append, List.mem_map, List.mem_cons, List.not_mem_nil, or_false] at hline
  rcases hline with (⟨comment, -, rfl⟩ | ⟨name, -, rfl⟩) | rfl | rfl
  · exact Or.inl ⟨comment, rfl⟩
  · exact Or.inr (Or.inl ⟨name, rfl⟩)
  · exact Or.inr (Or.inr (Or.inl ⟨packet, hpacket, rfl⟩))
  · exact Or.inr (Or.inr (Or.inr ⟨packet.blank, rfl⟩))

theorem lineKind_data_ne_passed (line : Line) (t : Text) : lineKind U json line.data.read ≠ .passed t := by
  rw [lineKind_data]
  split
  · exact LineKind.noConfusion
  · split
    · exact LineKind.noConfusion
    · split <;> exact LineKind.noConfusion
    · exact LineKind.noConfusion

/-- Comments and names are all that passes. -/
theorem silent_of_read {l t : Text} (h : l ∈ readLines packets) (hk : lineKind U json l = .passed t) : Silent t := by
  rcases read_kinds h with ⟨line, rfl⟩ | ⟨line, rfl⟩ | ⟨packet, -, rfl⟩ | ⟨crlf, rfl⟩
  · rw [lineKind_comment] at hk
    cases hk
    exact ⟨line, Or.inl rfl⟩
  · rw [lineKind_event] at hk
    cases hk
    exact ⟨line, Or.inr rfl⟩
  · exact absurd hk (lineKind_data_ne_passed _ _)
  · rw [lineKind_blank] at hk
    cases hk

theorem textless_of_read (hall : ∀ packet ∈ packets, (packetFrame U json packet).isSome) {l : Text}
    (h : l ∈ readLines packets) : Textless U json l := by
  rw [Textless]
  rcases read_kinds h with ⟨line, rfl⟩ | ⟨line, rfl⟩ | ⟨packet, hpacket, rfl⟩ | ⟨crlf, rfl⟩
  · rw [lineKind_comment]
    trivial
  · rw [lineKind_event]
    trivial
  · have hframe := hall packet hpacket
    rw [packetFrame, frameOf] at hframe
    cases hk : lineKind U json packet.value.data.read with
    | blank | passed stripped | bare frame => trivial
    | done | refused exc | content frame text => simp [hk] at hframe
  · rw [lineKind_blank]
    trivial

theorem pieces_seen (hseen : seen chunks = streamText packets) :
    pieces lf (seen chunks) = readLines packets ∧ rest lf (seen chunks) = [] := by
  rw [hseen]
  exact pieces_ended _

theorem iterLines_read (hseen : seen chunks = streamText packets) (hfit : WithinCap [] chunks) :
    (iterLines none chunks).1 = readLines packets := by
  obtain ⟨hpieces, hrest⟩ := pieces_seen hseen
  rw [iterLines_ended hfit, linesOf, records, hrest, if_pos rfl, List.append_nil, hpieces]

/-- The lines that are not read are none, or more than the cap. -/
theorem iterLines_tail (hseen : seen chunks = streamText packets) :
    ∃ tail, readLines packets = (iterLines none chunks).1 ++ tail ∧
      (WithinCap [] chunks ∧ tail = [] ∨ maxLineBytes < (tail.flatMap (· ++ [lf])).length) := by
  by_cases hfit : WithinCap [] chunks
  · exact ⟨[], by rw [iterLines_read hseen hfit, List.append_nil], Or.inl ⟨hfit, rfl⟩⟩
  · obtain ⟨hpieces, hrest⟩ := pieces_seen hseen
    obtain ⟨tail, htail, hlong⟩ := unread_of_not_withinCap hfit
    have hexc : (iterLines none chunks).2 ≠ none := fun h => hfit ((iterLines_none_iff none).mp h).2
    obtain ⟨exc, hexc⟩ := Option.ne_none_iff_exists'.mp hexc
    rw [hpieces] at htail
    rw [hrest, List.append_nil] at hlong
    refine ⟨tail, ?_, Or.inr hlong⟩
    rw [iterLines_raised hexc, htail]

/-- More lines than the last blank one have some data. -/
theorem data_mem_tail {tail : List Text} (htail : tail <:+ readLines packets)
    (hlong : maxLineBytes < (tail.flatMap (· ++ [lf])).length) : ∃ packet ∈ packets, packet.value.data.read ∈ tail := by
  rcases List.eq_nil_or_concat' packets with rfl | ⟨before, packet, rfl⟩
  · rw [List.suffix_nil.mp htail] at hlong
    exact absurd hlong (by decide)
  · refine ⟨packet, by simp, ?_⟩
    have hlast : [packet.value.data, Line.blank packet.blank].map Line.read <:+ readLines (before ++ [packet]) := by
      apply List.IsSuffix.map
      rw [List.flatMap_append, List.flatMap_singleton, Packet.lines, ← List.append_assoc]
      exact List.suffix_append _ _
    rcases List.suffix_or_suffix_of_suffix htail hlast with hshort | hshort
    · rcases List.suffix_cons_iff.mp hshort with rfl | hshort
      · exact List.mem_cons_self
      · have hle : (tail.flatMap (· ++ [lf])).length ≤ 2 := by
          rcases List.suffix_cons_iff.mp hshort with rfl | hshort
          · cases packet.blank <;> decide
          · rw [List.suffix_nil.mp hshort]
            decide
        have hcap : 2 < maxLineBytes := by decide
        omega
    · exact hshort.subset List.mem_cons_self

end Reading

section Stream

variable {packets : List Packet} {chunks : List Bytes} {events : List (Event json)}

theorem values_of_frames (hdone : ∀ v, json.loads done ≠ .ok v)
    (hall : ∀ packet ∈ packets, (packetFrame U json packet).isSome) :
    packets.map (fun packet => json.loads (U.strip packet.value.text)) =
      (packets.filterMap (packetFrame U json)).map fun frame => .ok (.dict frame) := by
  induction packets with
  | nil => rfl
  | cons packet packets ih =>
      obtain ⟨hpacket, hpackets⟩ := List.forall_mem_cons.mp hall
      obtain ⟨frame, hframe⟩ := Option.isSome_iff_exists.mp hpacket
      have hvalue := ((frameOf_data hdone packet.value).mp hframe).1
      rw [List.map_cons, hvalue, ih hpackets, List.filterMap_cons_some hframe, List.map_cons]

theorem ok_dict_injective : Function.Injective fun frame : Members => (Except.ok (.dict frame) : Except Json.LoadError Json) := by
  intro a b h
  cases h
  rfl

/-- All frames are sent as they are if the lines are read and the data are the
same for a proxy. -/
theorem plain_of_values (hseen : seen chunks = streamText packets) (hdone : ∀ v, json.loads done ≠ .ok v) (hb : r.buffer = [])
    (hfit : WithinCap [] chunks) (hvalues : packets.map (fun packet => json.loads (U.strip packet.value.text)) =
      events.map fun event => .ok (.dict event.frame)) :
    (∀ e ∈ (redactStream U json none chunks r).emissions, Plain e) ∧
      (redactStream U json none chunks r).emissions.filterMap plainFrame = events.map Event.frame := by
  have hall : ∀ packet ∈ packets, (packetFrame U json packet).isSome := by
    intro packet hpacket
    have hmem : json.loads (U.strip packet.value.text) ∈ events.map fun event => .ok (.dict event.frame) := by
      rw [← hvalues]
      exact List.mem_map_of_mem hpacket
    obtain ⟨event, -, hevent⟩ := List.mem_map.mp hmem
    exact Option.isSome_iff_exists.mpr ⟨event.frame, (frameOf_data hdone packet.value).mpr ⟨hevent.symm, event.textless⟩⟩
  have hlines := iterLines_read hseen hfit
  have htextless : ∀ l ∈ (iterLines none chunks).1, Textless U json l := by
    rw [hlines]
    exact fun l hl => textless_of_read hall hl
  rw [redactStream_textless htextless hb, filterMap_emissionsOf, hlines, filterMap_readLines]
  constructor
  · intro e he
    obtain ⟨l, -, hl⟩ := List.mem_flatMap.mp he
    exact plain_emissionsOf hl
  · apply List.map_injective_iff.mpr ok_dict_injective
    rw [← values_of_frames hdone hall, hvalues, List.map_map]
    rfl

theorem values_of_plain (hseen : seen chunks = streamText packets) (hlength : packets.length = events.length)
    (hdone : ∀ v, json.loads done ≠ .ok v)
    (hframes : (redactStream U json none chunks r).emissions.filterMap plainFrame = events.map Event.frame) :
    WithinCap [] chunks ∧ packets.map (fun packet => json.loads (U.strip packet.value.text)) =
      events.map fun event => .ok (.dict event.frame) := by
  rw [filterMap_redactStream] at hframes
  obtain ⟨tail, htail, hcap⟩ := iterLines_tail hseen
  obtain ⟨unhandled, hhandled⟩ : streamLines U json none chunks r <+: (iterLines none chunks).1 := handled_isPrefix _ _
  have hsum : packets.filterMap (packetFrame U json) = events.map Event.frame ++
      unhandled.filterMap (frameOf U json) ++ tail.filterMap (frameOf U json) := by
    rw [← filterMap_readLines, htail, ← hhandled, List.filterMap_append, List.filterMap_append, hframes]
  have hle := List.length_filterMap_le (packetFrame U json) packets
  have hlengths := congrArg List.length hsum
  rw [List.length_append, List.length_append, List.length_map] at hlengths
  have hunhandled : unhandled.filterMap (frameOf U json) = [] := List.length_eq_zero_iff.mp (by omega)
  have hnone : tail.filterMap (frameOf U json) = [] := List.length_eq_zero_iff.mp (by omega)
  have hall : ∀ packet ∈ packets, (packetFrame U json packet).isSome := List.filterMap_length_eq_length.mp (by omega)
  constructor
  · refine (hcap.resolve_right fun hlong => ?_).1
    obtain ⟨packet, hpacket, hmem⟩ := data_mem_tail ⟨_, htail.symm⟩ hlong
    have hframe := hall packet hpacket
    rw [packetFrame, List.filterMap_eq_nil_iff.mp hnone _ hmem] at hframe
    cases hframe
  · rw [values_of_frames hdone hall, hsum, hunhandled, hnone, List.append_nil, List.append_nil, List.map_map]
    rfl

/-- Cut between characters, the data are what was sent. -/
theorem values_of_valid (hvalid : ∀ x ∈ chunks, Valid x)
    (htext : decodeReplace chunks.flatten = streamText (events.map Event.toPacket))
    (hstrip : ∀ event ∈ events, json.loads (U.strip event.value.text) = json.loads event.value.text) :
    (dataValues (seen chunks)).map (fun v => json.loads (U.strip v)) = events.map fun event => .ok (.dict event.frame) := by
  rw [seen_of_valid hvalid, htext, dataValues_packets, List.map_map, List.map_map]
  exact List.map_congr_left fun event he => (hstrip event he).trans event.parsed

/-- Then all that json.loads has to read back are the frames of the events. -/
theorem readsBack_of_values (hseen : seen chunks = streamText packets) (hdone : ∀ v, json.loads done ≠ .ok v)
    (hb : r.buffer = []) (hfit : WithinCap [] chunks)
    (hvalues : (dataValues (seen chunks)).map (fun v => json.loads (U.strip v)) =
      events.map fun event => .ok (.dict event.frame))
    (hback : ∀ event ∈ events, ReadsBack json event.frame) (payload : Members)
    (hp : .frame payload ∈ (redactStream U json none chunks r).emissions) : ReadsBack json payload := by
  rw [hseen, dataValues_packets, List.map_map] at hvalues
  obtain ⟨hplain, hframes⟩ := plain_of_values hseen hdone hb hfit hvalues
  have hmem : payload ∈ (redactStream U json none chunks r).emissions.filterMap plainFrame :=
    List.mem_filterMap.mpr ⟨_, hp, by simp [plainFrame, show deltaText payload = none from hplain _ hp]⟩
  rw [hframes] at hmem
  obtain ⟨event, he, rfl⟩ := List.mem_map.mp hmem
  exact hback event he

/-- The events that a client dispatches, the data as JSON values. -/
def typedValues (json : Decoder) (x : Bytes) : List (Text × Except Json.LoadError Json) :=
  (clientEvents x).map (typedValue json)

/-- A client dispatches the same from what redact_stream emits. -/
def KeepsEvents (U : Unicode) (json : Decoder) (chunks : List Bytes) (r : StreamingRedactor) : Prop :=
  ∃ x, wire ((redactStream U json none chunks r).emissions.map Emission.text) = some x ∧
    typedValues json x = typedValues json chunks.flatten

theorem typedValues_upstream (htext : decodeReplace chunks.flatten = streamText (events.map Event.toPacket)) :
    typedValues json chunks.flatten = events.map Event.typed := by
  rw [typedValues, clientEvents, clientDecode, htext, dropMark_streamText, listen_packets, List.map_map, List.map_map]
  refine List.map_congr_left fun event _ => ?_
  simp only [Function.comp, typedValue, event.parsed]
  rfl

theorem clientEvents_stream (U : Unicode) (json : Decoder) (r : StreamingRedactor) (hseen : seen chunks = streamText packets) :
    ∃ x, wire ((redactStream U json none chunks r).emissions.map Emission.text) = some x ∧
      clientEvents x = (redactStream U json none chunks r).emissions.flatMap heardOf := by
  refine clientEvents_emissions (fun t ht => ?_) fun e he => scalar_emission he
  rcases redactStream_emissions ht with ⟨line, hline, stripped, hk, -, heq⟩ | h | ⟨payload, h, -⟩
  · cases heq
    obtain ⟨tail, htail, -⟩ := iterLines_tail hseen
    have hread : line ∈ readLines packets := by
      rw [htail]
      exact List.mem_append_left tail (mem_of_mem_handled hline)
    exact silent_of_read hread hk
  · cases h
  · cases h

/-- A client dispatches the same events exactly when none of them has a type of
its own, the chunks fit under the cap and the data, decoded chunk by chunk,
are still those values. -/
theorem keepsEvents_iff (U : Unicode) (json : Decoder) (chunks : List Bytes) (hold : Option Int) (luhn : Bool)
    (events : List (Event json)) (htext : decodeReplace chunks.flatten = streamText (events.map Event.toPacket))
    (hdone : ∀ v, json.loads done ≠ .ok v)
    (hback : ∀ payload, .frame payload ∈ (redactStream U json none chunks (.init hold luhn)).emissions →
      ReadsBack json payload) :
    KeepsEvents U json chunks (.init hold luhn) ↔
      (∀ event ∈ events, event.type = defaultType) ∧ WithinCap [] chunks ∧
        (dataValues (seen chunks)).map (fun v => json.loads (U.strip v)) =
          events.map fun event => .ok (.dict event.frame) := by
  obtain ⟨packets, hlength, hseen⟩ := packets_of_garbled (events.map Event.toPacket) (htext ▸ garbled_parts chunks)
  rw [List.length_map] at hlength
  obtain ⟨x, hx, hevents⟩ := clientEvents_stream U json (.init hold luhn) hseen
  have hkeeps : KeepsEvents U json chunks (.init hold luhn) ↔ typedValues json x = typedValues json chunks.flatten := by
    rw [KeepsEvents, hx]
    exact ⟨fun ⟨_, h, hk⟩ => Option.some.inj h ▸ hk, fun hk => ⟨x, rfl, hk⟩⟩
  rw [hkeeps, typedValues_upstream htext, typedValues, hevents, heard_iff events hdone hback]
  have hvalues : dataValues (seen chunks) = packets.map fun packet => packet.value.text := by
    rw [← dataValues_packets, ← hseen]
    rfl
  rw [hvalues, List.map_map]
  refine and_congr_right fun _ => ⟨fun h => values_of_plain hseen hlength hdone h.2, fun h => ?_⟩
  exact plain_of_values hseen hdone rfl h.1 h.2

def pingFrame : Members := [(str "type", .str (str "ping"))]

def pingDecoder : Decoder := Guardrail.knowing [pingFrame]

/-- A comment, an event line if there is a name, and the data. -/
def pingEvent (name : Option Line) : Event pingDecoder where
  comment := some ⟨str " keepalive", false, by decide⟩
  name := name
  value := ⟨Emission.payloadText pingFrame, true, not_mem_of_printed (printed_payloadText pingFrame)⟩
  blank := false
  frame := pingFrame
  parsed := rfl
  textless := rfl

theorem loads_done_ping (v : Json) : pingDecoder.loads done ≠ .ok v := by
  have hdone : pingDecoder.loads done = .error .jsonDecodeError := rfl
  rw [hdone]
  intro h
  cases h

def messageEvents : List (Event pingDecoder) := [pingEvent none, pingEvent (some ⟨str "message", true, by decide⟩)]

def pingBytes (events : List (Event pingDecoder)) : List Bytes := [asciiBytes (streamText (events.map Event.toPacket))]

set_option maxRecDepth 4000 in
theorem keepsEvents_messages : KeepsEvents .ascii pingDecoder (pingBytes messageEvents) (.init none false) := by
  have hvalid : ∀ x ∈ pingBytes messageEvents, Valid x := by
    intro x hx
    rw [List.mem_singleton.mp hx]
    decide +kernel
  have htext : decodeReplace (pingBytes messageEvents).flatten = streamText (messageEvents.map Event.toPacket) := by
    decide +kernel
  have hvalues := values_of_valid (U := .ascii) hvalid htext fun event he => by
    rcases List.mem_pair.mp he with rfl | rfl <;> rfl
  have hfit : WithinCap [] (pingBytes messageEvents) := ((iterLines_none_iff none).mp (by decide +kernel)).2
  have hback := readsBack_of_values (r := .init none false) ((seen_of_valid hvalid).trans htext) loads_done_ping rfl hfit
    hvalues fun event he => by rcases List.mem_pair.mp he with rfl | rfl <;> rfl
  refine (keepsEvents_iff .ascii pingDecoder (pingBytes messageEvents) none false messageEvents htext loads_done_ping
    hback).mpr ⟨fun event he => ?_, hfit, hvalues⟩
  rcases List.mem_pair.mp he with rfl | rfl <;> rfl

def typedEvents : List (Event pingDecoder) := [pingEvent (some ⟨str "ping", false, by decide⟩)]

/-- A client takes an event of the type ping for a message. -/
theorem not_keepsEvents_ping :
    decodeReplace (pingBytes typedEvents).flatten = streamText (typedEvents.map Event.toPacket) ∧
      ¬ KeepsEvents .ascii pingDecoder (pingBytes typedEvents) (.init none false) := by
  refine ⟨by decide +kernel, ?_⟩
  rintro ⟨x, hx, hkeeps⟩
  have hwire : wire ((redactStream .ascii pingDecoder none (pingBytes typedEvents) (.init none false)).emissions.map
      Emission.text) = some (asciiBytes (str ": keepalive\n\nevent: ping\n\ndata: \x7b\"type\":\"ping\"\x7d\n\n")) := by
    decide +kernel
  cases hwire.symm.trans hx
  have htypes := congrArg (List.map Prod.fst) hkeeps
  exact absurd htypes (by decide +kernel)

end Stream

end LlmGateway.Sse
