import LlmGateway.SseClient
import LlmGateway.Utf8Parts

namespace LlmGateway.Sse

open Redactor Splitting Utf8

section Client

/-- The buffers of a client between two lines. -/
structure Pending where
  type : Text
  data : Text

def Pending.empty : Pending := ⟨[], []⟩

structure Dispatched where
  type : Text
  data : Text

def defaultType : Text := str "message"

def eventType (type : Text) : Text := if type = [] then defaultType else type

/-- A line that is not empty. A comment is a line with an empty field name. -/
def Pending.field (p : Pending) (line : Text) : Pending :=
  let (name, value) := partition line (chr ':')
  if name = str "event" then { p with type := dropSpace value }
  else if name = str "data" then { p with data := p.data ++ dropSpace value ++ [lf] }
  else p

/-- An empty line: an event without data is dropped. -/
def Pending.dispatch (p : Pending) : List Dispatched :=
  if p.data = [] then [] else [⟨eventType p.type, p.data.dropLast⟩]

/-- The events that the lines complete, and what stays pending. -/
def listen : Pending → List Text → List Dispatched × Pending
  | p, [] => ([], p)
  | p, [] :: lines => (p.dispatch ++ (listen .empty lines).1, (listen .empty lines).2)
  | p, (c :: line) :: lines => listen (p.field (c :: line)) lines

def clientLines (t : Text) : List Text := pieces lf (normalise t)

/-- The events that a client dispatches, the unfinished one dropped. -/
def clientEvents (x : Bytes) : List Dispatched := (listen .empty (clientLines (clientDecode x))).1

theorem listen_append (p : Pending) (a b : List Text) :
    listen p (a ++ b) = ((listen p a).1 ++ (listen (listen p a).2 b).1, (listen (listen p a).2 b).2) := by
  induction a generalizing p with
  | nil => rfl
  | cons line a ih =>
      cases line with
      | nil => rw [List.cons_append, listen, listen, ih, List.append_assoc]
      | cons c line => rw [List.cons_append, listen, listen, ih]

/-- Lines after which nothing is pending are listened to on their own. -/
theorem listen_flatMap {α : Type} {f : α → List Text} {g : α → List Dispatched} (as : List α)
    (h : ∀ a ∈ as, listen .empty (f a) = (g a, .empty)) : listen .empty (as.flatMap f) = (as.flatMap g, .empty) := by
  induction as with
  | nil => rfl
  | cons a as ih =>
      obtain ⟨ha, has⟩ := List.forall_mem_cons.mp h
      rw [List.flatMap_cons, listen_append, ha, ih has, List.flatMap_cons]

end Client

section Lines

/-- A line and whether it ends in CRLF. -/
structure Line where
  text : Text
  crlf : Bool
  whole : lf ∉ text ∧ cr ∉ text

def Line.ended (line : Line) : Text := line.text ++ (if line.crlf then [cr, lf] else [lf])

/-- What stands before the LF. -/
def Line.read (line : Line) : Text := line.text ++ (if line.crlf then [cr] else [])

theorem Line.ended_eq (line : Line) : line.ended = line.read ++ [lf] := by
  rw [ended, read, List.append_assoc]
  cases line.crlf <;> rfl

theorem Line.not_mem_read (line : Line) : lf ∉ line.read := by
  rw [read, List.mem_append, not_or]
  refine ⟨line.whole.1, ?_⟩
  cases line.crlf <;> decide

theorem Line.rstripCr_read (line : Line) : rstripCr line.read = line.text := by
  have hrev : line.text.reverse.dropWhile (· == cr) = line.text.reverse := by
    cases hr : line.text.reverse with
    | nil => rfl
    | cons c t =>
        have hc : c ≠ cr := by
          rintro rfl
          exact line.whole.2 (List.mem_reverse.mp (hr ▸ List.mem_cons_self))
        rw [List.dropWhile_cons_of_neg (by simpa using hc)]
  rw [rstripCr, read, List.reverse_append]
  cases line.crlf with
  | true =>
      have hcr : ((if true then [cr] else []).reverse ++ line.text.reverse).dropWhile (· == cr) =
          line.text.reverse.dropWhile (· == cr) := rfl
      change (List.dropWhile (· == cr) _).reverse = _
      rw [hcr, hrev, List.reverse_reverse]
  | false =>
      change (List.dropWhile (· == cr) line.text.reverse).reverse = _
      rw [hrev, List.reverse_reverse]

theorem normalise_line {t : Text} (h : cr ∉ t) (crlf : Bool) (u : Text) :
    normalise (t ++ (if crlf then [cr, lf] else [lf]) ++ u) = t ++ lf :: normalise u := by
  induction t with
  | nil =>
      cases crlf with
      | true =>
          change normalise (cr :: lf :: u) = lf :: normalise u
          rw [normalise, if_pos rfl, List.head?_cons, if_pos rfl, normalise_lf]
      | false => exact normalise_lf u
  | cons c t ih =>
      rw [List.mem_cons, not_or] at h
      rw [List.cons_append, List.cons_append, normalise, if_neg fun hc => h.1 hc.symm, ih h.2, List.cons_append]

/-- A client takes LF and CRLF for the same. -/
theorem clientLines_ended (ls : List Line) : clientLines (ls.flatMap Line.ended) = ls.map Line.text := by
  induction ls with
  | nil => rfl
  | cons line ls ih =>
      rw [List.flatMap_cons, clientLines, Line.ended, normalise_line line.whole.2, (append_cons line.whole.1 _).1,
        List.map_cons, ← ih]
      rfl

theorem pieces_ended (ls : List Line) :
    pieces lf (ls.flatMap Line.ended) = ls.map Line.read ∧ rest lf (ls.flatMap Line.ended) = [] := by
  induction ls with
  | nil => exact ⟨pieces_nil, rest_nil⟩
  | cons line ls ih =>
      have h := append_cons line.not_mem_read (ls.flatMap Line.ended)
      rw [List.flatMap_cons, Line.ended_eq, List.append_assoc, List.singleton_append, h.1, h.2, ih.1, ih.2]
      exact ⟨rfl, rfl⟩

end Lines

section Upstream

def Line.prepend (start : Text) (h : lf ∉ start ∧ cr ∉ start) (line : Line) : Line where
  text := start ++ line.text
  crlf := line.crlf
  whole := by
    rw [List.mem_append, List.mem_append, not_or, not_or]
    exact ⟨⟨h.1, line.whole.1⟩, h.2, line.whole.2⟩

def Line.comment : Line → Line := Line.prepend [chr ':'] (by decide)

def Line.event : Line → Line := Line.prepend (str "event: ") (by decide)

def Line.data : Line → Line := Line.prepend dataPrefix (by decide)

def Line.blank (crlf : Bool) : Line := ⟨[], crlf, by decide⟩

/-- The lines of an event: a comment, a name, the data and a blank line. The
first two may be missing. -/
structure Packet where
  comment : Option Line
  name : Option Line
  value : Line
  blank : Bool

def Packet.lines (packet : Packet) : List Line :=
  packet.comment.toList.map Line.comment ++ packet.name.toList.map Line.event ++
    [packet.value.data, Line.blank packet.blank]

/-- The type under which a client dispatches the event. -/
def Packet.type (packet : Packet) : Text := eventType ((packet.name.map Line.text).getD [])

def streamText (packets : List Packet) : Text := (packets.flatMap Packet.lines).flatMap Line.ended

theorem listen_data (type v : Text) : listen ⟨type, []⟩ [dataPrefix ++ v, []] = ([⟨eventType type, v⟩], .empty) := by
  have hfield : Pending.field ⟨type, []⟩ (dataPrefix ++ v) = ⟨type, v ++ [lf]⟩ := rfl
  have hdispatch : Pending.dispatch ⟨type, v ++ [lf]⟩ = [⟨eventType type, v⟩] := by
    rw [Pending.dispatch, if_neg (by simp), List.dropLast_concat]
  change listen (Pending.field ⟨type, []⟩ (dataPrefix ++ v)) [[]] = _
  rw [hfield, listen, hdispatch]
  rfl

theorem listen_comment (p : Pending) (line : Line) (ls : List Text) : listen p (line.comment.text :: ls) = listen p ls := rfl

theorem listen_name (line : Line) (ls : List Text) :
    listen .empty (line.event.text :: ls) = listen ⟨line.text, []⟩ ls := rfl

theorem listen_packet (packet : Packet) :
    listen .empty (packet.lines.map Line.text) = ([⟨packet.type, packet.value.text⟩], .empty) := by
  have hnamed : listen .empty ((packet.name.toList.map Line.event ++ [packet.value.data, Line.blank packet.blank]).map
      Line.text) = ([⟨packet.type, packet.value.text⟩], .empty) := by
    rw [Packet.type]
    cases packet.name with
    | none => exact listen_data [] packet.value.text
    | some line => exact (listen_name line _).trans (listen_data line.text packet.value.text)
  rw [Packet.lines, List.append_assoc, List.map_append]
  cases packet.comment with
  | none => exact hnamed
  | some line => exact (listen_comment .empty line _).trans hnamed

theorem listen_packets (packets : List Packet) :
    (listen .empty (clientLines (streamText packets))).1 = packets.map fun packet => ⟨packet.type, packet.value.text⟩ := by
  rw [streamText, clientLines_ended, List.map_flatMap, listen_flatMap packets fun packet _ => listen_packet packet,
    List.map_eq_flatMap]

/-- No event begins with the byte order mark. -/
theorem dropMark_streamText (packets : List Packet) : dropMark (streamText packets) = streamText packets := by
  refine dropMark_of_head ?_
  cases packets with
  | nil => exact fun h => by cases h
  | cons packet packets =>
      rw [streamText, List.flatMap_cons, Packet.lines]
      cases packet.comment with
      | some line => exact fun h => absurd (Option.some.inj h) (by decide)
      | none =>
          cases packet.name with
          | some line => exact fun h => absurd (Option.some.inj h) (by decide)
          | none => exact fun h => absurd (Option.some.inj h) (by decide)

/-- The data values that a client finds. -/
theorem dataValues_packets (packets : List Packet) :
    dataValues (streamText packets) = packets.map fun packet => packet.value.text := by
  have hcomment (line : Line) : dataField line.comment.text = none := rfl
  have hname (line : Line) : dataField line.event.text = none := rfl
  have hdata (line : Line) : dataField line.data.text = some line.text := rfl
  have hblank (crlf : Bool) : dataField (Line.blank crlf).text = none := rfl
  have hpacket (packet : Packet) : (packet.lines.map Line.text).filterMap dataField = [packet.value.text] := by
    rw [Packet.lines]
    cases packet.comment <;> cases packet.name <;> simp [hcomment, hname, hdata, hblank]
  change (clientLines (streamText packets)).filterMap dataField = _
  rw [streamText, clientLines_ended, List.map_flatMap, List.filterMap_flatMap, List.map_eq_flatMap]
  exact List.flatMap_congr fun packet _ => hpacket packet

end Upstream

section Garbling

variable {u : Text}

/-- A line stays a line of its kind however it is cut. -/
theorem Line.of_garbled {start : Text} (h : lf ∉ start ∧ cr ∉ start) (hascii : start.all isAscii) (line : Line)
    (hu : Garbled (line.prepend start h).ended u) : ∃ line' : Line, u = (line'.prepend start h).ended := by
  have hlf : isAscii lf = true := by decide
  have hcr : isAscii cr = true := by decide
  obtain ⟨t, ending, rfl, ht, hending⟩ := hu.of_append
  obtain ⟨start', text, rfl, hstart, htext⟩ := ht.of_append
  have hend : (if line.crlf then [cr, lf] else [lf]).all isAscii := by cases line.crlf <;> decide
  refine ⟨⟨text, line.crlf, fun hm => line.whole.1 (htext.mem_of_ascii hlf hm),
    fun hm => line.whole.2 (htext.mem_of_ascii hcr hm)⟩, ?_⟩
  rw [hstart.eq_of_ascii hascii, hending.eq_of_ascii hend]
  rfl

theorem Line.blank_of_garbled (crlf : Bool) (h : Garbled (Line.blank crlf).ended u) : u = (Line.blank crlf).ended :=
  h.eq_of_ascii (by cases crlf <;> decide)

theorem option_of_garbled {kind : Line → Line} (hkind : ∀ line u, Garbled (kind line).ended u → ∃ line', u = (kind line').ended)
    (line : Option Line) (h : Garbled ((line.toList.map kind).flatMap Line.ended) u) :
    ∃ line' : Option Line, u = (line'.toList.map kind).flatMap Line.ended := by
  cases line with
  | none =>
      cases h
      exact ⟨none, rfl⟩
  | some line =>
      simp only [Option.toList_some, List.map_cons, List.map_nil, List.flatMap_singleton] at h
      obtain ⟨line', rfl⟩ := hkind line u h
      exact ⟨some line', by simp⟩

theorem Packet.of_garbled (packet : Packet) (h : Garbled (packet.lines.flatMap Line.ended) u) :
    ∃ packet' : Packet, u = packet'.lines.flatMap Line.ended := by
  rw [Packet.lines, List.flatMap_append, List.flatMap_append, List.flatMap_cons, List.flatMap_singleton] at h
  obtain ⟨t, ending, rfl, ht, hending⟩ := h.of_append
  obtain ⟨comments, names, rfl, hcomments, hnames⟩ := ht.of_append
  obtain ⟨data, blank, rfl, hdata, hblank⟩ := hending.of_append
  obtain ⟨comment, rfl⟩ := option_of_garbled (fun line _ => Line.of_garbled (by decide) (by decide) line) _ hcomments
  obtain ⟨name, rfl⟩ := option_of_garbled (fun line _ => Line.of_garbled (by decide) (by decide) line) _ hnames
  obtain ⟨value, rfl⟩ := Line.of_garbled (by decide) (by decide) _ hdata
  rw [Line.blank_of_garbled _ hblank]
  refine ⟨⟨comment, name, value, packet.blank⟩, ?_⟩
  rw [Packet.lines, List.flatMap_append, List.flatMap_append, List.flatMap_cons, List.flatMap_singleton]
  rfl

theorem packets_of_garbled (packets : List Packet) (h : Garbled (streamText packets) u) :
    ∃ packets' : List Packet, packets'.length = packets.length ∧ u = streamText packets' := by
  induction packets generalizing u with
  | nil =>
      cases h
      exact ⟨[], rfl, rfl⟩
  | cons packet packets ih =>
      rw [streamText, List.flatMap_cons, List.flatMap_append] at h
      obtain ⟨u, v, rfl, hu, hv⟩ := h.of_append
      obtain ⟨packet', rfl⟩ := packet.of_garbled hu
      obtain ⟨packets', hlength, rfl⟩ := ih hv
      refine ⟨packet' :: packets', congrArg Nat.succ hlength, ?_⟩
      rw [streamText, streamText, List.flatMap_cons, List.flatMap_append]

end Garbling

end LlmGateway.Sse
