import LlmGateway.Sse

namespace LlmGateway.Sse

open Redactor Splitting Utf8
open Json (Members Decoder Printed printed)

def cr : CodePoint := chr '\r'

section Client

/-- LF, CR and CRLF all end a line. -/
def normalise : Text → Text
  | [] => []
  | c :: t =>
    if c = cr then (if t.head? = some lf then normalise t else lf :: normalise t) else c :: normalise t

def dropSpace : Text → Text
  | [] => []
  | c :: t => if c = chr ' ' then t else c :: t

/-- The value of a line if its field is data. -/
def dataField (line : Text) : Option Text :=
  let (name, value) := partition line (chr ':')
  if name = str "data" then some (dropSpace value) else none

def dataValues (t : Text) : List Text := (pieces lf (normalise t)).filterMap dataField

def byteOrderMark : CodePoint := chr '\uFEFF'

def dropMark : Text → Text
  | [] => []
  | c :: t => if c = byteOrderMark then t else c :: t

/-- A client takes one byte order mark for no part of the stream. -/
def clientDecode (x : Bytes) : Text := dropMark (decodeReplace x)

/-- The values of all data fields that a client finds in an event stream. -/
def clientValues (x : Bytes) : List Text := dataValues (clientDecode x)

end Client

section Normalise

theorem lf_ne_cr : lf ≠ cr := by decide

theorem normalise_lf (t : Text) : normalise (lf :: t) = lf :: normalise t := by
  rw [normalise, if_neg lf_ne_cr]

theorem normalise_of_not_mem {t : Text} (h : cr ∉ t) : normalise t = t := by
  induction t with
  | nil => rfl
  | cons c t ih =>
      rw [List.mem_cons, not_or] at h
      rw [normalise, if_neg fun hm => h.1 hm.symm, ih h.2]

/-- What follows the end of a line does not change the line. -/
theorem normalise_append (t u : Text) : normalise (t ++ lf :: u) = normalise (t ++ [lf]) ++ normalise u := by
  induction t with
  | nil => rw [List.nil_append, List.nil_append, normalise_lf, normalise_lf]; rfl
  | cons c t ih =>
      have hhead : (t ++ lf :: u).head? = (t ++ [lf]).head? := by cases t <;> rfl
      rw [List.cons_append, List.cons_append, normalise, normalise, hhead, ih]
      split
      · split
        · rfl
        · rfl
      · rfl

theorem rest_normalise (t : Text) : rest lf (normalise (t ++ [lf])) = [] := by
  have hrest : ∀ x : Text, rest lf (lf :: x) = rest lf x := fun x =>
    (append_cons (List.not_mem_nil (a := lf)) x).2
  suffices h : ∃ u, normalise (t ++ [lf]) = u ++ [lf] by
    obtain ⟨u, hu⟩ := h
    rw [hu, rest_append]
    exact (append_cons (not_mem_rest u) []).2
  induction t with
  | nil => exact ⟨[], normalise_lf []⟩
  | cons c t ih =>
      obtain ⟨u, hu⟩ := ih
      rw [List.cons_append, normalise, hu]
      split
      · split
        · exact ⟨u, rfl⟩
        · exact ⟨lf :: u, rfl⟩
      · exact ⟨c :: u, rfl⟩

theorem pieces_normalise_append (t u : Text) :
    pieces lf (normalise (t ++ lf :: u)) = pieces lf (normalise (t ++ [lf])) ++ pieces lf (normalise u) := by
  rw [normalise_append, pieces_append, rest_normalise, List.nil_append]

end Normalise

section Mark

/-- The texts of a stream as a client has them. -/
def unmarked : List Text → List Text
  | [] => []
  | t :: ts => dropMark t :: ts

theorem dropMark_append {t : Text} (h : t ≠ []) (u : Text) : dropMark (t ++ u) = dropMark t ++ u := by
  cases t with
  | nil => exact absurd rfl h
  | cons c t =>
      rw [List.cons_append, dropMark, dropMark]
      split <;> rfl

theorem dropMark_of_head {t : Text} (h : t.head? ≠ some byteOrderMark) : dropMark t = t := by
  cases t with
  | nil => rfl
  | cons c t => exact if_neg fun hc => h (congrArg some hc)

/-- Only the first text of a stream can begin with the mark. -/
theorem dropMark_flatten {ts : List Text} (h : ∀ t ∈ ts, t ≠ []) : dropMark ts.flatten = (unmarked ts).flatten := by
  cases ts with
  | nil => rfl
  | cons t ts =>
      rw [List.flatten_cons, dropMark_append (h t List.mem_cons_self)]
      rfl

theorem unmarked_of_head {ts : List Text} (h : ∀ t ∈ ts, t.head? ≠ some byteOrderMark) : unmarked ts = ts := by
  cases ts with
  | nil => rfl
  | cons t ts => rw [unmarked, dropMark_of_head (h t List.mem_cons_self)]

theorem unmarked_append {ts : List Text} {t : Text} (h : dropMark t = t) : unmarked (ts ++ [t]) = unmarked ts ++ [t] := by
  cases ts with
  | nil => exact congrArg (· :: []) h
  | cons u ts => rfl

theorem mem_unmarked {ts : List Text} {t : Text} (h : t ∈ unmarked ts) : ∃ u ∈ ts, t = u ∨ t = dropMark u := by
  cases ts with
  | nil => exact absurd h List.not_mem_nil
  | cons u ts =>
      rcases List.mem_cons.mp h with rfl | h
      · exact ⟨u, List.mem_cons_self, Or.inr rfl⟩
      · exact ⟨t, List.mem_cons_of_mem _ h, Or.inl rfl⟩

/-- A field whose name begins with the mark is no data. -/
theorem dataField_marked (line : Text) : dataField (byteOrderMark :: line) = none := by
  have hname : (partition (byteOrderMark :: line) (chr ':')).1 = byteOrderMark :: (partition line (chr ':')).1 := rfl
  have hne : byteOrderMark :: (partition line (chr ':')).1 ≠ str "data" := fun h =>
    absurd (List.cons_eq_cons.mp h).1 (by decide)
  rw [dataField]
  dsimp only
  rw [hname, if_neg hne]

theorem mem_dataFields_of_marked {t v : Text} (h : v ∈ (pieces lf (byteOrderMark :: t)).filterMap dataField) :
    v ∈ (pieces lf t).filterMap dataField := by
  have hlf : lf ≠ byteOrderMark := by decide
  induction t using inductionOn lf with
  | last t ht =>
      rw [(of_not_mem (List.not_mem_cons_of_ne_of_not_mem hlf ht)).1] at h
      exact absurd h List.not_mem_nil
  | first k t hk _ =>
      rw [← List.cons_append, (append_cons (List.not_mem_cons_of_ne_of_not_mem hlf hk) t).1,
        List.filterMap_cons_none (dataField_marked k)] at h
      rw [(append_cons hk t).1, List.filterMap_cons]
      split
      · exact h
      · exact List.mem_cons_of_mem _ h

/-- Without the mark a client finds no less. -/
theorem mem_dataValues_dropMark {t v : Text} (h : v ∈ dataValues t) : v ∈ dataValues (dropMark t) := by
  cases t with
  | nil => exact h
  | cons c t =>
      rw [dropMark]
      split
      · next hc =>
          have hcr : byteOrderMark ≠ cr := by decide
          rw [hc, dataValues, normalise, if_neg hcr] at h
          exact mem_dataFields_of_marked h
      · exact h

end Mark

section Emissions

theorem text_eq (e : Emission) : ∃ t, e.text = t ++ [lf] := by
  have h : str "\n\n" = [lf] ++ [lf] := rfl
  cases e with
  | passed line => exact ⟨line ++ [lf], by rw [Emission.text, h, List.append_assoc]⟩
  | done => exact ⟨dataPrefix ++ done ++ [lf], by rw [Emission.text, h, List.append_assoc (_ ++ _)]⟩
  | frame payload =>
      exact ⟨dataPrefix ++ Emission.payloadText payload ++ [lf], by rw [Emission.text, h, List.append_assoc (_ ++ _)]⟩

theorem pieces_flatten {ts : List Text} (h : ∀ t ∈ ts, ∃ u, t = u ++ [lf]) :
    pieces lf (normalise ts.flatten) = ts.flatMap fun t => pieces lf (normalise t) := by
  induction ts with
  | nil => exact pieces_nil
  | cons t ts ih =>
      obtain ⟨⟨u, rfl⟩, hts⟩ := List.forall_mem_cons.mp h
      rw [List.flatten_cons, List.flatMap_cons, List.append_assoc, List.singleton_append, pieces_normalise_append, ih hts]

theorem dataValues_flatten {ts : List Text} (h : ∀ t ∈ ts, ∃ u, t = u ++ [lf]) :
    dataValues ts.flatten = ts.flatMap dataValues := by
  rw [dataValues, pieces_flatten h, List.filterMap_flatMap]
  rfl

/-- With or without the mark an emission is a series of whole lines. -/
theorem unmarked_whole {es : List Emission} : ∀ t ∈ unmarked (es.map Emission.text), ∃ u, t = u ++ [lf] := by
  intro t ht
  obtain ⟨u, hu, hmark⟩ := mem_unmarked ht
  obtain ⟨e, -, rfl⟩ := List.mem_map.mp hu
  obtain ⟨u, hu⟩ := text_eq e
  rcases hmark with rfl | rfl
  · exact ⟨u, hu⟩
  · rw [hu]
    cases u with
    | nil => exact ⟨[], rfl⟩
    | cons c u => exact ⟨dropMark (c :: u), dropMark_append (List.cons_ne_nil c u) [lf]⟩

/-- A line and the blank line after it. -/
theorem pieces_blankLine {t : Text} (hlf : lf ∉ t) (hcr : cr ∉ t) :
    pieces lf (normalise (t ++ str "\n\n")) = [t, []] := by
  have hnot : cr ∉ t ++ str "\n\n" := by
    rw [List.mem_append, not_or]
    exact ⟨hcr, by decide⟩
  rw [normalise_of_not_mem hnot]
  change pieces lf (t ++ lf :: [lf]) = [t, []]
  rw [(append_cons hlf [lf]).1]
  rfl

theorem dataValues_dataLine {v : Text} (hlf : lf ∉ v) (hcr : cr ∉ v) :
    dataValues (dataPrefix ++ v ++ str "\n\n") = [v] := by
  have hline : lf ∉ dataPrefix ++ v := by
    rw [List.mem_append, not_or]
    exact ⟨by decide, hlf⟩
  have hnot : cr ∉ dataPrefix ++ v := by
    rw [List.mem_append, not_or]
    exact ⟨by decide, hcr⟩
  have hfield : dataField (dataPrefix ++ v) = some v := by
    have hp : partition (dataPrefix ++ v) (chr ':') = (str "data", chr ' ' :: v) := by
      rfl
    rw [dataField, hp]
    rfl
  rw [dataValues, pieces_blankLine hline hnot, List.filterMap_cons_some hfield]
  rfl

theorem not_mem_of_printed {t : Text} (h : Printed t) : lf ∉ t ∧ cr ∉ t := by
  have hall := List.all_eq_true.mp h
  exact ⟨fun hm => absurd (hall lf hm) (by decide), fun hm => absurd (hall cr hm) (by decide)⟩

theorem printed_payloadText (payload : Members) : Printed (Emission.payloadText payload) :=
  Json.printed_dumps Json.printed_compact _

theorem dataValues_done : dataValues Emission.done.text = [done] :=
  dataValues_dataLine (by decide) (by decide)

theorem dataValues_frame (payload : Members) :
    dataValues (Emission.frame payload).text = [Emission.payloadText payload] :=
  dataValues_dataLine (not_mem_of_printed (printed_payloadText payload)).1
    (not_mem_of_printed (printed_payloadText payload)).2

theorem dropMark_done : dropMark Emission.done.text = Emission.done.text := rfl

theorem dropMark_frame (payload : Members) : dropMark (Emission.frame payload).text = (Emission.frame payload).text := rfl

/-- The bytes of texts that are sent one after another. -/
def wire (ts : List Text) : Option Bytes := (ts.mapM encode).map List.flatten

/-- What can be encoded reaches a client as it was. -/
theorem wire_of_scalar (ts : List Text) (h : ∀ t ∈ ts, scalar t) :
    ∃ x, wire ts = some x ∧ decodeReplace x = ts.flatten := by
  suffices hs : ∃ xs, ts.mapM encode = some xs ∧ (∀ x ∈ xs, Valid x) ∧ xs.map decodeReplace = ts by
    obtain ⟨xs, hxs, hvalid, hmap⟩ := hs
    exact ⟨xs.flatten, by rw [wire, hxs]; rfl, by rw [(valid_flatten hvalid).2, hmap]⟩
  induction ts with
  | nil => exact ⟨[], rfl, fun x hx => absurd hx List.not_mem_nil, rfl⟩
  | cons t ts ih =>
      obtain ⟨ht, hts⟩ := List.forall_mem_cons.mp h
      obtain ⟨xs, hxs, hvalid, hmap⟩ := ih hts
      obtain ⟨x, hx⟩ := Option.isSome_iff_exists.mp (encode_isSome ht)
      obtain ⟨hv, hd⟩ := decode_encode hx
      refine ⟨x :: xs, ?_, List.forall_mem_cons.mpr ⟨hv, hvalid⟩, ?_⟩
      · rw [List.mapM_cons, hx, hxs]
        rfl
      · rw [List.map_cons, hd, hmap]

/-- A client has the emissions as they were, but for the mark. -/
theorem wire_emissions (es : List Emission) (h : ∀ e ∈ es, scalar e.text) :
    ∃ x, wire (es.map Emission.text) = some x ∧ clientDecode x = (unmarked (es.map Emission.text)).flatten := by
  obtain ⟨x, hx, hd⟩ := wire_of_scalar (es.map Emission.text) (List.forall_mem_map.mpr h)
  refine ⟨x, hx, ?_⟩
  rw [clientDecode, hd]
  refine dropMark_flatten (List.forall_mem_map.mpr fun e _ => ?_)
  obtain ⟨u, hu⟩ := text_eq e
  rw [hu]
  exact List.append_ne_nil_of_right_ne_nil u (List.cons_ne_nil _ _)

theorem wire_ascii {ts : List Text} (h : ∀ t ∈ ts, t.all isAscii) : wire ts = some (asciiBytes ts.flatten) := by
  have hencode : ts.mapM encode = some (ts.map asciiBytes) := by
    induction ts with
    | nil => rfl
    | cons t ts ih =>
        obtain ⟨ht, hts⟩ := List.forall_mem_cons.mp h
        rw [List.mapM_cons, encode_ascii ht, ih hts]
        rfl
  rw [wire, hencode, asciiBytes, List.map_flatten]
  rfl

end Emissions

end LlmGateway.Sse
