import LlmGateway.Json
import LlmGateway.Redactor
import LlmGateway.SseLines

namespace LlmGateway.Sse

open Redactor
open Json (Members Decoder dumps compactSeparators)

def dataPrefix : Text := str "data: "

def done : Text := str "[DONE]"

section Frames

/-- choices[0] if it is an object. -/
def firstChoice (frame : Members) : Option Members :=
  match frame.get? (str "choices") with
  | some (.list (.dict choice :: _)) => some choice
  | _ => none

def deltaText (frame : Members) : Option Text :=
  match (firstChoice frame).bind fun choice => choice.get? (str "delta") with
  | some (.dict delta) =>
    match Members.get? delta (str "content") with
    | some (.str content) => some content
    | _ => none
  | _ => none

def isTerminal (frame : Members) : Bool :=
  match (firstChoice frame).bind fun choice => choice.get? (str "finish_reason") with
  | none | some .null => frame.keys.contains (str "usage")
  | some _ => true

def syntheticDelta (text : Text) : Members :=
  [(str "object", .str (str "chat.completion.chunk")),
    (str "choices", .list [.dict [(str "index", .int 0),
      (str "delta", .dict [(str "content", .str text)]), (str "finish_reason", .null)]])]

end Frames

section Dict

/-- What iterating over a value gives. -/
def elements : Json → Option (List Json)
  | .list items => some items
  | .str s => some (s.map fun c => .str [c])
  | .dict members => some (members.map fun m => .str m.1)
  | _ => none

/-- A key and a value for dict(..): a sequence of two whose first is hashable. -/
def pairOf (item : Json) : Except Raised (Json × Json) :=
  match elements item with
  | none => .error .typeError
  | some [.list _, _] | some [.dict _, _] => .error .typeError
  | some [key, value] => .ok (key, value)
  | some _ => .error .valueError

variable (json : Decoder)

/-- The number that a key equals, if it is one. -/
def numeric : Json → Option Int
  | .int n => some n
  | .bool b => some (if b then 1 else 0)
  | .float repr => json.integral repr
  | _ => none

/-- Equality of two keys. -/
def sameKey (a b : Json) : Bool :=
  match numeric json a, numeric json b with
  | some m, some n => m = n
  | none, none =>
    match a, b with
    | .str s, .str t => s = t
    | .float r, .float r' => r = r'
    | .null, .null => true
    | _, _ => false
  | _, _ => false

def setPair : List (Json × Json) → Json × Json → List (Json × Json)
  | [], m => [m]
  | (k, v) :: ms, m => if sameKey json k m.1 then (k, m.2) :: ms else (k, v) :: setPair ms m

/-- A key as json.dumps writes it. -/
def keyText : Json → Text
  | .str s => s
  | .float repr => repr.text
  | .int n => Json.integerText n
  | .bool b => str (if b then "true" else "false")
  | _ => str "null"

/-- dict(value), with the keys that json.dumps writes for its own. -/
def dictOf : Json → Except Raised Members
  | .dict members => .ok members
  | value =>
    match elements value with
    | none => .error .typeError
    | some items =>
      match items.mapM pairOf with
      | .error e => .error e
      | .ok pairs => .ok ((pairs.foldl (setPair json) []).map fun m => (keyText m.1, m.2))

def withText (frame : Members) (text : Text) : Except Raised Members :=
  match frame.get? (str "choices") with
  | none => .error .keyError
  | some choices =>
    match elements choices with
    | none => .error .typeError
    | some items =>
      match items.mapM (dictOf json) with
      | .error e => .error e
      | .ok [] => .error .indexError
      | .ok (first :: rest) =>
        match (first.get? (str "delta")).getD (.dict []) with
        | .dict delta =>
          let delta := Members.set delta (str "content") (.str text)
          .ok (frame.set (str "choices")
            (.list (.dict (first.set (str "delta") (.dict delta)) :: rest.map .dict)))
        | _ => .error .typeError

end Dict

/-- What is yielded downstream, before encoding. -/
inductive Emission
  | passed (line : Text)
  | done
  | frame (payload : Members)

namespace Emission

def payloadText (payload : Members) : Text := dumps compactSeparators (.dict payload)

def text : Emission → Text
  | passed line => line ++ str "\n\n"
  | done => dataPrefix ++ Sse.done ++ str "\n\n"
  | frame payload => dataPrefix ++ payloadText payload ++ str "\n\n"

def isDone : Emission → Bool
  | done => true
  | passed _ | frame _ => false

end Emission

/-- What transform_line takes a line for. -/
inductive LineKind
  | blank
  | passed (stripped : Text)
  | done
  | refused (exc : Raised)
  | bare (frame : Members)
  | content (frame : Members) (text : Text)

section Transform

variable (U : Unicode) (json : Decoder)

/-- line.rstrip("\r") -/
def rstripCr (line : Text) : Text := (line.reverse.dropWhile (· == chr '\r')).reverse

def raisedBy : Json.LoadError → Raised
  | .jsonDecodeError => .malformedStream "upstream sent a data frame that is not JSON"
  | .unicodeDecodeError | .valueError => .valueError
  | .recursionError => .recursionError

def lineKind (line : Text) : LineKind :=
  let stripped := rstripCr line
  if stripped = [] then .blank
  else if !dataPrefix.isPrefixOf stripped then .passed stripped
  else
    let payload := U.strip (stripped.drop dataPrefix.length)
    if payload = done then .done
    else
      match json.loads payload with
      | .error e => .refused (raisedBy e)
      | .ok (.dict frame) =>
        match deltaText frame with
        | none => .bare frame
        | some text => .content frame text
      | .ok _ => .refused (.malformedStream "upstream sent a data frame that is not an object")

structure Transformed where
  emissions : List Emission
  redactor : StreamingRedactor
  raised : Option Raised

/-- The frame for the text that a flush releases, if it releases any. -/
def released (tail : Text) : List Emission := if tail = [] then [] else [.frame (syntheticDelta tail)]

def transformLine (line : Text) (redactor : StreamingRedactor) : Transformed :=
  match lineKind U json line with
  | .blank => ⟨[], redactor, none⟩
  | .passed stripped =>
    if Utf8.scalar stripped then ⟨[.passed stripped], redactor, none⟩
    else ⟨[], redactor, some .unicodeEncodeError⟩
  | .done =>
    let (tail, redactor) := redactor.flush U
    ⟨released tail ++ [.done], redactor, none⟩
  | .refused exc => ⟨[], redactor, some exc⟩
  | .bare frame =>
    if isTerminal frame then
      let (tail, redactor) := redactor.flush U
      ⟨released tail ++ [.frame frame], redactor, none⟩
    else ⟨[.frame frame], redactor, none⟩
  | .content frame text =>
    let (safe, redactor) := redactor.feed U text
    if safe = [] then ⟨[], redactor, none⟩
    else
      match withText json frame safe with
      | .error e => ⟨[], redactor, some e⟩
      | .ok rebuilt => ⟨[.frame rebuilt], redactor, none⟩

/-- The loop of redact_stream over the lines. -/
def transformLines : List Text → StreamingRedactor → Transformed
  | [], redactor => ⟨[], redactor, none⟩
  | line :: lines, redactor =>
    let step := transformLine U json line redactor
    match step.raised with
    | some exc => ⟨step.emissions, step.redactor, some exc⟩
    | none =>
      let rest := transformLines lines step.redactor
      ⟨step.emissions ++ rest.emissions, rest.redactor, rest.raised⟩

def redactStream (ending : Option Raised) (chunks : List Bytes) (redactor : StreamingRedactor) : Transformed :=
  let (lines, exc) := iterLines ending chunks
  let run := transformLines U json lines redactor
  match run.raised.or exc with
  | some exc => ⟨run.emissions, run.redactor, some exc⟩
  | none =>
    if run.emissions.any Emission.isDone then run
    else
      let (tail, redactor) := run.redactor.flush U
      ⟨run.emissions ++ released tail, redactor, none⟩

end Transform

end LlmGateway.Sse
