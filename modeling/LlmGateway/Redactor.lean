import LlmGateway.PyText
import LlmGateway.Scanner

namespace LlmGateway

def redacted : Text := str "[REDACTED]"

/-- The named groups of PATTERN. -/
inductive Kind
  | email | card | ssn
  deriving DecidableEq, Repr

abbrev Match := Span Kind

namespace Redactor

open Regex

def among (cs : List Char) (c : CodePoint) : Bool := (cs.map chr).contains c

def exactly (d : Char) : Regex CodePoint := .cls (· == chr d)

def localChar (c : CodePoint) : Bool := asciiAlnum c || among ['.', '_', '%', '+', '-'] c

def labelChar (c : CodePoint) : Bool := asciiAlnum c || c == chr '-'

def label : Regex CodePoint := .rep (.cls labelChar) 1 62

section Pattern

variable (U : Unicode)

def email : Regex CodePoint :=
  .seq (.notBehind fun c => U.isWord c || among ['.', '@', '+', '-'] c) <|
  .seq (.rep (.cls localChar) 1 63) <|
  .seq (exactly '@') <|
  .seq label <|
  .seq (.rep (.seq (exactly '.') label) 0 4) <|
  .seq (exactly '.') <|
  .seq (.rep (.cls asciiLetter) 2 22)
    (.notAhead fun c => asciiAlnum c || among ['_', '-'] c)

def card : Regex CodePoint :=
  .seq (.notBehind U.isDecimal) <|
  .seq (.rep (.cls U.isDecimal) 4 0) <|
  .seq (.rep (.seq (.rep (.cls (among [' ', '-'])) 0 1) (.cls U.isDecimal)) 9 6)
    (.notAhead U.isDecimal)

def ssn : Regex CodePoint :=
  .seq (.notBehind U.isDecimal) <|
  .seq (.rep (.cls U.isDecimal) 3 0) <|
  .seq (.cls (among ['-', ' '])) <|
  .seq (.rep (.cls U.isDecimal) 2 0) <|
  .seq (.cls (among ['-', ' '])) <|
  .seq (.rep (.cls U.isDecimal) 4 0)
    (.notAhead U.isDecimal)

def pattern : List (Kind × Regex CodePoint) := [(.email, email U), (.card, card U), (.ssn, ssn U)]

theorem pattern_nonempty : ∀ a ∈ pattern U, 0 < a.2.minWidth := by
  simp [pattern, email, card, ssn, label, exactly, minWidth]

/-- PATTERN run over a text. -/
def scanner (text : Text) : Scanner Kind := Regex.scanner (pattern U) (pattern_nonempty U) text

def finditer (text : Text) : List Match := (scanner U text).spansFrom 0

def group (text : Text) (m : Match) : Text := slice text m.start m.stop

end Pattern

def maxEmail : Nat := 64 + 1 + 63 + (4 * 64) + 1 + 24

def maxCard : Nat := 19 + 15

def maxSsn : Nat := 9 + 2

def maxPatternLength : Nat := max maxEmail (max maxCard maxSsn)

def defaultHold : Int := maxPatternLength

/-- int(char) for the characters that \d matches. -/
def intOf (U : Unicode) (c : CodePoint) : Nat := ((U.decimal c).map Fin.val).getD 0

def luhnValue (index value : Nat) : Nat :=
  if index % 2 = 1 then (if value * 2 > 9 then value * 2 - 9 else value * 2) else value

def luhnTotal (U : Unicode) (digits : Text) : Nat :=
  (digits.reverse.zipIdx.map fun p => luhnValue p.2 (intOf U p.1)).foldl (· + ·) 0

def luhnOk (U : Unicode) (digits : Text) : Bool := luhnTotal U digits % 10 = 0

structure RedactionStats where
  emittedChars : Nat
  redactions : Nat
  peakBuffer : Nat
  deriving DecidableEq

structure StreamingRedactor where
  hold : Int
  requireLuhn : Bool
  buffer : Text
  stats : RedactionStats
  deriving DecidableEq

def StreamingRedactor.init (hold : Option Int) (requireLuhn : Bool) : StreamingRedactor :=
  ⟨hold.getD defaultHold, requireLuhn, [], ⟨0, 0, 0⟩⟩

variable (U : Unicode)

/-- A lone space counts only between digits, or after one at the very end. -/
def canContinueAMatch (buffer : Text) (index : Nat) : Bool :=
  match buffer[index]? with
  | none => false
  | some char =>
    if U.isalnum char || among ['.', '_', '%', '+', '-', '@'] char then true
    else if char != chr ' ' then false
    else if index = 0 || !buffer[index - 1]?.any U.isdigit then false
    else index + 1 ≥ buffer.length || buffer[index + 1]?.any U.isdigit

/-- The while loop of _unsafe_start, from index downwards. -/
def walkBack (buffer : Text) (floor : Nat) : Nat → Nat
  | 0 => 0
  | index + 1 =>
    if index + 1 > floor && canContinueAMatch U buffer index then walkBack buffer floor index
    else index + 1

def floorOf (hold : Int) (buffer : Text) : Nat := (max 0 ((buffer.length : Int) - hold)).toNat

def unsafeStart (hold : Int) (buffer : Text) : Nat :=
  walkBack U buffer (floorOf hold buffer) buffer.length

def isReal (requireLuhn : Bool) (text : Text) (m : Match) : Bool :=
  if !requireLuhn || m.name != .card then true
  else luhnOk U ((group text m).filter U.isDecimal)

/-- The loop of _substitute: the joined pieces and the number of redactions. -/
def substituteLoop (requireLuhn : Bool) (text : Text) : List Match → Nat → Text × Nat
  | [], cursor => (text.drop cursor, 0)
  | m :: ms, cursor =>
    if isReal U requireLuhn text m then
      let (pieces, n) := substituteLoop requireLuhn text ms m.stop
      (slice text cursor m.start ++ redacted ++ pieces, n + 1)
    else substituteLoop requireLuhn text ms cursor

def substitute (requireLuhn : Bool) (text : Text) : Text × Nat :=
  substituteLoop U requireLuhn text (finditer U text) 0

/-- The loop of _emit_safe_prefix: the joined pieces, the number of redactions
and the final value of safe. -/
def emitLoop (requireLuhn : Bool) (buffer : Text) : List Match → Nat → Nat → Text × Nat × Nat
  | [], cursor, safe => (slice buffer cursor safe, 0, safe)
  | m :: ms, cursor, safe =>
    if m.start ≥ safe then (slice buffer cursor safe, 0, safe)
    else if m.stop > safe then (slice buffer cursor m.start, 0, m.start)
    else if !isReal U requireLuhn buffer m then emitLoop requireLuhn buffer ms cursor safe
    else
      let (pieces, n, safe') := emitLoop requireLuhn buffer ms m.stop safe
      (slice buffer cursor m.start ++ redacted ++ pieces, n + 1, safe')

namespace StreamingRedactor

def emitSafePrefix (r : StreamingRedactor) : Text × StreamingRedactor :=
  let safe := unsafeStart U r.hold r.buffer
  if safe ≤ 0 then ([], r)
  else
    let (out, n, safe') := emitLoop U r.requireLuhn r.buffer (finditer U r.buffer) 0 safe
    (out, { r with
      buffer := r.buffer.drop safe'
      stats := { r.stats with
        redactions := r.stats.redactions + n
        emittedChars := r.stats.emittedChars + out.length } })

def feed (r : StreamingRedactor) (text : Text) : Text × StreamingRedactor :=
  if text = [] then ([], r)
  else
    let buffer := r.buffer ++ text
    emitSafePrefix U { r with
      buffer := buffer
      stats := { r.stats with peakBuffer := max r.stats.peakBuffer buffer.length } }

def flush (r : StreamingRedactor) : Text × StreamingRedactor :=
  if r.buffer = [] then ([], r)
  else
    let (out, n) := substitute U r.requireLuhn r.buffer
    (out, { r with
      buffer := []
      stats := { r.stats with
        redactions := r.stats.redactions + n
        emittedChars := r.stats.emittedChars + out.length } })

/-- Successive deltas, with everything released for them. -/
def feedAll : StreamingRedactor → List Text → Text × StreamingRedactor
  | r, [] => ([], r)
  | r, chunk :: chunks =>
    let (out, r') := r.feed U chunk
    let (outs, r'') := r'.feedAll chunks
    (out ++ outs, r'')

/-- What a client has received once the stream is over. -/
def stream (r : StreamingRedactor) (chunks : List Text) : Text :=
  let (out, r') := r.feedAll U chunks
  out ++ (r'.flush U).1

end StreamingRedactor

/-- Whole-string redaction, with the default settings. -/
def redact (text : Text) : Text := (StreamingRedactor.init none false).stream U [text]

end Redactor

end LlmGateway
