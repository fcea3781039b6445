import LlmGateway.Json

namespace LlmGateway.Json

section Surrogates

def isHigh (c : CodePoint) : Bool := 0xD800 ≤ c.val && c.val ≤ 0xDBFF

def isLow (c : CodePoint) : Bool := 0xDC00 ≤ c.val && c.val ≤ 0xDFFF

/-- chr() of a number that is known to be small enough. -/
def ofCode (n : Nat) : CodePoint := ⟨n % 0x110000, Nat.mod_lt n (by decide)⟩

/-- The character that a pair of surrogates stands for. -/
def combine (hi lo : CodePoint) : CodePoint := ofCode (0x10000 + (hi.val - 0xD800) * 0x400 + (lo.val - 0xDC00))

/-- A text with every pair of surrogates made one character, from the left. -/
def joined : Text → Text
  | [] => []
  | [c] => [c]
  | c :: d :: t => if isHigh c && isLow d then combine c d :: joined t else c :: joined (d :: t)

end Surrogates

section Strings

def hexValue (c : CodePoint) : Option Nat :=
  if between '0' '9' c then some (c.val - 48)
  else if between 'a' 'f' c then some (c.val - 87)
  else if between 'A' 'F' c then some (c.val - 55)
  else none

/-- _decode_uXXXX -/
def decodeUnicode : Text → Option (CodePoint × Text)
  | a :: b :: c :: d :: t =>
    match hexValue a, hexValue b, hexValue c, hexValue d with
    | some a, some b, some c, some d => some (ofCode (((a * 16 + b) * 16 + c) * 16 + d), t)
    | _, _, _, _ => none
  | _ => none

/-- BACKSLASH -/
def backslash (c : CodePoint) : Option CodePoint :=
  if c = chr '"' ∨ c = chr '\\' ∨ c = chr '/' then some c
  else if c = chr 'b' then some (ofCode 0x08)
  else if c = chr 'f' then some (ofCode 0x0C)
  else if c = chr 'n' then some (chr '\n')
  else if c = chr 'r' then some (chr '\r')
  else if c = chr 't' then some (chr '\t')
  else none

/-- What an escape stands for, after its backslash. -/
def unescape : Text → Option (CodePoint × Text)
  | [] => none
  | c :: t =>
    if c = chr 'u' then
      match decodeUnicode t with
      | none => none
      | some (uni, rest) =>
        if isHigh uni && rest.take 2 = LlmGateway.str "\\u" then
          match decodeUnicode (rest.drop 2) with
          | none => none
          | some (uni2, rest2) => if isLow uni2 then some (combine uni uni2, rest2) else some (uni, rest)
        else some (uni, rest)
    else (backslash c).map fun d => (d, t)

/-- scanstring after the opening quote. -/
def scanString : Nat → Text → Option (Text × Text)
  | 0, _ | _, [] => none
  | n + 1, c :: t =>
    if c = chr '"' then some ([], t)
    else if c = chr '\\' then
      match unescape t with
      | none => none
      | some (d, t) =>
        match scanString n t with
        | none => none
        | some (s, rest) => some (d :: s, rest)
    else if c.val < 0x20 then none
    else
      match scanString n t with
      | none => none
      | some (s, rest) => some (c :: s, rest)

end Strings

section Numbers

/-- 0|[1-9][0-9]* after a sign. -/
def scanDigits (sign : Text) : Text → Option (Text × Text)
  | [] => none
  | c :: t =>
    if c = chr '0' then some (sign ++ [c], t)
    else if asciiDigit c then some (sign ++ c :: t.takeWhile asciiDigit, t.dropWhile asciiDigit)
    else none

/-- -?(0|[1-9][0-9]*) -/
def scanInteger (t : Text) : Option (Text × Text) :=
  if t.head? = some (chr '-') then scanDigits [chr '-'] t.tail else scanDigits [] t

/-- (\.[0-9]+)? -/
def scanFraction : Text → Text × Text
  | [] => ([], [])
  | c :: t =>
    if c = chr '.' ∧ t.takeWhile asciiDigit ≠ [] then (c :: t.takeWhile asciiDigit, t.dropWhile asciiDigit)
    else ([], c :: t)

/-- [-+]? -/
def takeSign : Text → Text × Text
  | [] => ([], [])
  | c :: t => if c = chr '-' ∨ c = chr '+' then ([c], t) else ([], c :: t)

/-- ([eE][-+]?[0-9]+)? -/
def scanExponent : Text → Text × Text
  | [] => ([], [])
  | c :: t =>
    let (sign, digits) := takeSign t
    if (c = chr 'e' ∨ c = chr 'E') ∧ digits.takeWhile asciiDigit ≠ [] then
      (c :: sign ++ digits.takeWhile asciiDigit, digits.dropWhile asciiDigit)
    else ([], c :: t)

def naturalOf (digits : Text) : Nat := digits.foldl (fun n d => n * 10 + (d.val - 48)) 0

/-- int() of the text of an integer. -/
def integerOf (t : Text) : Int :=
  if t.head? = some (chr '-') then -(naturalOf t.tail : Int) else naturalOf t

variable (toFloat : Text → FloatRepr)

/-- _match_number. toFloat is repr(float(text)). -/
def scanNumber (t : Text) : Option (Json × Text) :=
  match scanInteger t with
  | none => none
  | some (integer, t) =>
    let (frac, t) := scanFraction t
    let (exp, t) := scanExponent t
    some (if frac = [] ∧ exp = [] then .int (integerOf integer) else .float (toFloat (integer ++ frac ++ exp)), t)

end Numbers

section Values

def isSpace (c : CodePoint) : Bool := c = chr ' ' || c = chr '\t' || c = chr '\n' || c = chr '\r'

def skip (t : Text) : Text := t.dropWhile isSpace

variable (toFloat : Text → FloatRepr)

/-- The literals that are neither numbers nor strings. -/
def constants : Members :=
  [(LlmGateway.str "null", .null), (LlmGateway.str "true", .bool true), (LlmGateway.str "false", .bool false)] ++
    [LlmGateway.str "NaN", LlmGateway.str "Infinity", LlmGateway.str "-Infinity"].map fun t => (t, .float (toFloat t))

def scanConstant (t : Text) : Option (Json × Text) :=
  ((constants toFloat).find? fun m => m.1.isPrefixOf t).map fun m => (m.2, t.drop m.1.length)

mutual

/-- scan_once, with the number of calls that it may nest. -/
def scanOnce : Nat → Text → Option (Json × Text)
  | 0, _ | _, [] => none
  | n + 1, c :: t =>
    if c = chr '"' then (scanString t.length t).map fun r => (.str r.1, r.2)
    else if c = chr '\x7b' then
      match skip t with
      | [] => none
      | d :: t =>
        if d = chr '\x7d' then some (.dict [], t)
        else (scanMembers n (d :: t)).map fun r => (.dict r.1, r.2)
    else if c = chr '[' then
      match skip t with
      | [] => none
      | d :: t =>
        if d = chr ']' then some (.list [], t) else (scanItems n (d :: t)).map fun r => (.list r.1, r.2)
    else (scanConstant toFloat (c :: t)).or (scanNumber toFloat (c :: t))

/-- JSONArray from a value on. -/
def scanItems : Nat → Text → Option (List Json × Text)
  | 0, _ => none
  | n + 1, t =>
    match scanOnce n t with
    | none => none
    | some (v, t) =>
      match skip t with
      | [] => none
      | c :: t =>
        if c = chr ']' then some ([v], t)
        else if c = chr ',' then (scanItems n (skip t)).map fun r => (v :: r.1, r.2)
        else none

/-- JSONObject from a key on. -/
def scanMembers : Nat → Text → Option (Members × Text)
  | 0, _ | _, [] => none
  | n + 1, c :: t =>
    if c ≠ chr '"' then none
    else
      match scanString t.length t with
      | none => none
      | some (k, t) =>
        match skip t with
        | [] => none
        | c :: t =>
          if c ≠ chr ':' then none
          else
            match scanOnce n (skip t) with
            | none => none
            | some (v, t) =>
              match skip t with
              | [] => none
              | c :: t =>
                if c = chr '\x7d' then some ([(k, v)], t)
                else if c = chr ',' then (scanMembers n (skip t)).map fun r => ((k, v) :: r.1, r.2)
                else none

end

/-- The decoding of a str: white space may stand around the value. -/
def parse (t : Text) : Except LoadError Json :=
  match scanOnce toFloat (t.length + 1) (skip t) with
  | none => .error .jsonDecodeError
  | some (v, rest) => if skip rest = [] then .ok v else .error .jsonDecodeError

end Values

end LlmGateway.Json
