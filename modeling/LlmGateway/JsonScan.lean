import LlmGateway.JsonReader
import Mathlib.Data.List.TakeWhile

namespace LlmGateway.Json

section Strings

theorem hexValue_hexDigit (n : Nat) : hexValue (hexDigit n) = some (n % 16) := by
  have hdigits : ∀ m < 16, hexValue (chr (Nat.digitChar m)) = some m := by decide
  exact hdigits _ (Nat.mod_lt n (by decide))

/-- The four digits of an escape. -/
def hexDigits (n : Nat) : Text := [hexDigit (n / 4096), hexDigit (n / 256), hexDigit (n / 16), hexDigit n]

theorem unicodeEscape_append (n : Nat) (t : Text) :
    unicodeEscape n ++ t = chr '\\' :: chr 'u' :: (hexDigits n ++ t) := rfl

theorem decodeUnicode_hexDigits {n : Nat} (h : n < 65536) (t : Text) :
    decodeUnicode (hexDigits n ++ t) = some (ofCode n, t) := by
  have hn : ((n / 4096 % 16 * 16 + n / 256 % 16) * 16 + n / 16 % 16) * 16 + n % 16 = n := by omega
  change decodeUnicode (_ :: _ :: _ :: _ :: t) = _
  rw [decodeUnicode, hexValue_hexDigit, hexValue_hexDigit, hexValue_hexDigit, hexValue_hexDigit]
  dsimp only
  rw [hn]

theorem ofNat_val (c : CodePoint) : ofCode c.val = c := Fin.ext (Nat.mod_eq_of_lt c.isLt)

/-- The ways in which a character is written. -/
inductive Escaped (c : CodePoint) : Text → Prop
  | plain (hquote : c ≠ chr '"') (hslash : c ≠ chr '\\') (h : 0x20 ≤ c.val ∧ c.val < 0x7F) : Escaped c [c]
  | short (d : CodePoint) (hd : d ≠ chr 'u') (h : backslash d = some c) (hascii : c.val < 0x80) :
      Escaped c [chr '\\', d]
  | code (h : c.val < 0x10000) : Escaped c (unicodeEscape c.val)
  | pair (h : 0x10000 ≤ c.val) :
      Escaped c (unicodeEscape (0xD800 + (c.val - 0x10000) / 0x400) ++ unicodeEscape (0xDC00 + c.val % 0x400))

theorem escaped_escapeChar (c : CodePoint) : Escaped c (escapeChar c) := by
  rw [escapeChar]
  split
  · next h => exact h ▸ .short (chr '"') (by decide) rfl (by decide)
  · next hquote =>
      split
      · next h => exact h ▸ .short (chr '\\') (by decide) rfl (by decide)
      · next hslash =>
          split
          · next h => exact h ▸ .short (chr 'n') (by decide) rfl (by decide)
          split
          · next h => exact h ▸ .short (chr 'r') (by decide) rfl (by decide)
          split
          · next h => exact h ▸ .short (chr 't') (by decide) rfl (by decide)
          split
          · next h =>
              have hc : c = 0x0C := Fin.ext h
              exact hc ▸ .short (chr 'f') (by decide) rfl (by decide)
          split
          · next h =>
              have hc : c = 0x08 := Fin.ext h
              exact hc ▸ .short (chr 'b') (by decide) rfl (by decide)
          split
          · next h =>
              simp only [printed, Bool.and_eq_true, decide_eq_true_eq] at h
              exact .plain hquote hslash h
          split
          · next h => exact .code h
          · next h => exact .pair (by omega)

theorem isHigh_iff {c : CodePoint} : isHigh c ↔ 0xD800 ≤ c.val ∧ c.val ≤ 0xDBFF := by
  simp [isHigh]

theorem isLow_iff {c : CodePoint} : isLow c ↔ 0xDC00 ≤ c.val ∧ c.val ≤ 0xDFFF := by
  simp [isLow]

variable {c d : CodePoint} {n : Nat} {t s rest : Text}

/-- An escape that a low surrogate does not start. -/
def NoLow (t : Text) : Prop :=
  t.take 2 = LlmGateway.str "\\u" → ∃ uni rest, decodeUnicode (t.drop 2) = some (uni, rest) ∧ isLow uni = false

theorem noLow_quote (t : Text) : NoLow (chr '"' :: t) := by
  intro h
  cases t <;> cases h

theorem noLow_escape (hd : isLow d = false) (t : Text) : NoLow (escapeChar d ++ t) := by
  intro h
  have hcases := escaped_escapeChar d
  generalize escapeChar d = x at hcases h ⊢
  cases hcases with
  | plain hquote hslash _ =>
      exfalso
      have hhead : d = chr '\\' := by
        cases t <;> cases h
        rfl
      exact hslash hhead
  | short e he _ _ =>
      exfalso
      have hsecond : e = chr 'u' := (List.cons_eq_cons.mp (List.cons_eq_cons.mp h).2).1
      exact he hsecond
  | code hlt =>
      rw [unicodeEscape_append]
      refine ⟨_, t, decodeUnicode_hexDigits hlt t, ?_⟩
      rw [ofNat_val]
      exact hd
  | pair hle =>
      rw [List.append_assoc, unicodeEscape_append]
      refine ⟨_, _, decodeUnicode_hexDigits (by have := d.isLt; omega) _, ?_⟩
      rw [Bool.eq_false_iff]
      intro hlow
      have hval := isLow_iff.mp hlow
      have hlt := d.isLt
      simp only [ofCode] at hval
      omega

theorem unescape_code (hc : isHigh c = false) (hlt : c.val < 0x10000) (t : Text) :
    unescape (chr 'u' :: (hexDigits c.val ++ t)) = some (c, t) := by
  rw [unescape, if_pos rfl, decodeUnicode_hexDigits hlt, ofNat_val]
  simp [hc]

theorem unescape_high (hc : isHigh c) (ht : NoLow t) : unescape (chr 'u' :: (hexDigits c.val ++ t)) = some (c, t) := by
  have hlt : c.val < 65536 := by have := isHigh_iff.mp hc; omega
  rw [unescape, if_pos rfl, decodeUnicode_hexDigits hlt, ofNat_val]
  dsimp only
  split
  · next h =>
      simp only [Bool.and_eq_true, decide_eq_true_eq] at h
      obtain ⟨uni, rest, hdecode, hlow⟩ := ht h.2
      rw [hdecode]
      simp [hlow]
  · rfl

theorem unescape_pair (hc : isHigh c) (hd : isLow d) (t : Text) :
    unescape (chr 'u' :: (hexDigits c.val ++ (unicodeEscape d.val ++ t))) = some (combine c d, t) := by
  have hc' := isHigh_iff.mp hc
  have hd' := isLow_iff.mp hd
  have htake : List.take 2 (chr '\\' :: chr 'u' :: (hexDigits d.val ++ t)) = LlmGateway.str "\\u" := rfl
  have hdrop : List.drop 2 (chr '\\' :: chr 'u' :: (hexDigits d.val ++ t)) = hexDigits d.val ++ t := rfl
  rw [unescape, if_pos rfl, decodeUnicode_hexDigits (by omega), ofNat_val, unicodeEscape_append]
  dsimp only
  rw [htake, hdrop, decodeUnicode_hexDigits (by omega), ofNat_val]
  simp [hc, hd]

theorem scanString_escape {x : Text} (hx : unescape x = some (c, t)) (hs : scanString n t = some (s, rest)) :
    scanString (n + 1) (chr '\\' :: x) = some (c :: s, rest) := by
  rw [scanString, if_neg (by decide), if_pos rfl, hx]
  dsimp only
  rw [hs]

theorem combine_split (h : 0x10000 ≤ c.val) :
    ∃ hi lo : CodePoint, isHigh hi ∧ isLow lo ∧ combine hi lo = c ∧ hi.val = 0xD800 + (c.val - 0x10000) / 0x400 ∧
      lo.val = 0xDC00 + c.val % 0x400 := by
  have hlt := c.isLt
  refine ⟨⟨0xD800 + (c.val - 0x10000) / 0x400, by omega⟩, ⟨0xDC00 + c.val % 0x400, by omega⟩, ?_, ?_, ?_, rfl, rfl⟩
  · rw [isHigh_iff]
    dsimp only
    omega
  · rw [isLow_iff]
    dsimp only
    omega
  · apply Fin.ext
    simp only [combine, ofCode]
    omega

/-- A character that is no high surrogate is read back whatever follows. -/
theorem scanString_char (hc : isHigh c = false) (hs : scanString n t = some (s, rest)) :
    scanString (n + 1) (escapeChar c ++ t) = some (c :: s, rest) := by
  have hcases := escaped_escapeChar c
  generalize escapeChar c = x at hcases
  cases hcases with
  | plain hquote hslash h =>
      rw [List.singleton_append, scanString, if_neg hquote, if_neg hslash, if_neg (by omega), hs]
  | short d hd h _ =>
      apply scanString_escape _ hs
      change unescape (d :: t) = some (c, t)
      rw [unescape, if_neg hd, h]
      rfl
  | code h =>
      rw [unicodeEscape_append]
      exact scanString_escape (unescape_code hc h t) hs
  | pair h =>
      obtain ⟨hi, lo, hhi, hlo, hcombine, hhival, hloval⟩ := combine_split h
      rw [List.append_assoc, ← hhival, ← hloval, unicodeEscape_append, ← hcombine]
      exact scanString_escape (unescape_pair hhi hlo t) hs

theorem escapeChar_surrogate (h : 0xD800 ≤ c.val ∧ c.val ≤ 0xDFFF) : escapeChar c = unicodeEscape c.val := by
  have hcases := escaped_escapeChar c
  generalize hx : escapeChar c = x at hcases
  cases hcases with
  | plain _ _ h' => omega
  | short d _ _ h' => omega
  | code _ => rfl
  | pair h' => omega

/-- A written text is read back with its pairs of surrogates joined. -/
theorem scanString_quoted (s rest : Text) {n : Nat} (hn : s.length < n) :
    scanString n (s.flatMap escapeChar ++ chr '"' :: rest) = some (joined s, rest) := by
  induction s using joined.induct generalizing n with
  | case1 =>
      obtain ⟨n, rfl⟩ := Nat.exists_eq_add_of_lt hn
      rfl
  | case2 c =>
      obtain ⟨n, rfl⟩ := Nat.exists_eq_add_of_le' hn
      have hs : scanString (n + 1) (chr '"' :: rest) = some ([], rest) := rfl
      rw [List.flatMap_singleton, joined]
      cases hc : isHigh c with
      | false => exact scanString_char hc hs
      | true =>
          have hval := isHigh_iff.mp hc
          rw [escapeChar_surrogate (by omega), unicodeEscape_append]
          exact scanString_escape (unescape_high hc (noLow_quote rest)) hs
  | case3 c d t h ih =>
      obtain ⟨n, rfl⟩ := Nat.exists_eq_add_of_lt hn
      rw [Bool.and_eq_true] at h
      have hc := isHigh_iff.mp h.1
      have hd := isLow_iff.mp h.2
      rw [List.flatMap_cons, List.flatMap_cons, List.append_assoc, List.append_assoc, escapeChar_surrogate (by omega),
        escapeChar_surrogate (by omega), unicodeEscape_append, joined, if_pos (by simp [h])]
      apply scanString_escape (unescape_pair h.1 h.2 _)
      apply ih
      simp only [List.length_cons]
      omega
  | case4 c d t h ih =>
      obtain ⟨n, rfl⟩ := Nat.exists_eq_add_of_le' hn
      have hs : scanString (n + t.length + 2) ((d :: t).flatMap escapeChar ++ chr '"' :: rest) =
          some (joined (d :: t), rest) := by
        apply ih
        simp only [List.length_cons]
        omega
      rw [List.flatMap_cons, List.append_assoc, joined, if_neg h]
      cases hc : isHigh c with
      | false => exact scanString_char hc hs
      | true =>
          have hval := isHigh_iff.mp hc
          have hd : isLow d = false := by simpa [hc] using h
          rw [escapeChar_surrogate (by omega), unicodeEscape_append]
          apply scanString_escape (unescape_high hc _) hs
          rw [List.flatMap_cons, List.append_assoc]
          exact noLow_escape hd _

end Strings

section Numbers

/-- A character that may go on with a number. -/
def numeral (c : CodePoint) : Bool := asciiDigit c || c = chr '.' || c = chr 'e' || c = chr 'E'

/-- A number ends before this text. -/
def Stops (t : Text) : Prop := ∀ c u, t = c :: u → numeral c = false

theorem stops_cons {c : CodePoint} {t : Text} (h : numeral c = false) : Stops (c :: t) := by
  rintro d u ⟨⟩
  exact h

theorem stops_nil : Stops [] := by
  rintro c u ⟨⟩

theorem Stops.of_eq {c : CodePoint} {t : Text} (h : Stops (c :: t)) :
    asciiDigit c = false ∧ c ≠ chr '.' ∧ c ≠ chr 'e' ∧ c ≠ chr 'E' := by
  simpa [numeral, and_assoc] using h c t rfl

variable {t rest : Text}

theorem takeWhile_stops (h : Stops rest) : (t ++ rest).takeWhile asciiDigit = t.takeWhile asciiDigit := by
  induction t with
  | nil =>
      cases rest with
      | nil => rfl
      | cons c rest => exact List.takeWhile_cons_of_neg (by simp [h.of_eq.1])
  | cons c t ih =>
      rw [List.cons_append, List.takeWhile_cons, List.takeWhile_cons, ih]

theorem dropWhile_stops (h : Stops rest) : (t ++ rest).dropWhile asciiDigit = t.dropWhile asciiDigit ++ rest := by
  induction t with
  | nil =>
      cases rest with
      | nil => rfl
      | cons c rest => exact List.dropWhile_cons_of_neg (by simp [h.of_eq.1])
  | cons c t ih =>
      rw [List.cons_append, List.dropWhile_cons, List.dropWhile_cons, ih]
      split <;> rfl

theorem scanDigits_append {sign i u : Text} (h : Stops rest) (hi : scanDigits sign t = some (i, u)) :
    sign ++ t = i ++ u ∧ scanDigits sign (t ++ rest) = some (i, u ++ rest) := by
  cases t with
  | nil => cases hi
  | cons c t =>
      rw [scanDigits] at hi
      rw [List.cons_append, scanDigits]
      split at hi
      · next hc =>
          cases hi
          rw [if_pos hc]
          exact ⟨by simp, rfl⟩
      · next hc =>
          rw [if_neg hc]
          split at hi
          · next hdigit =>
              cases hi
              rw [if_pos hdigit, takeWhile_stops h, dropWhile_stops h]
              exact ⟨by simp, rfl⟩
          · cases hi

theorem scanInteger_append {i u : Text} (h : Stops rest) (hi : scanInteger t = some (i, u)) :
    t = i ++ u ∧ scanInteger (t ++ rest) = some (i, u ++ rest) := by
  rw [scanInteger] at hi ⊢
  cases t with
  | nil => cases hi
  | cons c t =>
      simp only [List.cons_append, List.head?_cons, Option.some.injEq, List.tail_cons] at hi ⊢
      by_cases hc : c = chr '-'
      · rw [if_pos hc] at hi ⊢
        rw [hc]
        exact scanDigits_append h hi
      · rw [if_neg hc] at hi ⊢
        exact scanDigits_append h hi

theorem scanFraction_append {f u : Text} (h : Stops rest) (hf : scanFraction t = (f, u)) :
    t = f ++ u ∧ scanFraction (t ++ rest) = (f, u ++ rest) := by
  cases t with
  | nil =>
      cases hf
      refine ⟨rfl, ?_⟩
      cases rest with
      | nil => rfl
      | cons c rest =>
          rw [List.nil_append, scanFraction, if_neg fun hc => h.of_eq.2.1 hc.1]
  | cons c t =>
      rw [scanFraction] at hf
      rw [List.cons_append, scanFraction, takeWhile_stops h, dropWhile_stops h]
      by_cases hc : c = chr '.' ∧ t.takeWhile asciiDigit ≠ []
      · rw [if_pos hc] at hf ⊢
        cases hf
        exact ⟨by simp, rfl⟩
      · rw [if_neg hc] at hf ⊢
        cases hf
        exact ⟨rfl, rfl⟩

theorem takeSign_append {sign u : Text} (ht : t ≠ []) (hs : takeSign t = (sign, u)) :
    t = sign ++ u ∧ takeSign (t ++ rest) = (sign, u ++ rest) := by
  cases t with
  | nil => exact absurd rfl ht
  | cons c t =>
      rw [takeSign] at hs
      rw [List.cons_append, takeSign]
      by_cases hc : c = chr '-' ∨ c = chr '+'
      · rw [if_pos hc] at hs ⊢
        cases hs
        exact ⟨rfl, rfl⟩
      · rw [if_neg hc] at hs ⊢
        cases hs
        exact ⟨rfl, rfl⟩

/-- An exponent that takes the whole text takes no more when the text goes on. -/
theorem scanExponent_append {e : Text} (h : Stops rest) (he : scanExponent t = (e, [])) :
    t = e ∧ scanExponent (t ++ rest) = (e, rest) := by
  cases t with
  | nil =>
      cases he
      refine ⟨rfl, ?_⟩
      cases rest with
      | nil => rfl
      | cons c rest => exact if_neg fun hc => hc.1.elim h.of_eq.2.2.1 h.of_eq.2.2.2
  | cons c t =>
      obtain ⟨sign, u, hs⟩ : ∃ sign u, takeSign t = (sign, u) := ⟨_, _, rfl⟩
      rw [scanExponent, hs] at he
      simp only at he
      by_cases hc : (c = chr 'e' ∨ c = chr 'E') ∧ u.takeWhile asciiDigit ≠ []
      · rw [if_pos hc] at he
        obtain ⟨rfl, hdrop⟩ := Prod.mk.inj he
        have hne : t ≠ [] := by
          rintro rfl
          cases hs
          exact hc.2 rfl
        obtain ⟨htu, hs'⟩ := takeSign_append hne hs
        have htake := List.takeWhile_append_dropWhile (p := asciiDigit) (l := u)
        rw [hdrop, List.append_nil] at htake
        refine ⟨by rw [htake, htu, List.cons_append], ?_⟩
        rw [List.cons_append, scanExponent, hs']
        simp only
        rw [takeWhile_stops h, dropWhile_stops h, if_pos hc, hdrop, List.nil_append]
      · rw [if_neg hc] at he
        cases he

/-- The text of a float: a number with a fraction or an exponent. -/
def isFloatNumber (t : Text) : Bool :=
  match scanInteger t with
  | none => false
  | some (_, t) =>
    let (frac, t) := scanFraction t
    let (exp, t) := scanExponent t
    t = [] && (frac ≠ [] || exp ≠ [])

def specialFloats : List Text :=
  [LlmGateway.str "NaN", LlmGateway.str "Infinity", LlmGateway.str "-Infinity"]

/-- What json.dumps writes for the float is read as that float. -/
def Reads (toFloat : Text → FloatRepr) (repr : FloatRepr) : Bool :=
  (isFloatNumber repr.text || specialFloats.contains repr.text) && toFloat repr.text = repr

variable {toFloat : Text → FloatRepr}

theorem scanNumber_float (h : Stops rest) (ht : isFloatNumber t) :
    scanNumber toFloat (t ++ rest) = some (.float (toFloat t), rest) := by
  rw [isFloatNumber] at ht
  cases hi : scanInteger t with
  | none =>
      rw [hi] at ht
      cases ht
  | some r =>
      obtain ⟨i, u⟩ := r
      simp only [hi] at ht
      obtain ⟨f, v, hf⟩ : ∃ f v, scanFraction u = (f, v) := ⟨_, _, rfl⟩
      simp only [hf] at ht
      obtain ⟨e, w, he⟩ : ∃ e w, scanExponent v = (e, w) := ⟨_, _, rfl⟩
      simp only [he, Bool.and_eq_true, Bool.or_eq_true, decide_eq_true_eq] at ht
      obtain ⟨rfl, hsome⟩ := ht
      obtain ⟨hti, hi'⟩ := scanInteger_append h hi
      obtain ⟨huf, hf'⟩ := scanFraction_append h hf
      obtain ⟨hve, he'⟩ := scanExponent_append h he
      have htext : i ++ f ++ e = t := by rw [hti, huf, hve, List.append_assoc]
      rw [scanNumber, hi']
      dsimp only
      rw [hf']
      dsimp only
      rw [he', htext]
      dsimp only
      rw [if_neg]
      rintro ⟨hfrac, hexp⟩
      exact hsome.elim (fun hne => hne hfrac) fun hne => hne hexp

theorem scanNumber_of_digits {c : CodePoint} {digits : Text} (hc : asciiDigit c) (h0 : c = chr '0' → digits = [])
    (hdigits : digits.all asciiDigit) (h : Stops rest) (sign : Bool) :
    scanNumber toFloat ((if sign then [chr '-'] else []) ++ c :: digits ++ rest) =
      some (.int (integerOf ((if sign then [chr '-'] else []) ++ c :: digits)), rest) := by
  have htake : digits.takeWhile asciiDigit = digits := List.takeWhile_eq_self_iff.mpr (List.all_eq_true.mp hdigits)
  have hdrop : digits.dropWhile asciiDigit = [] := List.dropWhile_eq_nil_iff.mpr (List.all_eq_true.mp hdigits)
  have hinteger : scanInteger ((if sign then [chr '-'] else []) ++ c :: digits) =
      some ((if sign then [chr '-'] else []) ++ c :: digits, []) := by
    have hne : c ≠ chr '-' := by
      rintro rfl
      cases hc
    have hunsigned : (if c = chr '0' then some ((if sign then [chr '-'] else []) ++ [c], digits)
        else if asciiDigit c then some ((if sign then [chr '-'] else []) ++ c :: digits.takeWhile asciiDigit,
          digits.dropWhile asciiDigit) else none) = some ((if sign then [chr '-'] else []) ++ c :: digits, []) := by
      by_cases hzero : c = chr '0'
      · rw [if_pos hzero, h0 hzero]
      · rw [if_neg hzero, if_pos hc, htake, hdrop]
    cases sign with
    | true => exact hunsigned
    | false =>
        simp only [scanInteger, List.nil_append, List.head?_cons, Option.some.injEq, hne, if_false,
          Bool.false_eq_true] at hunsigned ⊢
        exact hunsigned
  have hf := (scanFraction_append h (show scanFraction [] = ([], []) from rfl)).2
  have he := (scanExponent_append h (show scanExponent [] = ([], []) from rfl)).2
  rw [scanNumber, (scanInteger_append h hinteger).2]
  dsimp only
  rw [hf]
  dsimp only
  rw [List.nil_append] at he ⊢
  rw [he]
  rfl

theorem naturalOf_naturalText (n : Nat) : naturalOf (naturalText n) = n := by
  have h := Nat.ofDigitChars_ten_toDigits (n := n)
  rw [Nat.ofDigitChars_eq_foldl] at h
  simp only [Nat.mul_comm 10] at h
  rw [naturalOf, naturalText, List.foldl_map]
  exact h

theorem toDigits_head (n : Nat) : ∃ c t, Nat.toDigits 10 n = c :: t ∧ (c = '0' → t = []) := by
  induction n using Nat.strongRecOn with
  | ind n ih =>
      by_cases hn : n < 10
      · rw [Nat.toDigits_of_lt_base hn]
        exact ⟨_, [], rfl, fun _ => rfl⟩
      · obtain ⟨c, t, hct, hzero⟩ := ih (n / 10) (by omega)
        rw [Nat.toDigits_of_base_le (by decide) (by omega), hct]
        refine ⟨c, t ++ [(n % 10).digitChar], rfl, fun hc => ?_⟩
        exfalso
        -- a leading zero would be the only digit of n / 10
        have hval := Nat.ofDigitChars_ten_toDigits (n := n / 10)
        rw [hct, hc, hzero hc] at hval
        have hpos : 0 < n / 10 := by omega
        exact absurd hval (by simpa [Nat.ofDigitChars] using Nat.ne_of_lt hpos)

theorem chr_inj {c d : Char} (h : chr c = chr d) : c = d := by
  have hval : (chr c).val = (chr d).val := congrArg Fin.val h
  exact Char.toNat_inj.mp hval

theorem naturalText_spec (n : Nat) : ∃ c t, naturalText n = c :: t ∧ asciiDigit c ∧ t.all asciiDigit ∧
    (c = chr '0' → t = []) := by
  obtain ⟨c, t, hct, hzero⟩ := toDigits_head n
  have hdigit : ∀ d ∈ c :: t, asciiDigit (chr d) := by
    intro d hd
    rw [← hct] at hd
    have h := Nat.isDigit_of_mem_toDigits (by decide) (by decide) hd
    rw [Char.isDigit_iff_toNat] at h
    rw [asciiDigit, between, Bool.and_eq_true]
    exact ⟨decide_eq_true h.1, decide_eq_true h.2⟩
  refine ⟨chr c, t.map chr, by rw [naturalText, hct, List.map_cons], hdigit c List.mem_cons_self, ?_, ?_⟩
  · rw [List.all_map, List.all_eq_true]
    exact fun d hd => hdigit d (List.mem_cons_of_mem c hd)
  · intro h
    rw [hzero (chr_inj h), List.map_nil]

theorem scanNumber_integer (n : Int) (h : Stops rest) :
    scanNumber toFloat (integerText n ++ rest) = some (.int n, rest) := by
  cases n with
  | ofNat n =>
      obtain ⟨c, t, hn, hc, ht, hzero⟩ := naturalText_spec n
      have hne : c ≠ chr '-' := by
        rintro rfl
        cases hc
      have hint : integerOf (naturalText n) = n := by
        rw [integerOf, naturalOf_naturalText, hn, if_neg (by simp [hne])]
      rw [integerText, hn]
      refine (scanNumber_of_digits hc hzero ht h false).trans ?_
      rw [← hn]
      change some (Json.int (integerOf (naturalText n)), rest) = _
      rw [hint]
      rfl
  | negSucc n =>
      obtain ⟨c, t, hn, hc, ht, hzero⟩ := naturalText_spec (n + 1)
      have hint : integerOf (chr '-' :: naturalText (n + 1)) = Int.negSucc n := by
        rw [integerOf, List.head?_cons, if_pos rfl, List.tail_cons, naturalOf_naturalText]
        rfl
      rw [integerText, hn]
      refine (scanNumber_of_digits hc hzero ht h true).trans ?_
      rw [← hn]
      change some (Json.int (integerOf (chr '-' :: naturalText (n + 1))), rest) = _
      rw [hint]

end Numbers

end LlmGateway.Json
