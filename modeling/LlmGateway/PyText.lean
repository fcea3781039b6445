import Mathlib.Data.List.Basic

namespace LlmGateway

/-- A character of a Python string: any code point, lone surrogates included. -/
abbrev CodePoint := Fin 0x110000

abbrev Text := List CodePoint

theorem toNat_lt (c : Char) : c.toNat < 0x110000 := by
  have h := c.valid
  simp only [UInt32.isValidChar, Nat.isValidChar] at h
  change c.val.toNat < 0x110000
  omega

def chr (c : Char) : CodePoint := ⟨c.toNat, toNat_lt c⟩

def str (s : String) : Text := s.toList.map chr

/-- t[i:j] for indices that are not negative. -/
def slice {α : Type} (t : List α) (i j : Nat) : List α := (t.take j).drop i

/-- The first and the last part of t.partition(c). -/
def partition (t : Text) (c : CodePoint) : Text × Text :=
  (t.takeWhile (· != c), (t.dropWhile (· != c)).drop 1)

section Slice

variable {α : Type} {t u : List α} {i j k : Nat}

theorem slice_append (hij : i ≤ j) (hjk : j ≤ k) : slice t i j ++ slice t j k = slice t i k := by
  obtain ⟨d, rfl⟩ := Nat.exists_eq_add_of_le hij
  obtain ⟨e, rfl⟩ := Nat.exists_eq_add_of_le hjk
  simp only [slice, List.drop_take]
  rw [show i + d - i = d by omega, show i + d + e - (i + d) = e by omega,
    show i + d + e - i = d + e by omega, List.take_add, List.drop_drop]

theorem slice_append_drop (hij : i ≤ j) : slice t i j ++ t.drop j = t.drop i := by
  obtain ⟨d, rfl⟩ := Nat.exists_eq_add_of_le hij
  rw [slice, List.drop_take, show i + d - i = d by omega, ← List.drop_drop, List.take_append_drop]

theorem slice_self : slice t i i = [] := by
  simp [slice]

theorem slice_prefix (hj : j ≤ t.length) : slice (t ++ u) i j = slice t i j := by
  rw [slice, slice, List.take_append_of_le_length hj]

theorem slice_drop (c : Nat) : slice (t.drop c) i j = slice t (c + i) (c + j) := by
  simp only [slice, List.drop_take, List.drop_drop]
  rw [show c + j - (c + i) = j - i by omega]

theorem slice_length (hj : j ≤ t.length) : (slice t i j).length = j - i := by
  simp [slice, Nat.min_eq_left hj]

theorem slice_one {c : α} (h : t[i]? = some c) : slice t i (i + 1) = [c] := by
  obtain ⟨hi, rfl⟩ := List.getElem?_eq_some_iff.mp h
  rw [slice, List.drop_take, List.drop_eq_getElem_cons hi, Nat.add_sub_cancel_left]
  rfl

theorem getElem?_slice {n : Nat} (hn : i + n < j) : (slice t i j)[n]? = t[i + n]? := by
  rw [slice, List.getElem?_drop, List.getElem?_take_of_lt hn]

end Slice

def between (lo hi : Char) (c : CodePoint) : Bool := lo.toNat ≤ c.val && c.val ≤ hi.toNat

def asciiDigit (c : CodePoint) : Bool := between '0' '9' c

def asciiLetter (c : CodePoint) : Bool := between 'A' 'Z' c || between 'a' 'z' c

def asciiAlnum (c : CodePoint) : Bool := asciiLetter c || asciiDigit c

def asciiSpace (c : CodePoint) : Bool := c.val = 32 || (9 ≤ c.val && c.val ≤ 13) || (28 ≤ c.val && c.val ≤ 31)

def asciiDecimal (c : CodePoint) : Option (Fin 10) :=
  if h : 48 ≤ c.val ∧ c.val ≤ 57 then some ⟨c.val - 48, by omega⟩ else none

def asciiLower (c : CodePoint) : CodePoint :=
  if between 'A' 'Z' c then c + 32 else c

def isAscii (c : CodePoint) : Bool := c.val < 128

def isSurrogate (c : CodePoint) : Bool := 0xD800 ≤ c.val && c.val ≤ 0xDFFF

/-- The character database behind str.isalnum, str.isdigit, \d, str.isspace
and str.lower: any tables with the documented inclusions and the fixed values
on ASCII. decimal c is the value int(c) of a character that \d matches. -/
structure Unicode where
  isalnum : CodePoint → Bool
  isdigit : CodePoint → Bool
  decimal : CodePoint → Option (Fin 10)
  isspace : CodePoint → Bool
  lower : Text → Text
  isdigit_of_decimal : ∀ c, (decimal c).isSome → isdigit c
  decimal_surrogate : ∀ c, isSurrogate c → decimal c = none
  isalnum_of_isdigit : ∀ c, isdigit c → isalnum c
  isalnum_ascii : ∀ c, isAscii c → isalnum c = asciiAlnum c
  isdigit_ascii : ∀ c, isAscii c → isdigit c = asciiDigit c
  decimal_ascii : ∀ c, isAscii c → decimal c = asciiDecimal c
  isspace_ascii : ∀ c, isAscii c → isspace c = asciiSpace c
  lower_ascii : ∀ t : Text, t.all isAscii → lower t = t.map asciiLower

namespace Unicode

/-- The tables with nothing outside ASCII. -/
def ascii : Unicode where
  isalnum := asciiAlnum
  isdigit := asciiDigit
  decimal := asciiDecimal
  isspace := asciiSpace
  lower t := t.map asciiLower
  isdigit_of_decimal c h := by
    simp only [asciiDecimal] at h
    split at h
    · next hc => simpa [asciiDigit, between] using hc
    · simp at h
  decimal_surrogate c h := by
    simp only [isSurrogate, Bool.and_eq_true, decide_eq_true_eq] at h
    exact dif_neg (by omega)
  isalnum_of_isdigit c h := by simp [asciiAlnum, h]
  isalnum_ascii _ _ := rfl
  isdigit_ascii _ _ := rfl
  decimal_ascii _ _ := rfl
  isspace_ascii _ _ := rfl
  lower_ascii _ _ := rfl

variable (U : Unicode)

/-- The class \d. -/
def isDecimal (c : CodePoint) : Bool := (U.decimal c).isSome

/-- The class \w. -/
def isWord (c : CodePoint) : Bool := U.isalnum c || c = chr '_'

/-- str.strip() -/
def strip (t : Text) : Text := ((t.dropWhile U.isspace).reverse.dropWhile U.isspace).reverse

theorem isdigit_of_isDecimal {c : CodePoint} (h : U.isDecimal c) : U.isdigit c :=
  U.isdigit_of_decimal c h

theorem isalnum_of_asciiAlnum {c : CodePoint} (h : asciiAlnum c) : U.isalnum c := by
  have hc : isAscii c := by
    simp only [asciiAlnum, asciiLetter, asciiDigit, between, Bool.or_eq_true, Bool.and_eq_true,
      decide_eq_true_eq] at h
    have h9 : '9'.toNat = 57 := rfl
    have hZ : 'Z'.toNat = 90 := rfl
    have hz : 'z'.toNat = 122 := rfl
    simp only [isAscii, decide_eq_true_eq]
    omega
  rw [U.isalnum_ascii c hc, h]

end Unicode

end LlmGateway
