import LlmGateway.PyText

namespace LlmGateway

abbrev Byte := Fin 256

abbrev Bytes := List Byte

namespace Utf8

def isContinuation (b : Byte) : Bool := 0x80 ≤ b.val && b.val ≤ 0xBF

/-- How many bytes follow a first byte, if it is one. -/
def trailing (b : Byte) : Option Nat :=
  if b.val < 0x80 then some 0
  else if b.val < 0xC2 then none
  else if b.val < 0xE0 then some 1
  else if b.val < 0xF0 then some 2
  else if b.val < 0xF5 then some 3
  else none

/-- The second bytes that a first byte admits: no overlong forms, no
surrogates, nothing past the last code point. -/
def admitsSecond (b c : Byte) : Bool :=
  isContinuation c &&
    (b.val ≠ 0xE0 || 0xA0 ≤ c.val) && (b.val ≠ 0xED || c.val < 0xA0) &&
    (b.val ≠ 0xF0 || 0x90 ≤ c.val) && (b.val ≠ 0xF4 || c.val < 0x90)

/-- The bits of a first byte that n + 1 others follow. -/
def leadBits (b : Byte) : Nat → Nat
  | 0 => b.val - 0xC0
  | 1 => b.val - 0xE0
  | _ => b.val - 0xF0

def shiftIn (bits : Nat) (c : Byte) : Nat := bits * 64 + (c.val - 0x80)

def codePoint? (n : Nat) : Option CodePoint := if h : n < 0x110000 then some ⟨n, h⟩ else none

/-- The rest of a sequence of which n bytes are still to come. -/
def takeContinuation : Nat → Nat → Bytes → Option CodePoint × Bytes
  | 0, bits, rest => (codePoint? bits, rest)
  | _ + 1, _, [] => (none, [])
  | n + 1, bits, c :: rest =>
    if isContinuation c then takeContinuation n (shiftIn bits c) rest else (none, c :: rest)

/-- The first character, or none for the longest ill-formed piece that
could have begun one, and the bytes after it. -/
def decodeStep (b : Byte) (rest : Bytes) : Option CodePoint × Bytes :=
  match trailing b with
  | none => (none, rest)
  | some 0 => (codePoint? b.val, rest)
  | some (n + 1) =>
    match rest with
    | [] => (none, [])
    | c :: rest' =>
      if admitsSecond b c then takeContinuation n (shiftIn (leadBits b n) c) rest' else (none, c :: rest')

theorem takeContinuation_spec (n bits : Nat) (x : Bytes) :
    ∃ cs, x = cs ++ (takeContinuation n bits x).2 ∧ ∀ c ∈ cs, isContinuation c := by
  induction n generalizing bits x with
  | zero => exact ⟨[], rfl, by simp⟩
  | succ n ih =>
      cases x with
      | nil => exact ⟨[], rfl, by simp⟩
      | cons c rest =>
          rw [takeContinuation]
          split
          · next hc =>
              obtain ⟨cs, hcs, hall⟩ := ih (shiftIn bits c) rest
              exact ⟨c :: cs, by rw [List.cons_append, ← hcs], List.forall_mem_cons.mpr ⟨hc, hall⟩⟩
          · exact ⟨[], rfl, by simp⟩

theorem isContinuation_of_admitsSecond {b c : Byte} (h : admitsSecond b c) : isContinuation c := by
  simp only [admitsSecond, Bool.and_eq_true] at h
  exact h.1.1.1.1

/-- After the first byte a step consumes continuation bytes only. -/
theorem decodeStep_spec (b : Byte) (rest : Bytes) :
    ∃ cs, rest = cs ++ (decodeStep b rest).2 ∧ ∀ c ∈ cs, isContinuation c := by
  rw [decodeStep]
  cases trailing b with
  | none => exact ⟨[], rfl, by simp⟩
  | some n =>
      cases n with
      | zero => exact ⟨[], rfl, by simp⟩
      | succ n =>
          cases rest with
          | nil => exact ⟨[], rfl, by simp⟩
          | cons c rest' =>
              by_cases hc : admitsSecond b c
              · simp only [hc, if_true]
                obtain ⟨cs, hcs, hall⟩ := takeContinuation_spec n (shiftIn (leadBits b n) c) rest'
                exact ⟨c :: cs, by rw [List.cons_append, ← hcs],
                  List.forall_mem_cons.mpr ⟨isContinuation_of_admitsSecond hc, hall⟩⟩
              · simp only [hc]
                exact ⟨[], rfl, by simp⟩

theorem decodeStep_length (b : Byte) (rest : Bytes) : (decodeStep b rest).2.length ≤ rest.length := by
  obtain ⟨cs, hcs, -⟩ := decodeStep_spec b rest
  have h := congrArg List.length hcs
  rw [List.length_append] at h
  omega

def unitsLoop : Nat → Bytes → List (Option CodePoint)
  | 0, _ | _, [] => []
  | n + 1, b :: rest => (decodeStep b rest).1 :: unitsLoop n (decodeStep b rest).2

/-- The characters of a byte string, none for each ill-formed piece. -/
def units (x : Bytes) : List (Option CodePoint) := unitsLoop x.length x

theorem unitsLoop_fuel (n : Nat) (x : Bytes) (hn : x.length ≤ n) : unitsLoop n x = units x := by
  induction n using Nat.strongRecOn generalizing x with
  | ind n ih =>
      cases x with
      | nil => cases n <;> rfl
      | cons b rest =>
          obtain ⟨k, rfl⟩ : ∃ k, n = k + 1 := ⟨n - 1, by rw [List.length_cons] at hn; omega⟩
          have hlen := decodeStep_length b rest
          rw [List.length_cons] at hn
          rw [units, List.length_cons, unitsLoop, unitsLoop, ih k (by omega) _ (by omega),
            ih rest.length (by omega) _ hlen]

theorem units_cons (b : Byte) (rest : Bytes) :
    units (b :: rest) = (decodeStep b rest).1 :: units (decodeStep b rest).2 := by
  rw [units, List.length_cons, unitsLoop, unitsLoop_fuel _ _ (decodeStep_length b rest)]

def replacement : CodePoint := chr '\uFFFD'

/-- bytes.decode("utf-8", errors="replace") -/
def decodeReplace (x : Bytes) : Text := (units x).map fun u => u.getD replacement

/-- Whether bytes.decode("utf-8") succeeds. -/
def Valid (x : Bytes) : Prop := ∀ u ∈ units x, u.isSome

instance (x : Bytes) : Decidable (Valid x) := List.decidableBAll _ (units x)

/-- Not the middle of a sequence. -/
def Fresh : Bytes → Prop
  | [] => True
  | b :: _ => isContinuation b = false

theorem takeContinuation_append (n bits : Nat) (x y : Bytes) (hy : Fresh y) :
    takeContinuation n bits (x ++ y) =
      ((takeContinuation n bits x).1, (takeContinuation n bits x).2 ++ y) := by
  induction n generalizing bits x with
  | zero => rfl
  | succ n ih =>
      cases x with
      | nil =>
          cases y with
          | nil => rfl
          | cons c y =>
              rw [Fresh] at hy
              simp [takeContinuation, hy]
      | cons c x =>
          rw [List.cons_append, takeContinuation, takeContinuation]
          split
          · exact ih (shiftIn bits c) x
          · rfl

theorem decodeStep_append (b : Byte) (x y : Bytes) (hy : Fresh y) :
    decodeStep b (x ++ y) = ((decodeStep b x).1, (decodeStep b x).2 ++ y) := by
  rw [decodeStep, decodeStep]
  cases trailing b with
  | none => rfl
  | some n =>
      cases n with
      | zero => rfl
      | succ n =>
          cases x with
          | nil =>
              cases y with
              | nil => rfl
              | cons c y =>
                  rw [Fresh] at hy
                  have hc : admitsSecond b c = false := by simp [admitsSecond, hy]
                  simp [hc]
          | cons c x =>
              simp only [List.cons_append]
              split
              · exact takeContinuation_append n _ x y hy
              · rfl

theorem units_append (x y : Bytes) (hy : Fresh y) : units (x ++ y) = units x ++ units y := by
  induction hn : x.length using Nat.strongRecOn generalizing x with
  | ind n ih =>
      cases x with
      | nil => rfl
      | cons b rest =>
          have hlen := decodeStep_length b rest
          rw [List.length_cons] at hn
          rw [List.cons_append, units_cons, units_cons, decodeStep_append b rest y hy,
            ih _ (by omega) _ rfl, List.cons_append]

theorem valid_append {x y : Bytes} (hy : Fresh y) : Valid (x ++ y) ↔ Valid x ∧ Valid y := by
  rw [Valid, units_append x y hy, List.forall_mem_append]
  rfl

theorem decodeReplace_append {x y : Bytes} (hy : Fresh y) :
    decodeReplace (x ++ y) = decodeReplace x ++ decodeReplace y := by
  rw [decodeReplace, units_append x y hy, List.map_append]
  rfl

theorem trailing_of_isContinuation {b : Byte} (h : isContinuation b) : trailing b = none := by
  simp only [isContinuation, Bool.and_eq_true, decide_eq_true_eq] at h
  rw [trailing, if_neg (by omega), if_pos (by omega)]

theorem Valid.fresh {x : Bytes} (h : Valid x) : Fresh x := by
  cases x with
  | nil => trivial
  | cons b rest =>
      rw [Fresh, ← Bool.not_eq_true]
      intro hb
      have hu := h (decodeStep b rest).1 (by rw [units_cons]; exact List.mem_cons_self)
      rw [decodeStep, trailing_of_isContinuation hb] at hu
      exact absurd hu (by simp)

theorem valid_flatten {chunks : List Bytes} (h : ∀ x ∈ chunks, Valid x) :
    Valid chunks.flatten ∧ decodeReplace chunks.flatten = (chunks.map decodeReplace).flatten := by
  induction chunks with
  | nil => exact ⟨by simp [Valid, units, unitsLoop], rfl⟩
  | cons x chunks ih =>
      obtain ⟨hx, hchunks⟩ := List.forall_mem_cons.mp h
      obtain ⟨hv, hd⟩ := ih hchunks
      rw [List.flatten_cons, List.map_cons, List.flatten_cons, decodeReplace_append hv.fresh, hd]
      exact ⟨(valid_append hv.fresh).mpr ⟨hx, hv⟩, rfl⟩

section Count

/-- The number of bytes that do not continue a sequence. -/
def starts (x : Bytes) : Nat := x.countP fun b => !isContinuation b

theorem starts_append (x y : Bytes) : starts (x ++ y) = starts x + starts y := List.countP_append

theorem starts_append_continuation {cs x : Bytes} (h : ∀ c ∈ cs, isContinuation c) :
    starts (cs ++ x) = starts x := by
  have hcs : cs.countP (fun b => !isContinuation b) = 0 := List.countP_eq_zero.mpr fun c hc => by simp [h c hc]
  rw [starts_append, starts, hcs, Nat.zero_add]

theorem starts_cons (b : Byte) (rest : Bytes) :
    starts (b :: rest) = starts (decodeStep b rest).2 + if isContinuation b then 0 else 1 := by
  obtain ⟨cs, hcs, hall⟩ := decodeStep_spec b rest
  have hrest : starts rest = starts (decodeStep b rest).2 := by
    conv => lhs; rw [hcs]
    exact starts_append_continuation hall
  rw [starts, List.countP_cons, ← hrest]
  cases isContinuation b <;> rfl

/-- There are at least as many characters as bytes that begin one, and more if
the first byte does not. -/
theorem starts_le_length (x : Bytes) : starts x ≤ (units x).length := by
  induction hn : x.length using Nat.strongRecOn generalizing x with
  | ind n ih =>
      cases x with
      | nil => exact Nat.le_refl 0
      | cons b rest =>
          have hlen := decodeStep_length b rest
          rw [List.length_cons] at hn
          have h := ih _ (by omega) (decodeStep b rest).2 rfl
          rw [starts_cons, units_cons, List.length_cons]
          split <;> omega

theorem starts_lt_length {x : Bytes} (h : ¬ Fresh x) : starts x < (units x).length := by
  cases x with
  | nil => exact absurd trivial h
  | cons b rest =>
      rw [Fresh, Bool.not_eq_false] at h
      have hle := starts_le_length (decodeStep b rest).2
      rw [starts_cons, units_cons, List.length_cons, if_pos h]
      omega

theorem Valid.starts_eq {x : Bytes} (h : Valid x) : starts x = (units x).length := by
  induction hn : x.length using Nat.strongRecOn generalizing x with
  | ind n ih =>
      cases x with
      | nil => rfl
      | cons b rest =>
          have hlen := decodeStep_length b rest
          have hb := h.fresh
          rw [Fresh] at hb
          rw [Valid, units_cons, List.forall_mem_cons] at h
          rw [List.length_cons] at hn
          rw [starts_cons, units_cons, List.length_cons, ih _ (by omega) h.2 rfl, hb]
          rfl

end Count

section Bounds

theorem codePoint?_eq {n : Nat} {v : CodePoint} (h : codePoint? n = some v) : v.val = n := by
  rw [codePoint?] at h
  split at h
  · rw [← Option.some.inj h]
  · cases h

theorem shiftIn_bounds (bits : Nat) {c : Byte} (h : isContinuation c) :
    bits * 64 ≤ shiftIn bits c ∧ shiftIn bits c < bits * 64 + 64 := by
  simp only [isContinuation, Bool.and_eq_true, decide_eq_true_eq] at h
  unfold shiftIn
  omega

/-- How many values n continuation bytes tell apart. -/
def capacity : Nat → Nat
  | 0 => 1
  | n + 1 => 64 * capacity n

theorem takeContinuation_bounds {n bits : Nat} {x : Bytes} {v : CodePoint}
    (h : (takeContinuation n bits x).1 = some v) : bits * capacity n ≤ v.val ∧ v.val < (bits + 1) * capacity n := by
  induction n generalizing bits x with
  | zero =>
      have hv := codePoint?_eq h
      rw [capacity]
      omega
  | succ n ih =>
      cases x with
      | nil => cases h
      | cons c x =>
          rw [takeContinuation] at h
          split at h
          · next hc =>
              obtain ⟨hlow, hhigh⟩ := ih h
              obtain ⟨h1, h2⟩ := shiftIn_bounds bits hc
              have hp1 := Nat.mul_le_mul_right (capacity n) h1
              have hp2 := Nat.mul_le_mul_right (capacity n) (show shiftIn bits c + 1 ≤ bits * 64 + 64 by omega)
              have e1 : bits * capacity (n + 1) = bits * 64 * capacity n := by
                rw [capacity, Nat.mul_assoc]
              have e2 : (bits + 1) * capacity (n + 1) = (bits * 64 + 64) * capacity n := by
                rw [capacity, ← Nat.mul_assoc, Nat.add_mul, Nat.one_mul]
              omega
          · cases h

theorem trailing_succ {b : Byte} {n : Nat} (h : trailing b = some (n + 1)) :
    n = 0 ∧ 0xC2 ≤ b.val ∧ b.val < 0xE0 ∨ n = 1 ∧ 0xE0 ≤ b.val ∧ b.val < 0xF0 ∨
      n = 2 ∧ 0xF0 ≤ b.val ∧ b.val < 0xF5 := by
  rw [trailing] at h
  split at h
  · cases h
  · split at h
    · cases h
    · split at h
      · cases h
        exact Or.inl ⟨rfl, by omega, by omega⟩
      · split at h
        · cases h
          exact Or.inr (Or.inl ⟨rfl, by omega, by omega⟩)
        · split at h
          · cases h
            exact Or.inr (Or.inr ⟨rfl, by omega, by omega⟩)
          · cases h

theorem leadBits_ge {b c : Byte} {n : Nat} (ht : trailing b = some (n + 1)) (hc : admitsSecond b c) :
    128 ≤ shiftIn (leadBits b n) c * capacity n := by
  simp only [admitsSecond, isContinuation, Bool.and_eq_true, Bool.or_eq_true, decide_eq_true_eq] at hc
  obtain ⟨⟨⟨⟨⟨hc0, -⟩, hE0⟩, -⟩, hF0⟩, -⟩ := hc
  rcases trailing_succ ht with ⟨rfl, h1, h2⟩ | ⟨rfl, h1, h2⟩ | ⟨rfl, h1, h2⟩
  · have hbits : shiftIn (leadBits b 0) c = (b.val - 0xC0) * 64 + (c.val - 0x80) := rfl
    rw [hbits, show capacity 0 = 1 from rfl]
    omega
  · have hbits : shiftIn (leadBits b 1) c = (b.val - 0xE0) * 64 + (c.val - 0x80) := rfl
    rw [hbits, show capacity 1 = 64 from rfl]
    omega
  · have hbits : shiftIn (leadBits b 2) c = (b.val - 0xF0) * 64 + (c.val - 0x80) := rfl
    rw [hbits, show capacity 2 = 4096 from rfl]
    omega

end Bounds

section Ascii

theorem decodeStep_ascii {b : Byte} (rest : Bytes) {a : CodePoint} (ha : a.val < 0x80) :
    (decodeStep b rest).1 = some a ↔ b.val = a.val := by
  rw [decodeStep]
  cases ht : trailing b with
  | none =>
      refine iff_of_false (by simp) fun h => ?_
      rw [trailing, if_pos (by omega)] at ht
      exact absurd ht (by simp)
  | some n =>
      cases n with
      | zero =>
          have hb := b.isLt
          simp only [codePoint?, show b.val < 0x110000 by omega, dif_pos, Option.some.injEq, Fin.ext_iff]
      | succ n =>
          have hb : ¬ b.val = a.val := fun h => by
            rw [trailing, if_pos (by omega)] at ht
            exact absurd ht (by simp)
          refine iff_of_false (fun h => ?_) hb
          cases rest with
          | nil => exact absurd h (by simp)
          | cons c rest' =>
              by_cases hc : admitsSecond b c
              · simp only [hc, if_true] at h
                have h1 := (takeContinuation_bounds h).1
                have h2 := leadBits_ge ht hc
                omega
              · simp [hc] at h

theorem count_ascii {a : CodePoint} (ha : a.val < 0x80) (x : Bytes) :
    (decodeReplace x).count a = x.countP fun b => b.val = a.val := by
  induction hn : x.length using Nat.strongRecOn generalizing x with
  | ind n ih =>
      cases x with
      | nil => rfl
      | cons b rest =>
          have hlen := decodeStep_length b rest
          rw [List.length_cons] at hn
          obtain ⟨cs, hcs, hall⟩ := decodeStep_spec b rest
          have hzero : cs.countP (fun b => decide (b.val = a.val)) = 0 := List.countP_eq_zero.mpr fun c hc => by
            have := hall c hc
            simp only [isContinuation, Bool.and_eq_true, decide_eq_true_eq] at this ⊢
            omega
          have hrest : rest.countP (fun b => decide (b.val = a.val)) =
              (decodeStep b rest).2.countP fun b => decide (b.val = a.val) := by
            conv => lhs; rw [hcs]
            rw [List.countP_append, hzero, Nat.zero_add]
          have hih := ih _ (by omega) (decodeStep b rest).2 rfl
          have hhead : ((decodeStep b rest).1.getD replacement == a) = decide (b.val = a.val) := by
            rw [Bool.eq_iff_iff, beq_iff_eq, decide_eq_true_iff, ← decodeStep_ascii rest ha]
            cases (decodeStep b rest).1 with
            | none =>
                refine iff_of_false (fun h => ?_) (by simp)
                rw [← h] at ha
                exact absurd ha (by decide)
            | some v => simp
          rw [decodeReplace] at hih ⊢
          rw [units_cons, List.map_cons, List.count_cons, List.countP_cons, hrest, hih, hhead]

end Ascii

section Encode

def byteOf (n : Nat) : Byte := Fin.ofNat 256 n

def asciiBytes (t : Text) : Bytes := t.map fun c => byteOf c.val

def continuation (n : Nat) : Byte := byteOf (0x80 + n % 64)

def encodeChar (c : CodePoint) : Option Bytes :=
  if c.val < 0x80 then some [byteOf c.val]
  else if c.val < 0x800 then some [byteOf (0xC0 + c.val / 64), continuation c.val]
  else if isSurrogate c then none
  else if c.val < 0x10000 then
    some [byteOf (0xE0 + c.val / 4096), continuation (c.val / 64), continuation c.val]
  else
    some [byteOf (0xF0 + c.val / 262144), continuation (c.val / 4096),
      continuation (c.val / 64), continuation c.val]

/-- str.encode(), none where it raises UnicodeEncodeError. -/
def encode : Text → Option Bytes
  | [] => some []
  | c :: t => (encodeChar c).bind fun x => (encode t).map fun y => x ++ y

theorem continuation_val (n : Nat) : (continuation n).val = 0x80 + n % 64 := by
  rw [continuation, byteOf, Fin.val_ofNat]
  omega

theorem codePoint?_val (c : CodePoint) : codePoint? c.val = some c := by
  have h := c.isLt
  simp only [codePoint?, h, dif_pos]

theorem shiftIn_continuation (n : Nat) : shiftIn (n / 64) (continuation n) = n := by
  have hval := continuation_val n
  unfold shiftIn
  omega

theorem takeContinuation_continuation (n m : Nat) (rest : Bytes) :
    takeContinuation (n + 1) (m / 64) (continuation m :: rest) = takeContinuation n m rest := by
  have hc : isContinuation (continuation m) = true := by
    simp only [isContinuation, continuation_val, Bool.and_eq_true, decide_eq_true_eq]
    omega
  rw [takeContinuation, if_pos hc, shiftIn_continuation]

theorem admitsSecond_of {b : Byte} {n : Nat} (hE0 : b.val = 0xE0 → 0x20 ≤ n % 64)
    (hED : b.val = 0xED → n % 64 < 0x20) (hF0 : b.val = 0xF0 → 0x10 ≤ n % 64)
    (hF4 : b.val = 0xF4 → n % 64 < 0x10) : admitsSecond b (continuation n) = true := by
  have hval := continuation_val n
  simp only [admitsSecond, isContinuation, hval, Bool.and_eq_true, Bool.or_eq_true, decide_eq_true_eq,
    ne_eq]
  omega

theorem decodeStep_lead {b : Byte} {n m : Nat} (ht : trailing b = some (n + 1))
    (hb : leadBits b n = m / 64) (hc : admitsSecond b (continuation m)) (rest : Bytes) :
    decodeStep b (continuation m :: rest) = takeContinuation n m rest := by
  rw [decodeStep, ht]
  simp only [hc, if_true]
  rw [hb, shiftIn_continuation]

theorem decodeStep_encodeChar {c : CodePoint} {x : Bytes} (h : encodeChar c = some x) (rest : Bytes) :
    ∃ b cs, x = b :: cs ∧ decodeStep b (cs ++ rest) = (some c, rest) := by
  have hlt := c.isLt
  have hvalue := codePoint?_val c
  have hbyte : ∀ n < 256, (byteOf n).val = n := fun n hn => by rw [byteOf, Fin.val_ofNat]; omega
  rw [encodeChar] at h
  split at h
  · next h1 =>
      cases h
      have hb := hbyte c.val (by omega)
      refine ⟨_, [], rfl, ?_⟩
      rw [decodeStep, trailing, if_pos (by omega)]
      simp only [hb, hvalue, List.nil_append]
  split at h
  · next h1 h2 =>
      cases h
      have hb := hbyte (0xC0 + c.val / 64) (by omega)
      refine ⟨_, [_], rfl, ?_⟩
      rw [List.singleton_append, decodeStep_lead (n := 0), takeContinuation, hvalue]
      · rw [trailing, if_neg (by omega), if_neg (by omega), if_pos (by omega)]
      · rw [show leadBits _ 0 = _ - 0xC0 from rfl]
        omega
      · exact admitsSecond_of (by omega) (by omega) (by omega) (by omega)
  split at h
  · cases h
  next h1 h2 hs =>
    simp only [isSurrogate, Bool.and_eq_true, decide_eq_true_eq] at hs
    split at h
    · next h3 =>
        cases h
        have hb := hbyte (0xE0 + c.val / 4096) (by omega)
        refine ⟨_, [_, _], rfl, ?_⟩
        rw [List.cons_append, List.singleton_append, decodeStep_lead (n := 1),
          takeContinuation_continuation, takeContinuation, hvalue]
        · rw [trailing, if_neg (by omega), if_neg (by omega), if_neg (by omega), if_pos (by omega)]
        · rw [show leadBits _ 1 = _ - 0xE0 from rfl]
          omega
        · exact admitsSecond_of (by omega) (by omega) (by omega) (by omega)
    · next h3 =>
        cases h
        have hb := hbyte (0xF0 + c.val / 262144) (by omega)
        have h64 : c.val / 64 / 64 = c.val / 4096 := by omega
        refine ⟨_, [_, _, _], rfl, ?_⟩
        rw [List.cons_append, List.cons_append, List.singleton_append, decodeStep_lead (n := 2), ← h64,
          takeContinuation_continuation, takeContinuation_continuation, takeContinuation, hvalue]
        · rw [trailing, if_neg (by omega), if_neg (by omega), if_neg (by omega), if_neg (by omega),
            if_pos (by omega)]
        · rw [show leadBits _ 2 = _ - 0xF0 from rfl]
          omega
        · exact admitsSecond_of (by omega) (by omega) (by omega) (by omega)

theorem units_encode {t : Text} {x : Bytes} (h : encode t = some x) : units x = t.map some := by
  induction t generalizing x with
  | nil => cases h; rfl
  | cons c t ih =>
      simp only [encode, Option.bind_eq_some_iff, Option.map_eq_some_iff] at h
      obtain ⟨y, hy, z, hz, rfl⟩ := h
      obtain ⟨b, cs, rfl, hstep⟩ := decodeStep_encodeChar hy z
      rw [List.cons_append, units_cons, hstep, List.map_cons, ih hz]

/-- What is encoded is well formed and is decoded to itself. -/
theorem decode_encode {t : Text} {x : Bytes} (h : encode t = some x) : Valid x ∧ decodeReplace x = t := by
  constructor
  · intro u hu
    rw [units_encode h] at hu
    obtain ⟨c, -, rfl⟩ := List.mem_map.mp hu
    rfl
  · rw [decodeReplace, units_encode h, List.map_map]
    exact List.map_id'' (fun _ => rfl) t

theorem Fresh.take {x : Bytes} (h : Fresh x) (k : Nat) : Fresh (x.take k) := by
  cases x with
  | nil => rwa [List.take_nil]
  | cons b x =>
      cases k with
      | zero => trivial
      | succ k => exact h

/-- A character of several bytes has none in the range of ASCII. -/
theorem encodeChar_bytes {c : CodePoint} {x : Bytes} (h : encodeChar c = some x) (hx : 1 < x.length) :
    0x80 ≤ c.val ∧ ∀ b ∈ x, 0x80 ≤ b.val := by
  have hc := c.isLt
  have hcont (n : Nat) : 0x80 ≤ (continuation n).val := by
    rw [continuation_val]
    omega
  have hlead {n : Nat} (h1 : 0x80 ≤ n) (h2 : n < 256) : 0x80 ≤ (byteOf n).val := by
    rw [byteOf, Fin.val_ofNat, Nat.mod_eq_of_lt h2]
    exact h1
  rw [encodeChar] at h
  split at h
  · cases h
    exact absurd hx (by simp)
  · next hlo =>
      refine ⟨Nat.le_of_not_lt hlo, fun b hb => ?_⟩
      split at h
      · cases h
        rcases List.mem_cons.mp hb with rfl | hb
        · exact hlead (by omega) (by omega)
        · exact List.mem_singleton.mp hb ▸ hcont _
      split at h
      · cases h
      split at h
      · cases h
        simp only [List.mem_cons, List.not_mem_nil, or_false] at hb
        rcases hb with rfl | rfl | rfl
        · exact hlead (by omega) (by omega)
        · exact hcont _
        · exact hcont _
      · cases h
        simp only [List.mem_cons, List.not_mem_nil, or_false] at hb
        rcases hb with rfl | rfl | rfl | rfl
        · exact hlead (by omega) (by omega)
        · exact hcont _
        · exact hcont _
        · exact hcont _

/-- The first k bytes of a text are a prefix of it and, where they end inside a
character, some replacement of that, which is not ASCII. -/
theorem decode_take {t : Text} {x : Bytes} (h : encode t = some x) (k : Nat) : ∃ u v,
    decodeReplace (x.take k) = u ++ v ∧ (∀ a ∈ v, 0x80 ≤ a.val) ∧
      (v = [] ∧ u <+: t ∨ ∃ c, 0x80 ≤ c.val ∧ u ++ [c] <+: t) := by
  induction t generalizing x k with
  | nil =>
      cases h
      rw [List.take_nil]
      exact ⟨[], [], rfl, fun a ha => absurd ha List.not_mem_nil, Or.inl ⟨rfl, List.prefix_refl _⟩⟩
  | cons c t ih =>
      simp only [encode, Option.bind_eq_some_iff, Option.map_eq_some_iff] at h
      obtain ⟨y, hy, z, hz, rfl⟩ := h
      rcases Nat.lt_or_ge k y.length with hk | hk
      · rw [List.take_append_of_le_length (Nat.le_of_lt hk)]
        rcases Nat.eq_zero_or_pos k with rfl | hpos
        · exact ⟨[], [], rfl, fun a ha => absurd ha List.not_mem_nil, Or.inl ⟨rfl, List.nil_prefix⟩⟩
        · obtain ⟨hc, hbytes⟩ := encodeChar_bytes hy (by omega)
          refine ⟨[], decodeReplace (y.take k), rfl, fun a ha => ?_, Or.inr ⟨c, hc, t, rfl⟩⟩
          by_contra hlt
          have hcount := count_ascii (a := a) (by omega) (y.take k)
          rw [List.countP_eq_zero.mpr] at hcount
          · exact absurd ha (List.count_eq_zero.mp hcount)
          · intro b hb
            have := hbytes b (List.mem_of_mem_take hb)
            simp only [decide_eq_true_eq]
            omega
      · have hchar : encode [c] = some y := by simp [encode, hy]
        obtain ⟨u, v, hdecode, hv, hprefix⟩ := ih hz (k - y.length)
        have hfresh : Fresh (z.take (k - y.length)) := (decode_encode hz).1.fresh.take _
        rw [List.take_append, List.take_of_length_le hk, decodeReplace_append hfresh, (decode_encode hchar).2, hdecode]
        refine ⟨c :: u, v, rfl, hv, ?_⟩
        rcases hprefix with ⟨hnil, hu⟩ | ⟨d, hd, hu⟩
        · exact Or.inl ⟨hnil, (List.cons_prefix_cons).mpr ⟨rfl, hu⟩⟩
        · exact Or.inr ⟨d, hd, (List.cons_prefix_cons).mpr ⟨rfl, hu⟩⟩

/-- A text without surrogates. -/
def scalar (t : Text) : Bool := t.all fun c => !isSurrogate c

theorem scalar_of_ascii {t : Text} (h : t.all isAscii) : scalar t := by
  rw [scalar, List.all_eq_true]
  intro c hc
  have hascii := List.all_eq_true.mp h c hc
  simp only [isAscii, isSurrogate, decide_eq_true_eq, Bool.not_eq_true', Bool.and_eq_false_iff,
    decide_eq_false_iff_not] at hascii ⊢
  omega

theorem encode_ascii {t : Text} (h : t.all isAscii) : encode t = some (asciiBytes t) := by
  induction t with
  | nil => rfl
  | cons c t ih =>
      rw [List.all_cons, Bool.and_eq_true] at h
      rw [encode, encodeChar, if_pos (of_decide_eq_true h.1), ih h.2]
      rfl

theorem encode_isSome {t : Text} (h : scalar t) : (encode t).isSome := by
  induction t with
  | nil => rfl
  | cons c t ih =>
      simp only [scalar, List.all_cons, Bool.and_eq_true, Bool.not_eq_true'] at h
      obtain ⟨y, hy⟩ := Option.isSome_iff_exists.mp (ih h.2)
      have hc : (encodeChar c).isSome := by
        rw [encodeChar, if_neg (show ¬ isSurrogate c = true by simp [h.1])]
        split
        · rfl
        · split
          · rfl
          · split <;> rfl
      obtain ⟨x, hx⟩ := Option.isSome_iff_exists.mp hc
      rw [encode, hx, hy]
      rfl

theorem not_isSurrogate_of_decodeStep {b : Byte} {rest : Bytes} {v : CodePoint}
    (h : (decodeStep b rest).1 = some v) : isSurrogate v = false := by
  suffices hv : v.val < 0xD800 ∨ 0xE000 ≤ v.val by
    simp only [isSurrogate, Bool.and_eq_false_iff, decide_eq_false_iff_not]
    omega
  rw [decodeStep] at h
  cases ht : trailing b with
  | none => rw [ht] at h; cases h
  | some n =>
      rw [ht] at h
      cases n with
      | zero =>
          have hv := codePoint?_eq h
          have hb := b.isLt
          omega
      | succ n =>
          cases rest with
          | nil => cases h
          | cons c rest =>
              simp only at h
              split at h
              · next hc =>
                  obtain ⟨h1, h2⟩ := takeContinuation_bounds h
                  have hs := shiftIn_bounds (leadBits b n) (isContinuation_of_admitsSecond hc)
                  simp only [admitsSecond, isContinuation, Bool.and_eq_true, Bool.or_eq_true,
                    decide_eq_true_eq] at hc
                  obtain ⟨⟨⟨⟨⟨hc0, hc1⟩, hE0⟩, hED⟩, hF0⟩, -⟩ := hc
                  rcases trailing_succ ht with ⟨rfl, hb1, hb2⟩ | ⟨rfl, hb1, hb2⟩ | ⟨rfl, hb1, hb2⟩
                  · have hbits : leadBits b 0 = b.val - 0xC0 := rfl
                    rw [show capacity 0 = 1 from rfl] at h2
                    omega
                  · have hbits : shiftIn (leadBits b 1) c = (b.val - 0xE0) * 64 + (c.val - 0x80) := rfl
                    rw [show capacity 1 = 64 from rfl] at h1 h2
                    omega
                  · have hbits : shiftIn (leadBits b 2) c = (b.val - 0xF0) * 64 + (c.val - 0x80) := rfl
                    rw [show capacity 2 = 4096 from rfl] at h1
                    omega
              · cases h

theorem scalar_decodeReplace (x : Bytes) : scalar (decodeReplace x) := by
  induction hn : x.length using Nat.strongRecOn generalizing x with
  | ind n ih =>
      cases x with
      | nil => rfl
      | cons b rest =>
          have hlen := decodeStep_length b rest
          rw [List.length_cons] at hn
          have hrest := ih _ (by omega) (decodeStep b rest).2 rfl
          rw [decodeReplace, units_cons, List.map_cons, scalar, List.all_cons, Bool.and_eq_true]
          refine ⟨?_, hrest⟩
          cases hu : (decodeStep b rest).1 with
          | none => decide
          | some v => rw [Option.getD_some, not_isSurrogate_of_decodeStep hu, Bool.not_false]

end Encode

end Utf8

end LlmGateway
