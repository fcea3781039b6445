import LlmGateway.RedactorCut

namespace LlmGateway.Redactor

open Scanner Regex

variable {U : Unicode} {luhn : Bool} {r : StreamingRedactor} {p t b x rest : Text} {c g i s : Nat}

/-- The length of the longest suffix made of characters that count on the text. -/
def eligibleTail (U : Unicode) (p : Text) : Nat :=
  ((List.range p.length).reverse.takeWhile (canContinueAMatch U p)).length

def eligibleSuffix (U : Unicode) (p : Text) : Text := p.drop (p.length - eligibleTail U p)

def tailStart (U : Unicode) (p : Text) : Nat := walkBack U p 0 p.length

theorem walkBack_takeWhile (p : Text) (n : Nat) :
    walkBack U p 0 n + ((List.range n).reverse.takeWhile (canContinueAMatch U p)).length = n := by
  induction n with
  | zero => rfl
  | succ n ih =>
      rw [walkBack, List.range_succ, List.reverse_append, List.reverse_singleton, List.singleton_append,
        List.takeWhile_cons]
      cases he : canContinueAMatch U p n with
      | false => simp
      | true =>
          simp only [Nat.zero_lt_succ, decide_true, Bool.and_self, if_true, List.length_cons]
          omega

theorem tailStart_add (p : Text) : tailStart U p + eligibleTail U p = p.length := walkBack_takeWhile p p.length

theorem eligibleSuffix_eq (p : Text) : eligibleSuffix U p = p.drop (tailStart U p) := by
  have h := tailStart_add (U := U) p
  rw [eligibleSuffix, show p.length - eligibleTail U p = tailStart U p by omega]

theorem walkBack_unique {floor n : Nat} (h1 : floor ≤ s) (h2 : s ≤ n)
    (h3 : ∀ i, s ≤ i → i < n → canContinueAMatch U b i)
    (h4 : s = floor ∨ canContinueAMatch U b (s - 1) = false) : walkBack U b floor n = s := by
  obtain ⟨k1, k2, k3, k4⟩ := walkBack_spec (U := U) b floor n (Nat.le_trans h1 h2)
  rcases Nat.lt_trichotomy (walkBack U b floor n) s with hlt | heq | hgt
  · rcases h4 with h4 | h4
    · omega
    · exact absurd (k3 (s - 1) (by omega) (by omega)) (by simp [h4])
  · exact heq
  · rcases k4 with k4 | k4
    · omega
    · exact absurd (h3 (walkBack U b floor n - 1) (by omega) (by omega)) (by simp [k4])

theorem canContinueAMatch_lt (h : canContinueAMatch U t i) : i < t.length := by
  by_contra hlt
  rw [canContinueAMatch, List.getElem?_eq_none (Nat.le_of_not_lt hlt)] at h
  exact absurd h (by simp)

theorem not_eligible_append (hi : i < p.length) (h : canContinueAMatch U p i = false) :
    canContinueAMatch U (p ++ x) i = false := by
  have hc := List.getElem?_eq_getElem hi
  have hb : behind (p ++ x) i = behind p i := by
    cases i with
    | zero => rfl
    | succ i => exact List.getElem?_append_left (by omega)
  obtain ⟨hn, hs⟩ := (not_eligible_iff hc).mp h
  refine (not_eligible_iff (by rw [List.getElem?_append_left hi, hc])).mpr ⟨hn, fun hsp hd => ?_⟩
  obtain ⟨d, hd1, hd2⟩ := hs hsp (by rwa [← hb])
  have hlt : i + 1 < p.length := (List.getElem?_eq_some_iff.mp hd1).1
  exact ⟨d, by rw [List.getElem?_append_left hlt, hd1], hd2⟩

/-- What is left after a prefix has the same characters that count, unless its
first is a space after a digit. -/
theorem eligible_drop (t : Text) (c i : Nat) (h : i = 0 → (behind t c).any U.isdigit = false) :
    canContinueAMatch U (t.drop c) i = canContinueAMatch U t (c + i) := by
  cases hc : t[c + i]? with
  | none =>
      have hd : (t.drop c)[i]? = none := by rw [List.getElem?_drop, hc]
      simp only [canContinueAMatch, hc, hd]
  | some a =>
      have hd : (t.drop c)[i]? = some a := by rw [List.getElem?_drop, hc]
      have hlt : c + i < t.length := (List.getElem?_eq_some_iff.mp hc).1
      cases he : eligibleChar U a with
      | true => rw [eligible_of_char hc he, eligible_of_char hd he]
      | false =>
          have hb : (behind (t.drop c) i).any U.isdigit = (behind t (c + i)).any U.isdigit := by
            cases i with
            | zero => exact (h rfl).symm
            | succ i => rw [behind_drop]
          have hl : decide (i + 1 ≥ t.length - c) = decide (c + i + 1 ≥ t.length) :=
            decide_eq_decide.mpr (by omega)
          rw [not_eligible_of_space hc he, not_eligible_of_space hd he, hb, List.getElem?_drop,
            List.length_drop, hl, Nat.add_assoc]

theorem eligible_of_drop (h : canContinueAMatch U (t.drop c) i) : canContinueAMatch U t (c + i) := by
  by_cases hi : i = 0 ∧ (behind t c).any U.isdigit
  · obtain ⟨rfl, -⟩ := hi
    obtain ⟨a, ha⟩ : ∃ a, (t.drop c)[0]? = some a := ⟨_, List.getElem?_eq_getElem (canContinueAMatch_lt h)⟩
    cases he : eligibleChar U a with
    | true => exact eligible_of_char (by rw [← List.getElem?_drop, ha]) he
    | false =>
        rw [not_eligible_of_space ha he] at h
        simp [behind] at h
  · rwa [← eligible_drop t c i fun h0 => by simpa [h0] using hi]

/-- The tail of a text is the tail of what is left after a prefix that ends
with a character that does not count. -/
theorem tailStart_drop (hc : c ≤ t.length) (h : c = 0 ∨ canContinueAMatch U t (c - 1) = false) :
    c + tailStart U (t.drop c) = tailStart U t := by
  obtain ⟨-, h2, h3, h4⟩ := walkBack_spec (U := U) t 0 t.length (Nat.zero_le _)
  have hb : (behind t c).any U.isdigit = false := by
    rcases h with rfl | h
    · rfl
    · obtain ⟨k, rfl⟩ | rfl : (∃ k, c = k + 1) ∨ c = 0 := by cases c <;> simp
      · have hk := List.getElem?_eq_getElem (show k < t.length by omega)
        have hn := ((not_eligible_iff hk).mp h).1
        rw [behind, hk, Option.any_some, ← Bool.not_eq_true]
        exact fun hd => absurd (eligibleChar_of_isdigit hd) (by simp [hn])
      · rfl
  have he (i : Nat) : canContinueAMatch U (t.drop c) i = canContinueAMatch U t (c + i) :=
    eligible_drop t c i fun _ => hb
  have hge : c ≤ tailStart U t := by
    rcases h with rfl | h
    · exact Nat.zero_le _
    · by_contra hlt
      have := h3 (c - 1) (by simp only [tailStart] at hlt; omega) (by simp only [tailStart] at hlt; omega)
      simp [h] at this
  simp only [tailStart] at hge ⊢
  have hu : walkBack U (t.drop c) 0 (t.drop c).length = walkBack U t 0 t.length - c := by
    refine walkBack_unique (Nat.zero_le _) (by rw [List.length_drop]; omega) (fun i h1 h2' => ?_) ?_
    · rw [List.length_drop] at h2'
      rw [he]
      exact h3 (c + i) (by omega) (by omega)
    · rcases Nat.eq_or_lt_of_le hge with heq | hlt
      · exact Or.inl (by omega)
      · rcases h4 with h4 | h4
        · omega
        · refine Or.inr ?_
          rw [he, show c + (walkBack U t 0 t.length - c - 1) = walkBack U t 0 t.length - 1 by omega, h4]
  rw [hu]
  omega

/-- A cut at the end of a run is sound whatever comes next. -/
theorem boundary_of_stop (rest : Text) (hg : 0 < g) (hle : g ≤ b.length) (h : canContinueAMatch U b (g - 1) = false) :
    ∃ a, Boundary U (b ++ rest) b (g - 1) a := by
  have hlt : g - 1 < b.length := by omega
  refine ⟨b[g - 1], fun i hi => List.getElem?_append_left (by omega), ?_, not_eligible_append hlt h, h⟩
  rw [List.getElem?_append_left hlt, List.getElem?_eq_getElem hlt]

theorem cut_of_boundary {a : CodePoint} {t' : Text} (hg : 0 < g) (B : Boundary U t t' (g - 1) a)
    (hs : Cut (scanner U t) i s g) : s = g := by
  rcases hs.straddles with h | ⟨m, hm, hlt, hgt⟩
  · exact h
  · have := B.stop_le (by omega) hm
    omega

theorem fresh_of_boundary {a : CodePoint} {t' : Text} (hg : 0 < g) (B : Boundary U t t' (g - 1) a) :
    Fresh U t g := by
  refine fresh_of_behind ?_
  obtain ⟨k, rfl⟩ : ∃ k, g = k + 1 := ⟨g - 1, by omega⟩
  have hc := B.char
  rw [Nat.add_sub_cancel] at hc
  simp [behind, hc, B.stops]

section ShortTail

variable {hold : Int}

theorem unsafeStart_of_tail (h : (eligibleTail U b : Int) ≤ hold) : unsafeStart U hold b = tailStart U b := by
  obtain ⟨-, h2, h3, h4⟩ := walkBack_spec (U := U) b 0 b.length (Nat.zero_le _)
  have hadd := tailStart_add (U := U) b
  have hfloor : floorOf hold b ≤ tailStart U b := by
    rw [floorOf]
    omega
  refine walkBack_unique hfloor h2 h3 ?_
  rcases h4 with h4 | h4
  · rw [tailStart] at hfloor ⊢
    exact Or.inl (by omega)
  · exact Or.inr h4

theorem stop_of_tail (hg : 0 < tailStart U b) : canContinueAMatch U b (tailStart U b - 1) = false := by
  obtain ⟨-, -, -, h⟩ := walkBack_spec (U := U) b 0 b.length (Nat.zero_le _)
  rcases h with h | h
  · rw [tailStart] at hg
    omega
  · exact h

theorem stepSound_of_stop (hstop : canContinueAMatch U (r.buffer ++ x) (unsafeStart U r.hold (r.buffer ++ x) - 1) = false)
    (hle : unsafeStart U r.hold (r.buffer ++ x) ≤ (r.buffer ++ x).length) : StepSound U r x rest := by
  intro hg
  obtain ⟨a, B⟩ := boundary_of_stop rest hg hle hstop
  refine ⟨hle, fun i hi => B.matchAt (by omega), fun s hs => ?_⟩
  rw [cut_of_boundary hg B hs]
  exact fresh_of_boundary hg B

theorem stepSound_of_tail (h : (eligibleTail U (r.buffer ++ x) : Int) ≤ r.hold) : StepSound U r x rest := by
  intro hg
  have hu := unsafeStart_of_tail h
  have hle := tailStart_add (U := U) (r.buffer ++ x)
  refine stepSound_of_stop ?_ (by rw [hu]; omega) hg
  rw [hu] at hg ⊢
  exact stop_of_tail hg

theorem cutOf_of_tail (h : (eligibleTail U b : Int) ≤ r.hold) : cutOf U r b = tailStart U b := by
  have hu := unsafeStart_of_tail h
  have hle := tailStart_add (U := U) b
  rw [cutOf, hu]
  split
  · next h0 => exact h0.symm
  · next h0 =>
      have hg := Nat.pos_of_ne_zero h0
      obtain ⟨a, B⟩ := boundary_of_stop [] hg (by omega) (stop_of_tail hg)
      exact cut_of_boundary hg B (emitLoop_spec (by omega)
        (fun i hi => B.matchAt (by omega)) r.requireLuhn 0 0 (Nat.zero_le _) (Nat.le_refl 0)).1

/-- The buffer of a run in which no tail was longer than the hold. -/
def Held (U : Unicode) (r : StreamingRedactor) (fed : Text) : Prop := r.buffer = eligibleSuffix U fed

theorem tail_append (p x : Text) :
    eligibleTail U (eligibleSuffix U p ++ x) = eligibleTail U (p ++ x) ∧
      eligibleSuffix U (eligibleSuffix U p ++ x) = eligibleSuffix U (p ++ x) := by
  have hp := tailStart_add (U := U) p
  have hb := tailStart_add (U := U) (eligibleSuffix U p ++ x)
  have hpx := tailStart_add (U := U) (p ++ x)
  have hd : eligibleSuffix U p ++ x = (p ++ x).drop (tailStart U p) := by
    rw [eligibleSuffix_eq, List.drop_append_of_le_length (by omega)]
  have ht : tailStart U p + tailStart U (eligibleSuffix U p ++ x) = tailStart U (p ++ x) := by
    rw [hd]
    refine tailStart_drop (by rw [List.length_append]; omega) ?_
    rcases Nat.eq_zero_or_pos (tailStart U p) with h0 | hpos
    · exact Or.inl h0
    · exact Or.inr (not_eligible_append (by omega) (stop_of_tail hpos))
  constructor
  · rw [hd, List.length_drop] at hb
    rw [hd]
    rw [hd] at ht
    omega
  · rw [eligibleSuffix_eq (eligibleSuffix U p ++ x), eligibleSuffix_eq (p ++ x), ← ht, ← List.drop_drop, ← hd]

theorem Held.feed (rest : Text) (h : Held U r p) (ht : (eligibleTail U (p ++ x) : Int) ≤ r.hold) :
    Held U (r.feed U x).2 (p ++ x) ∧ StepSound U r x rest := by
  have htail := tail_append (U := U) p x
  rw [← h] at htail
  constructor
  · by_cases hx : x = []
    · rw [hx, feed_nil, List.append_nil]
      exact h
    · rw [Held, feed_buffer hx, cutOf_of_tail (by rwa [htail.1]), ← eligibleSuffix_eq, htail.2]
  · exact stepSound_of_tail (by rwa [htail.1])

theorem Held.sound {chunks : List Text} (h : Held U r p)
    (ht : ∀ n ≤ chunks.length, (eligibleTail U (p ++ (chunks.take n).flatten) : Int) ≤ r.hold) :
    Sound U r chunks ∧ Held U (r.feedAll U chunks).2 (p ++ chunks.flatten) := by
  induction chunks generalizing r p with
  | nil => exact ⟨trivial, by simpa [StreamingRedactor.feedAll] using h⟩
  | cons chunk chunks ih =>
      have h1 := h.feed chunks.flatten (x := chunk) (by simpa using ht 1 (by simp))
      have h2 := ih h1.1 fun n hn => by
        rw [feed_settings.1]
        simpa using ht (n + 1) (by simpa using hn)
      refine ⟨⟨fun _ => h1.2, h2.1⟩, ?_⟩
      simpa [StreamingRedactor.feedAll] using h2.2

variable {chunks : List Text}

/-- The run-scan release rule, for any hold that no tail exceeds. -/
theorem stream_of_tails_le (U : Unicode) (hold : Int) (luhn : Bool) (t : Text)
    (ht : ∀ n ≤ t.length, (eligibleTail U (t.take n) : Int) ≤ hold) (chunks : List Text)
    (hc : chunks.flatten = t) :
    (∀ pre chunk post, chunks = pre ++ chunk :: post → chunk ≠ [] →
      ((StreamingRedactor.init (some hold) luhn).feedAll U (pre ++ [chunk])).2.buffer =
        eligibleSuffix U (pre ++ [chunk]).flatten) ∧
      (StreamingRedactor.init (some hold) luhn).stream U chunks = (substitute U luhn t).1 := by
  have hinit : Held U (StreamingRedactor.init (some hold) luhn) [] := rfl
  have htail (pre post : List Text) (h : chunks = pre ++ post) : ∀ n ≤ pre.length,
      (eligibleTail U ([] ++ (pre.take n).flatten) : Int) ≤ (StreamingRedactor.init (some hold) luhn).hold := by
    intro n hn
    have hp : (pre.take n).flatten <+: t := by
      rw [← hc, h, ← List.take_append_drop n pre, List.append_assoc, List.flatten_append,
        List.take_append_drop]
      exact List.prefix_append _ _
    rw [List.nil_append, List.prefix_iff_eq_take.mp hp]
    exact ht _ hp.length_le
  constructor
  · intro pre chunk post h _
    have hs := (hinit.sound (htail (pre ++ [chunk]) post (by simp [h]))).2
    rwa [List.nil_append] at hs
  · have hs := (hinit.sound (htail chunks [] (by simp))).1
    rw [hs.stream_eq, ← hc]
    rfl

theorem stream_of_tails_le_ssn :
    (StreamingRedactor.init (some 12) false).stream .ascii [str "id 123-4", [], str "5-6789", str " ok"] =
      str "id [REDACTED] ok" := by
  have h := (stream_of_tails_le .ascii 12 false (str "id 123-45-6789 ok") (by decide +kernel)
    [str "id 123-4", [], str "5-6789", str " ok"] (by decide +kernel)).2
  rw [h]
  decide +kernel

/-- Every run of characters that count on the text is shorter than the hold. -/
def RunsBelow (U : Unicode) (t : Text) (hold : Int) : Prop :=
  ∀ i n : Nat, (∀ k, i ≤ k → k < i + n → canContinueAMatch U t k) → (n : Int) < hold

theorem eligible_append (hi : i + 1 < p.length) : canContinueAMatch U (p ++ x) i = canContinueAMatch U p i := by
  have hlen : decide (i + 1 ≥ (p ++ x).length) = decide (i + 1 ≥ p.length) :=
    decide_eq_decide.mpr (by rw [List.length_append]; omega)
  simp only [canContinueAMatch, hlen, List.getElem?_append_left hi,
    List.getElem?_append_left (show i < p.length by omega), List.getElem?_append_left (show i - 1 < p.length by omega)]

/-- A tail on a prefix is at most one character longer than a run: its last
space may lack a digit in the text. -/
theorem tail_le_of_runsBelow (h : RunsBelow U t hold) (n : Nat) : (eligibleTail U (t.take n) : Int) ≤ hold := by
  have hadd := tailStart_add (U := U) (t.take n)
  obtain ⟨-, -, hrun, -⟩ := walkBack_spec (U := U) (t.take n) 0 (t.take n).length (Nat.zero_le _)
  rw [← tailStart] at hrun
  have hshort := h (tailStart U (t.take n)) (eligibleTail U (t.take n) - 1) fun k hk hlt => by
    have hp := eligible_append (U := U) (p := t.take n) (x := t.drop n) (i := k) (by omega)
    rw [List.take_append_drop] at hp
    rw [hp]
    exact hrun k hk (by omega)
  omega

end ShortTail

end LlmGateway.Redactor
