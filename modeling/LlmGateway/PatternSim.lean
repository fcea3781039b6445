import LlmGateway.Redactor

namespace LlmGateway.Redactor

open Regex

variable {U : Unicode} {t t' : Text} {i k : Nat}

/-- The characters that count whatever stands around them. -/
def eligibleChar (U : Unicode) (c : CodePoint) : Bool :=
  U.isalnum c || among ['.', '_', '%', '+', '-', '@'] c

theorem eligibleChar_of_asciiAlnum {c : CodePoint} (h : asciiAlnum c) : eligibleChar U c := by
  simp [eligibleChar, U.isalnum_of_asciiAlnum h]

theorem eligibleChar_of_isdigit {c : CodePoint} (h : U.isdigit c) : eligibleChar U c := by
  simp [eligibleChar, U.isalnum_of_isdigit c h]

theorem eligibleChar_of_among (cs : List Char) {c : CodePoint} (hs : cs ⊆ ['.', '_', '%', '+', '-', '@'])
    (h : among cs c) : eligibleChar U c := by
  simp only [among, List.contains_eq_mem, List.mem_map, decide_eq_true_eq] at h
  obtain ⟨d, hd, rfl⟩ := h
  simp only [eligibleChar, among, List.contains_eq_mem, Bool.or_eq_true, decide_eq_true_eq]
  exact Or.inr (List.mem_map_of_mem (hs hd))

theorem eligible_of_char {c : CodePoint} (hc : t[i]? = some c) (h : eligibleChar U c) :
    canContinueAMatch U t i := by
  simp only [eligibleChar] at h
  simp [canContinueAMatch, hc, h]

theorem not_eligible_of_space {c : CodePoint} (hc : t[i]? = some c) (h : eligibleChar U c = false) :
    canContinueAMatch U t i = (c == chr ' ' && (behind t i).any U.isdigit &&
      (i + 1 ≥ t.length || t[i + 1]?.any U.isdigit)) := by
  simp only [eligibleChar, Bool.or_eq_false_iff] at h
  cases i with
  | zero => simp [canContinueAMatch, hc, h.1, h.2, behind]
  | succ i =>
      simp only [canContinueAMatch, hc, h.1, h.2, behind]
      cases hs : c == chr ' ' <;> cases hb : t[i]?.any U.isdigit <;> simp_all

/-- A character that does not count is no eligible character, and if it is a
space after a digit then some other character than a digit follows. -/
theorem not_eligible_iff {c : CodePoint} (hc : t[i]? = some c) :
    canContinueAMatch U t i = false ↔ eligibleChar U c = false ∧
      (c = chr ' ' → (behind t i).any U.isdigit → ∃ d, t[i + 1]? = some d ∧ U.isdigit d = false) := by
  constructor
  · intro h
    have hn : eligibleChar U c = false := by
      rw [← Bool.not_eq_true] at h ⊢
      exact fun he => h (eligible_of_char hc he)
    refine ⟨hn, fun hs hb => ?_⟩
    rw [not_eligible_of_space hc hn, hs, hb] at h
    simp only [beq_self_eq_true, Bool.true_and, Bool.or_eq_false_iff, decide_eq_false_iff_not] at h
    have hlt : i + 1 < t.length := Nat.lt_of_not_le h.1
    have hd := List.getElem?_eq_getElem hlt
    exact ⟨t[i + 1], hd, by simpa only [hd, Option.any_some] using h.2⟩
  · rintro ⟨hn, h⟩
    rw [not_eligible_of_space hc hn]
    by_cases hs : c = chr ' '
    · by_cases hb : (behind t i).any U.isdigit
      · obtain ⟨d, hd, hq⟩ := h hs hb
        have hlt : ¬ i + 1 ≥ t.length := Nat.not_le_of_lt (List.getElem?_eq_some_iff.mp hd).1
        simp only [hd, Option.any_some, hq, hlt, decide_false, Bool.or_self, Bool.and_false]
      · simp [hb]
    · simp [hs]

theorem email_consumes {c : CodePoint} (h : (email U).consumes c) : eligibleChar U c := by
  simp only [email, consumes, label, exactly, localChar, labelChar, Bool.or_eq_true, beq_iff_eq,
    Bool.false_eq_true, or_false, false_or] at h
  have hat : eligibleChar U (chr '@') := eligibleChar_of_among ['@'] (by simp) (by decide)
  have hdot : eligibleChar U (chr '.') := eligibleChar_of_among ['.'] (by simp) (by decide)
  have hdash : eligibleChar U (chr '-') := eligibleChar_of_among ['-'] (by simp) (by decide)
  rcases h with (h | h) | rfl | (h | rfl) | (rfl | h | rfl) | rfl | h
  · exact eligibleChar_of_asciiAlnum h
  · exact eligibleChar_of_among _ (by simp) h
  · exact hat
  · exact eligibleChar_of_asciiAlnum h
  · exact hdash
  · exact hdot
  · exact eligibleChar_of_asciiAlnum h
  · exact hdash
  · exact hdot
  · exact eligibleChar_of_asciiAlnum (by simp [asciiAlnum, h])

theorem email_rejectsBehind {c : CodePoint} (h : (email U).rejectsBehind c) : eligibleChar U c := by
  simp only [email, rejectsBehind, label, exactly, Unicode.isWord, Bool.or_eq_true, decide_eq_true_eq,
    Bool.false_eq_true, or_false] at h
  rcases h with (h | rfl) | h
  · simp [eligibleChar, h]
  · exact eligibleChar_of_among ['_'] (by simp) (by decide)
  · exact eligibleChar_of_among _ (by simp) h

theorem eligibleChar_of_isDecimal {c : CodePoint} (h : U.isDecimal c) : eligibleChar U c :=
  eligibleChar_of_isdigit (U.isdigit_of_isDecimal h)

theorem card_rejectsBehind {c : CodePoint} (h : (card U).rejectsBehind c) : eligibleChar U c := by
  simp only [card, rejectsBehind, Bool.or_eq_true, Bool.false_eq_true, or_false] at h
  exact eligibleChar_of_isDecimal h

theorem ssn_rejectsBehind {c : CodePoint} (h : (ssn U).rejectsBehind c) : eligibleChar U c := by
  simp only [ssn, rejectsBehind, Bool.or_eq_true, Bool.false_eq_true, or_false] at h
  exact eligibleChar_of_isDecimal h

theorem width_le {a : Kind × Regex CodePoint} (ha : a ∈ pattern U) : a.2.width ≤ maxPatternLength := by
  simp only [pattern, List.mem_cons, List.not_mem_nil, or_false] at ha
  rcases ha with rfl | rfl | rfl <;>
    simp [email, card, ssn, label, exactly, width, maxPatternLength, maxEmail, maxCard, maxSsn]

section Boundary

/-- The texts agree up to position j, whose character c counts in neither. -/
structure Boundary (U : Unicode) (t t' : Text) (j : Nat) (c : CodePoint) : Prop where
  agree : ∀ i < j + 1, t[i]? = t'[i]?
  char : t[j]? = some c
  left_stops : canContinueAMatch U t j = false
  right_stops : canContinueAMatch U t' j = false

/-- Both positions are the same, at most j, and after a digit. -/
def AfterDigit (U : Unicode) (t : Text) (j i i' : Nat) : Prop :=
  Below (j + 1) i i' ∧ (behind t i).any U.isDecimal

/-- At most j, or past it with no digit next in either text. -/
def BeforeDigit (U : Unicode) (t t' : Text) (j i i' : Nat) : Prop :=
  i = i' ∧ (i < j + 1 ∨ i = j + 1 ∧ t[i]?.any U.isDecimal = false ∧ t'[i]?.any U.isDecimal = false)

theorem isDecimal_of_not_isdigit {d : CodePoint} (h : U.isdigit d = false) : U.isDecimal d = false := by
  rw [← Bool.not_eq_true] at h ⊢
  exact fun hd => h (U.isdigit_of_isDecimal hd)

variable {j : Nat} {c : CodePoint}

theorem Boundary.stops (B : Boundary U t t' j c) : eligibleChar U c = false :=
  ((not_eligible_iff B.char).mp B.left_stops).1

/-- A separator is consumed before the boundary, or is the boundary itself
and then no digit follows. -/
theorem Boundary.separator (B : Boundary U t t' j c) (cs : List Char) (hs : cs ⊆ [' ', '-']) :
    Sim t t' (AfterDigit U t j) (.cls (among cs)) (BeforeDigit U t t' j) := by
  refine Sim.cls fun i i' h => ?_
  obtain ⟨⟨rfl, hi⟩, hd⟩ := h
  refine ⟨by rw [B.agree i hi], fun hq => ⟨rfl, ?_⟩⟩
  rcases Nat.lt_or_ge i j with hlt | hge
  · exact Or.inl (by omega)
  · obtain rfl : i = j := by omega
    have hdig : (behind t i).any U.isdigit := any_mono (fun _ => U.isdigit_of_isDecimal) hd
    have hsp : c = chr ' ' := by
      rw [B.char, Option.any_some] at hq
      simp only [among, List.contains_eq_mem, List.mem_map, decide_eq_true_eq] at hq
      obtain ⟨a, ha, rfl⟩ := hq
      have ha' := hs ha
      simp only [List.mem_cons, List.not_mem_nil, or_false] at ha'
      rcases ha' with rfl | rfl
      · rfl
      · have he : eligibleChar U (chr '-') := eligibleChar_of_among ['-'] (by simp) (by decide)
        rw [B.stops] at he
        exact absurd he (by simp)
    obtain ⟨d, hd1, hd2⟩ := ((not_eligible_iff B.char).mp B.left_stops).2 hsp hdig
    obtain ⟨e, he1, he2⟩ := ((not_eligible_iff (by rw [← B.agree i hi, B.char])).mp B.right_stops).2 hsp
      (by rwa [← behind_congr B.agree (Nat.le_of_lt hi)])
    refine Or.inr ⟨rfl, ?_, ?_⟩
    · simp [hd1, isDecimal_of_not_isdigit hd2]
    · simp [he1, isDecimal_of_not_isdigit he2]

theorem Boundary.digit (B : Boundary U t t' j c) :
    Sim t t' (BeforeDigit U t t' j) (.cls U.isDecimal) (AfterDigit U t j) := by
  refine Sim.cls fun i i' h => ?_
  obtain ⟨rfl, hi | ⟨rfl, hl, hr⟩⟩ := h
  · refine ⟨by rw [B.agree i hi], fun hq => ⟨⟨rfl, ?_⟩, hq⟩⟩
    have hne : i ≠ j := by
      rintro rfl
      rw [B.char, Option.any_some] at hq
      have he := eligibleChar_of_isDecimal hq
      rw [B.stops] at he
      exact absurd he (by simp)
    omega
  · exact ⟨by rw [hl, hr], fun hq => absurd hq (by simp [hl])⟩

theorem AfterDigit.before {i i' : Nat} (h : AfterDigit U t j i i') : BeforeDigit U t t' j i i' :=
  ⟨h.1.1, Or.inl h.1.2⟩

theorem Boundary.digits (B : Boundary U t t' j c) (lo extra : Nat) :
    Sim t t' (BeforeDigit U t t' j) (.rep (.cls U.isDecimal) (lo + 1) extra) (AfterDigit U t j) :=
  Sim.rep_succ B.digit (B.digit.weaken (fun _ _ => AfterDigit.before) fun _ _ h => h) lo extra

theorem Boundary.leading (B : Boundary U t t' j c) (lo extra : Nat) :
    Sim t t' (Below (j + 1)) (.rep (.cls U.isDecimal) (lo + 1) extra) (AfterDigit U t j) :=
  (B.digits lo extra).weaken (fun _ _ h => ⟨h.1, Or.inl h.2⟩) fun _ _ h => h

theorem Boundary.notBehind (B : Boundary U t t' j c) (q : CodePoint → Bool) :
    Sim t t' (Below (j + 1)) (.notBehind q) (Below (j + 1)) :=
  Sim.notBehind fun i i' h => by rw [← h.1, behind_congr B.agree (Nat.le_of_lt h.2)]

theorem Boundary.notAhead (B : Boundary U t t' j c) (q : CodePoint → Bool) :
    Sim t t' (AfterDigit U t j) (.notAhead q) (AfterDigit U t j) :=
  Sim.notAhead fun i i' h => by rw [← h.1.1, B.agree i h.1.2]

theorem Boundary.card (B : Boundary U t t' j c) : Sim t t' (Below (j + 1)) (card U) (Below (j + 1)) := by
  have unit := (Sim.opt (B.separator [' ', '-'] (by simp)) fun _ _ => AfterDigit.before).seq B.digit
  have body := (B.leading 3 0).seq ((unit.rep 9 6).seq (B.notAhead U.isDecimal))
  exact (B.notBehind _).seq (body.weaken (fun _ _ h => h) fun _ _ h => h.1)

theorem Boundary.ssn (B : Boundary U t t' j c) : Sim t t' (Below (j + 1)) (ssn U) (Below (j + 1)) := by
  have sep := B.separator ['-', ' '] (by simp)
  have body := (B.leading 2 0).seq (sep.seq ((B.digits 1 0).seq
    (sep.seq ((B.digits 3 0).seq (B.notAhead U.isDecimal)))))
  exact (B.notBehind _).seq (body.weaken (fun _ _ h => h) fun _ _ h => h.1)

theorem Boundary.email (B : Boundary U t t' j c) : Sim t t' (Below (j + 1)) (Redactor.email U) (Below (j + 1)) :=
  sim_below t t' (j + 1) B.agree (eligibleChar U) (by simp [behind, B.char, B.stops])
    (Redactor.email U) fun _ => email_consumes

theorem Boundary.sim (B : Boundary U t t' j c) {a : Kind × Regex CodePoint} (ha : a ∈ pattern U) :
    Sim t t' (Below (j + 1)) a.2 (Below (j + 1)) := by
  simp only [pattern, List.mem_cons, List.not_mem_nil, or_false] at ha
  rcases ha with rfl | rfl | rfl
  · exact B.email
  · exact B.card
  · exact B.ssn

/-- No match that starts up to the boundary sees what lies beyond it. -/
theorem Boundary.matchAt (B : Boundary U t t' j c) (hi : i ≤ j) :
    (scanner U t).matchAt i = (scanner U t').matchAt i :=
  firstMatch_congr fun a ha => (B.sim ha i i ⟨rfl, by omega⟩).imp fun _ _ h => h.1

theorem Boundary.stop_le (B : Boundary U t t' j c) (hi : i ≤ j) {m : Match}
    (hm : (scanner U t).matchAt i = some m) : m.stop ≤ j := by
  obtain ⟨-, a, ha, -, hs⟩ := firstMatch_some hm
  obtain ⟨j', h⟩ := (B.sim ha).exists_end ⟨rfl, Nat.lt_succ_of_le hi⟩ (List.mem_of_mem_head? hs)
  exact Nat.le_of_lt_succ h.2

end Boundary

section Window

/-- A text and what is left after its first k characters have the same
matches, from k on where no lookbehind objects to the character before. -/
theorem matchAt_drop (t : Text) (k i : Nat) (h : i = 0 → (behind t k).any (eligibleChar U) = false) :
    (scanner U t).matchAt (k + i) = ((scanner U (t.drop k)).matchAt i).map (Span.shift k) := by
  refine firstMatch_sim rfl fun a ha => ?_
  refine (sim_drop t k a.2 (eligibleChar U) ?_ (k + i) i ⟨rfl, h⟩).imp fun _ _ h => h.1
  simp only [pattern, List.mem_cons, List.not_mem_nil, or_false] at ha
  rcases ha with rfl | rfl | rfl
  · exact fun _ => email_rejectsBehind
  · exact fun _ => card_rejectsBehind
  · exact fun _ => ssn_rejectsBehind

/-- Whether and how PATTERN matches at a position depends on the character
before it and on the maxPatternLength characters from it, and one more. -/
theorem matchAt_window {i : Nat} (hb : behind t i = behind t' i)
    (h : ∀ d ≤ maxPatternLength, t[i + d]? = t'[i + d]?) :
    (scanner U t).matchAt i = (scanner U t').matchAt i := by
  refine firstMatch_congr fun a ha => ?_
  have ha' : Agree t t' 0 (a.2.width + 0) i i :=
    ⟨(Nat.zero_add i).symm, hb, fun d hd => h d (Nat.le_trans hd (width_le ha))⟩
  exact (sim_agree t t' 0 a.2 0 i i ha').imp fun j j' h => by rw [h.1, Nat.zero_add]

end Window

end LlmGateway.Redactor
