import LlmGateway.RedactorHold

namespace LlmGateway.Redactor

open Scanner Regex

variable {U : Unicode} {t : Text} {c i j k : Nat} {m : Match}

/-- What follows the @ of an email. -/
def emailDomain : Regex CodePoint :=
  .seq label <| .seq (.rep (.seq (exactly '.') label) 0 4) <| .seq (exactly '.') <|
  .seq (.rep (.cls asciiLetter) 2 22) (.notAhead fun c => asciiAlnum c || among ['_', '-'] c)

def emailBody : Regex CodePoint := .seq (.rep (.cls localChar) 1 63) <| .seq (exactly '@') emailDomain

def cardBody (U : Unicode) : Regex CodePoint :=
  .seq (.rep (.cls U.isDecimal) 4 0) <|
  .seq (.rep (.seq (.rep (.cls (among [' ', '-'])) 0 1) (.cls U.isDecimal)) 9 6) (.notAhead U.isDecimal)

def ssnBody (U : Unicode) : Regex CodePoint :=
  .seq (.rep (.cls U.isDecimal) 3 0) <| .seq (.cls (among ['-', ' '])) <|
  .seq (.rep (.cls U.isDecimal) 2 0) <| .seq (.cls (among ['-', ' '])) <|
  .seq (.rep (.cls U.isDecimal) 4 0) (.notAhead U.isDecimal)

/-- The characters that no email may follow. -/
def emailBehind (U : Unicode) (c : CodePoint) : Bool := U.isWord c || among ['.', '@', '+', '-'] c

theorem email_eq : email U = .seq (.notBehind (emailBehind U)) emailBody := rfl

theorem card_eq : card U = .seq (.notBehind U.isDecimal) (cardBody U) := rfl

theorem ssn_eq : ssn U = .seq (.notBehind U.isDecimal) (ssnBody U) := rfl

theorem ends_guarded (q : CodePoint → Bool) (r : Regex CodePoint) (t : Text) (i : Nat) :
    (Regex.seq (.notBehind q) r).ends t i = if (behind t i).any q then [] else r.ends t i := by
  rw [ends, ends]
  split
  · rfl
  · rw [List.flatMap_singleton]

theorem matchAt_cases (h : (scanner U t).matchAt i = some m) :
    m.start = i ∧ (m.name = .email ∧ (behind t i).any (emailBehind U) = false ∧
        (emailBody.ends t i).head? = some m.stop ∨
      m.name = .card ∧ ((cardBody U).ends t i).head? = some m.stop ∨
      m.name = .ssn ∧ ((ssnBody U).ends t i).head? = some m.stop) := by
  obtain ⟨hstart, a, ha, hname, hstop⟩ := firstMatch_some h
  refine ⟨hstart, ?_⟩
  simp only [pattern, List.mem_cons, List.not_mem_nil, or_false] at ha
  rcases ha with rfl | rfl | rfl
  · rw [email_eq, ends_guarded] at hstop
    split at hstop
    · cases hstop
    · next hb => exact Or.inl ⟨hname.symm, by simpa using hb, hstop⟩
  · rw [card_eq, ends_guarded] at hstop
    split at hstop
    · cases hstop
    · exact Or.inr (Or.inl ⟨hname.symm, hstop⟩)
  · rw [ssn_eq, ends_guarded] at hstop
    split at hstop
    · cases hstop
    · exact Or.inr (Or.inr ⟨hname.symm, hstop⟩)

section Characters

/-- The characters of cards and social security numbers. -/
def numberChar (U : Unicode) (c : CodePoint) : Bool := U.isDecimal c || among [' ', '-'] c

theorem among_separators (c : CodePoint) : among ['-', ' '] c = among [' ', '-'] c := by
  simp only [among, List.map_cons, List.map_nil, List.contains_cons, List.contains_nil, Bool.or_false]
  exact Bool.or_comm _ _

theorem numberChar_of_ends {r : Regex CodePoint} (hr : r = cardBody U ∨ r = ssnBody U) (hj : j ∈ r.ends t i)
    (hk : i ≤ k) (hkj : k < j) : t[k]?.any (numberChar U) := by
  refine any_mono (fun c hc => ?_) (ends_consumes r t i j hj k hk hkj)
  rcases hr with rfl | rfl
  · simp only [cardBody, consumes, Bool.or_eq_true, Bool.false_eq_true, or_false] at hc
    simp only [numberChar, Bool.or_eq_true]
    rcases hc with h | h | h
    · exact Or.inl h
    · exact Or.inr h
    · exact Or.inl h
  · simp only [ssnBody, consumes, among_separators, Bool.or_eq_true, Bool.false_eq_true, or_false] at hc
    simp only [numberChar, Bool.or_eq_true]
    rcases hc with h | h | h | h | h
    · exact Or.inl h
    · exact Or.inr h
    · exact Or.inl h
    · exact Or.inr h
    · exact Or.inl h

/-- The characters of an email after its local part. -/
def domainChar (c : CodePoint) : Bool := asciiAlnum c || among ['.', '-'] c

theorem domainChar_of_ends (hj : j ∈ emailDomain.ends t i) (hk : i ≤ k) (hkj : k < j) :
    t[k]?.any domainChar := by
  refine any_mono (fun c hc => ?_) (ends_consumes emailDomain t i j hj k hk hkj)
  simp only [emailDomain, label, exactly, labelChar, consumes, Bool.or_eq_true, beq_iff_eq,
    Bool.false_eq_true, or_false] at hc
  simp only [domainChar, Bool.or_eq_true]
  rcases hc with (h | rfl) | (rfl | h | rfl) | rfl | h
  · exact Or.inl h
  · exact Or.inr (by decide)
  · exact Or.inr (by decide)
  · exact Or.inl h
  · exact Or.inr (by decide)
  · exact Or.inr (by decide)
  · exact Or.inl (by simp [asciiAlnum, h])

theorem triple_true {r s : Regex CodePoint} {Q : Nat → Prop} (h : Triple t (fun _ => True) s Q) :
    Triple t (fun _ => True) (.seq r s) Q :=
  Triple.seq (fun _ _ _ _ => trivial) h

theorem triple_cls (q : CodePoint → Bool) : Triple t (fun _ => True) (.cls q) fun j => (behind t j).any q := by
  intro i _ j hj
  rw [ends] at hj
  split at hj
  · next h => rw [List.mem_singleton.mp hj]; exact h
  · exact absurd hj List.not_mem_nil

/-- A run of q ends after a character of q. -/
theorem triple_run (q : CodePoint → Bool) (lo extra : Nat) :
    Triple t (fun _ => True) (.rep (.cls q) (lo + 1) extra) fun j => (behind t j).any q := by
  intro i _ j hj
  obtain ⟨k, hk, hj⟩ := List.mem_flatMap.mp hj
  exact (Triple.rep (fun i _ => triple_cls q i trivial) lo extra) k (triple_cls q i trivial k hk) j hj

theorem letter_of_emailDomain (hj : j ∈ emailDomain.ends t i) : (behind t j).any asciiLetter := by
  have hahead : Triple t (fun j => (behind t j).any asciiLetter)
      (.notAhead fun c => asciiAlnum c || among ['_', '-'] c) fun j => (behind t j).any asciiLetter := by
    intro i hi j hj
    rw [ends] at hj
    split at hj
    · exact absurd hj List.not_mem_nil
    · rw [List.mem_singleton.mp hj]; exact hi
  exact triple_true (triple_true (triple_true ((triple_run asciiLetter 1 22).seq hahead))) i trivial j hj

theorem isDecimal_ascii {c : CodePoint} (hc : isAscii c) (hd : U.isDecimal c) : asciiDigit c := by
  rw [Unicode.isDecimal, U.decimal_ascii c hc, asciiDecimal] at hd
  split at hd
  · next h => simpa [asciiDigit, between] using h
  · exact absurd hd (by simp)

theorem not_numberChar {c : CodePoint} (hc : isAscii c) (hd : asciiDigit c = false)
    (hs : among [' ', '-'] c = false) : numberChar U c = false := by
  rw [numberChar, hs, Bool.or_false, ← Bool.not_eq_true]
  intro h
  rw [isDecimal_ascii hc h] at hd
  exact absurd hd (by simp)

theorem not_numberChar_letter {c : CodePoint} (h : asciiLetter c) : numberChar U c = false := by
  have hA : 'A'.toNat = 65 := rfl
  have hZ : 'Z'.toNat = 90 := rfl
  have ha : 'a'.toNat = 97 := rfl
  have hz : 'z'.toNat = 122 := rfl
  have h0 : '0'.toNat = 48 := rfl
  have h9 : '9'.toNat = 57 := rfl
  simp only [asciiLetter, between, Bool.or_eq_true, Bool.and_eq_true, decide_eq_true_eq] at h
  refine not_numberChar ?_ ?_ ?_
  · simp only [isAscii, decide_eq_true_eq]
    omega
  · simp only [asciiDigit, between, Bool.and_eq_false_iff, decide_eq_false_iff_not]
    omega
  · have hsp : (chr ' ').val = 32 := rfl
    have hd : (chr '-').val = 45 := rfl
    simp only [among, List.map_cons, List.map_nil, List.contains_cons, List.contains_nil, Bool.or_false,
      Bool.or_eq_false_iff, beq_eq_false_iff_ne, ne_eq, Fin.ext_iff]
    omega

theorem emailBehind_of_domainChar {c : CodePoint} (h : domainChar c) : emailBehind U c := by
  simp only [domainChar, Bool.or_eq_true] at h
  rcases h with h | h
  · simp [emailBehind, Unicode.isWord, U.isalnum_of_asciiAlnum h]
  · simp only [among, List.map_cons, List.map_nil, List.contains_cons, List.contains_nil, Bool.or_false,
      Bool.or_eq_true, beq_iff_eq] at h
    simp only [emailBehind, Bool.or_eq_true]
    refine Or.inr ?_
    rcases h with rfl | rfl <;> decide

theorem emailBehind_of_isDecimal {c : CodePoint} (h : U.isDecimal c) : emailBehind U c := by
  simp [emailBehind, Unicode.isWord, U.isalnum_of_isdigit c (U.isdigit_of_isDecimal h)]

theorem not_localChar_at {c : CodePoint} (h : localChar c) : (c == chr '@') = false := by
  rw [beq_eq_false_iff_ne]
  rintro rfl
  exact absurd h (by decide)

/-- The characters of a match. -/
def matchChar (U : Unicode) (c : CodePoint) : Bool := localChar c || c == chr '@' || numberChar U c

theorem localChar_of_domainChar {c : CodePoint} (h : domainChar c) : localChar c := by
  simp only [domainChar, Bool.or_eq_true] at h
  rcases h with h | h
  · simp [localChar, h]
  · simp only [among, List.map_cons, List.map_nil, List.contains_cons, List.contains_nil, Bool.or_false,
      Bool.or_eq_true, beq_iff_eq] at h
    rcases h with rfl | rfl <;> decide

theorem matchChar_of_matchAt (h : (scanner U t).matchAt i = some m) (hk : i ≤ k) (hkj : k < m.stop) :
    t[k]?.any (matchChar U) := by
  have hlocal : ∀ c, localChar c → matchChar U c := fun c hc => by simp [matchChar, hc]
  have hnumber : ∀ c, numberChar U c → matchChar U c := fun c hc => by simp [matchChar, hc]
  obtain ⟨-, ⟨-, -, hs⟩ | ⟨-, hs⟩ | ⟨-, hs⟩⟩ := matchAt_cases h
  · obtain ⟨a, -, -, hrun, hat, hj⟩ := exists_delimiter (List.mem_of_mem_head? hs)
    rcases Nat.lt_trichotomy k a with hlt | rfl | hgt
    · exact any_mono hlocal (hrun k hk hlt)
    · exact any_mono (fun c hc => by simp only [matchChar, hc, Bool.or_true, Bool.true_or]) hat
    · exact any_mono (fun c hc => hlocal c (localChar_of_domainChar hc)) (domainChar_of_ends hj hgt hkj)
  · exact any_mono hnumber (numberChar_of_ends (Or.inl rfl) (List.mem_of_mem_head? hs) hk hkj)
  · exact any_mono hnumber (numberChar_of_ends (Or.inr rfl) (List.mem_of_mem_head? hs) hk hkj)

theorem ne_bracket_of_matchAt (h : (scanner U t).matchAt i = some m) (hk : i ≤ k) (hkj : k < m.stop) :
    t[k]? ≠ some (chr '[') := by
  intro hb
  have hm := matchChar_of_matchAt h hk hkj
  have hlocal : localChar (chr '[') = false := by decide
  have hat : (chr '[' == chr '@') = false := by decide
  rw [hb, Option.any_some, matchChar, not_numberChar (by decide) (by decide) (by decide), hlocal, hat] at hm
  exact absurd hm (by simp)

theorem not_isSurrogate_of_matchChar {c : CodePoint} (h : matchChar U c) : isSurrogate c = false := by
  have hascii {c : CodePoint} (hc : c.val < 128) : isSurrogate c = false := by
    simp only [isSurrogate, Bool.and_eq_false_iff, decide_eq_false_iff_not]
    omega
  have hZ : 'Z'.toNat = 90 := rfl
  have hz : 'z'.toNat = 122 := rfl
  have h9 : '9'.toNat = 57 := rfl
  simp only [matchChar, localChar, numberChar, Bool.or_eq_true, beq_iff_eq] at h
  rcases h with ((h | h) | rfl) | h | h
  · refine hascii ?_
    simp only [asciiAlnum, asciiLetter, asciiDigit, between, Bool.or_eq_true, Bool.and_eq_true, decide_eq_true_eq] at h
    omega
  · simp only [among, List.map_cons, List.map_nil, List.contains_cons, List.contains_nil, Bool.or_false,
      Bool.or_eq_true, beq_iff_eq] at h
    rcases h with rfl | rfl | rfl | rfl | rfl <;> decide
  · decide
  · rw [← Bool.not_eq_true]
    intro hs
    rw [Unicode.isDecimal, U.decimal_surrogate c hs] at h
    exact absurd h (by simp)
  · simp only [among, List.map_cons, List.map_nil, List.contains_cons, List.contains_nil, Bool.or_false,
      Bool.or_eq_true, beq_iff_eq] at h
    rcases h with rfl | rfl <;> decide

end Characters

section Unfresh

/-- Without lookbehinds a body matches what is left as it matches the text. -/
theorem ends_drop {r : Regex CodePoint} (hr : ∀ x, r.rejectsBehind x = false) (t : Text) (c : Nat) :
    r.ends t c = (r.ends (t.drop c) 0).map (c + ·) := by
  have h := sim_drop t c r (fun _ => false) (fun x hx => by rw [hr x] at hx; exact hx) c 0
    ⟨rfl, fun _ => by cases behind t c <;> rfl⟩
  exact forall₂_shift (h.imp fun _ _ hj => hj.1)

theorem matchAt_eq (t : Text) (i : Nat) : (scanner U t).matchAt i =
    (((email U).ends t i).head?.map (Span.mk .email i)).or
      ((((card U).ends t i).head?.map (Span.mk .card i)).or
        (((ssn U).ends t i).head?.map (Span.mk .ssn i))) := by
  change firstMatch (pattern U) t i = _
  simp only [firstMatch, pattern, List.findSome?_cons, List.findSome?_nil]
  cases ((email U).ends t i).head? with
  | some j => rfl
  | none =>
      cases ((card U).ends t i).head? with
      | some j => rfl
      | none => cases ((ssn U).ends t i).head? <;> rfl

/-- A cut that does not keep its context lets PATTERN match where it did not,
or lets it match an email where it matched digits. -/
theorem matchAt_of_not_fresh (h : ¬ Fresh U t c) : ∃ m', (scanner U (t.drop c)).matchAt 0 = some m' ∧
    ((scanner U t).matchAt c = none ∨
      ∃ m, (scanner U t).matchAt c = some m ∧ m'.name = .email ∧ m.name ≠ .email) := by
  have hzero : behind (t.drop c) 0 = none := rfl
  rw [Fresh, matchAt_eq, matchAt_eq] at h
  rw [matchAt_eq, matchAt_eq]
  simp only [email_eq, card_eq, ssn_eq, ends_guarded, hzero, Option.any_none, Bool.false_eq_true, if_false] at h ⊢
  rw [ends_drop (r := emailBody) (fun _ => rfl) t c, ends_drop (r := cardBody U) (fun _ => rfl) t c,
    ends_drop (r := ssnBody U) (fun _ => rfl) t c] at h
  rw [ends_drop (r := emailBody) (fun _ => rfl) t c, ends_drop (r := cardBody U) (fun _ => rfl) t c,
    ends_drop (r := ssnBody U) (fun _ => rfl) t c]
  have hmono : (behind t c).any U.isDecimal → (behind t c).any (emailBehind U) :=
    any_mono fun _ => emailBehind_of_isDecimal
  generalize emailBody.ends (t.drop c) 0 = E at h ⊢
  generalize (cardBody U).ends (t.drop c) 0 = C at h ⊢
  generalize (ssnBody U).ends (t.drop c) 0 = N at h ⊢
  generalize (behind t c).any (emailBehind U) = be at h hmono ⊢
  generalize (behind t c).any U.isDecimal = bd at h hmono ⊢
  cases bd with
  | true =>
      rw [hmono rfl] at h ⊢
      simp only [if_true, List.head?_nil, Option.map_none, Option.or_none] at h ⊢
      generalize (E.head?.map (Span.mk Kind.email 0)).or
        ((C.head?.map (Span.mk Kind.card 0)).or (N.head?.map (Span.mk Kind.ssn 0))) = found at h ⊢
      cases found with
      | none => exact absurd rfl h
      | some m' => exact ⟨m', rfl, Or.inl trivial⟩
  | false =>
      simp only [Bool.false_eq_true, if_false, List.head?_map] at h ⊢
      cases hE : E.head? with
      | none =>
          refine absurd ?_ h
          cases be <;> cases hC : C.head? <;> cases hN : N.head? <;> simp [hE, Span.shift]
      | some e =>
          cases be with
          | false =>
              refine absurd ?_ h
              simp [hE, Span.shift]
          | true =>
              refine ⟨_, rfl, ?_⟩
              cases C.head? with
              | some j => exact Or.inr ⟨_, rfl, rfl, by simp⟩
              | none =>
                  cases N.head? with
                  | some j => exact Or.inr ⟨_, rfl, rfl, by simp⟩
                  | none => exact Or.inl rfl

end Unfresh

end LlmGateway.Redactor
