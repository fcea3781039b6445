import LlmGateway.RedactorBodies
import LlmGateway.RegexLanguage

namespace LlmGateway.Redactor

open Scanner Regex

variable {U : Unicode} {t : Text} {i j k : Nat} {m : Match} {kind : Kind}

/-- The alternatives of PATTERN without their lookarounds. -/
def bareEmail : Regex CodePoint :=
  .seq (.rep (.cls localChar) 1 63) <| .seq (exactly '@') <| .seq label <|
  .seq (.rep (.seq (exactly '.') label) 0 4) <| .seq (exactly '.') (.rep (.cls asciiLetter) 2 22)

def bareCard (U : Unicode) : Regex CodePoint :=
  .seq (.rep (.cls U.isDecimal) 4 0)
    (.rep (.seq (.rep (.cls (among [' ', '-'])) 0 1) (.cls U.isDecimal)) 9 6)

def bareSsn (U : Unicode) : Regex CodePoint :=
  .seq (.rep (.cls U.isDecimal) 3 0) <| .seq (.cls (among ['-', ' '])) <|
  .seq (.rep (.cls U.isDecimal) 2 0) <| .seq (.cls (among ['-', ' '])) (.rep (.cls U.isDecimal) 4 0)

def bare (U : Unicode) : Kind → Regex CodePoint
  | .email => bareEmail
  | .card => bareCard U
  | .ssn => bareSsn U

def rejectedBefore (U : Unicode) : Kind → CodePoint → Bool
  | .email => emailBehind U
  | .card | .ssn => U.isDecimal

def rejectedAfter (U : Unicode) : Kind → CodePoint → Bool
  | .email => fun c => asciiAlnum c || among ['_', '-'] c
  | .card | .ssn => U.isDecimal

section Alternatives

theorem emailBody_ends (t : Text) (i : Nat) :
    emailBody.ends t i = (bareEmail.seq (.notAhead (rejectedAfter U .email))).ends t i := by
  simp only [emailBody, emailDomain, bareEmail, rejectedAfter, ends, List.flatMap_assoc]
  rfl

theorem cardBody_ends (t : Text) (i : Nat) :
    (cardBody U).ends t i = ((bareCard U).seq (.notAhead (rejectedAfter U .card))).ends t i := by
  simp only [cardBody, bareCard, rejectedAfter, ends, List.flatMap_assoc]
  rfl

theorem ssnBody_ends (t : Text) (i : Nat) :
    (ssnBody U).ends t i = ((bareSsn U).seq (.notAhead (rejectedAfter U .ssn))).ends t i := by
  simp only [ssnBody, bareSsn, rejectedAfter, ends, List.flatMap_assoc]
  rfl

theorem mem_notAhead {r : Regex CodePoint} {q : CodePoint → Bool} :
    j ∈ (r.seq (.notAhead q)).ends t i ↔ j ∈ r.ends t i ∧ t[j]?.any q = false := by
  rw [ends, List.mem_flatMap]
  constructor
  · rintro ⟨k, hk, hj⟩
    rw [ends] at hj
    split at hj
    · exact absurd hj List.not_mem_nil
    · next hq =>
        rw [List.mem_singleton.mp hj]
        exact ⟨hk, by simpa using hq⟩
  · rintro ⟨hj, hq⟩
    refine ⟨j, hj, ?_⟩
    simp [ends, hq]

def alternative (U : Unicode) : Kind → Regex CodePoint
  | .email => email U
  | .card => card U
  | .ssn => ssn U

theorem pattern_eq : pattern U = [Kind.email, .card, .ssn].map fun kind => (kind, alternative U kind) := rfl

theorem mem_pattern (kind : Kind) : (kind, alternative U kind) ∈ pattern U := by
  cases kind <;> simp [pattern_eq]

theorem alternative_ends (kind : Kind) (t : Text) (i : Nat) : (alternative U kind).ends t i =
    if (behind t i).any (rejectedBefore U kind) then []
    else ((bare U kind).seq (.notAhead (rejectedAfter U kind))).ends t i := by
  cases kind with
  | email => rw [alternative, email_eq, ends_guarded, emailBody_ends]; rfl
  | card => rw [alternative, card_eq, ends_guarded, cardBody_ends]; rfl
  | ssn => rw [alternative, ssn_eq, ends_guarded, ssnBody_ends]; rfl

theorem mem_alternative : j ∈ (alternative U kind).ends t i ↔
    (behind t i).any (rejectedBefore U kind) = false ∧ j ∈ (bare U kind).ends t i ∧
      t[j]?.any (rejectedAfter U kind) = false := by
  rw [alternative_ends]
  split
  · next h => simp [h]
  · next h =>
      rw [mem_notAhead]
      simp [h]

def body (U : Unicode) : Kind → Regex CodePoint
  | .email => emailBody
  | .card => cardBody U
  | .ssn => ssnBody U

theorem mem_guarded (h : j ∈ (alternative U kind).ends t i) :
    (behind t i).any (rejectedBefore U kind) = false ∧ j ∈ (body U kind).ends t i := by
  have hguard {q : CodePoint → Bool} {r : Regex CodePoint} (h : j ∈ (Regex.seq (.notBehind q) r).ends t i) :
      (behind t i).any q = false ∧ j ∈ r.ends t i := by
    rw [ends_guarded] at h
    split at h
    · exact absurd h List.not_mem_nil
    · next hb => exact ⟨by simpa using hb, h⟩
  cases kind <;> exact hguard h

theorem bare_lookFree (kind : Kind) : (bare U kind).lookFree := by
  cases kind <;> rfl

theorem bare_minWidth (kind : Kind) : 0 < (bare U kind).minWidth := by
  cases kind <;> simp [bare, bareEmail, bareCard, bareSsn, label, exactly, minWidth]

theorem matchAt_some (h : (scanner U t).matchAt i = some m) :
    m.start = i ∧ ((alternative U m.name).ends t i).head? = some m.stop := by
  obtain ⟨hstart, a, ha, hname, hstop⟩ := firstMatch_some h
  refine ⟨hstart, ?_⟩
  rw [pattern_eq] at ha
  obtain ⟨kind, -, rfl⟩ := List.mem_map.mp ha
  rw [← hname]
  exact hstop

end Alternatives

section Longest

theorem not_dot_of_labelChar {d : CodePoint} (h : labelChar d) : (d == chr '.') = false := by
  rw [beq_eq_false_iff_ne]
  rintro rfl
  exact absurd h (by decide)

theorem not_dot_of_letter {d : CodePoint} (h : asciiLetter d) : (d == chr '.') = false :=
  not_dot_of_labelChar (by simp [labelChar, asciiAlnum, h])

theorem descending_cls (q : CodePoint → Bool) (lo extra : Nat) (t : Text) (i : Nat) :
    Descending ((Regex.rep (.cls q) lo extra).ends t i) := by
  refine descending_repeatEnds (length_cls q t) (fun i j hj => ?_) lo extra i
  exact Nat.lt_of_succ_le (ends_bounds (.cls q) t i j hj).1

/-- What comes after the labels of an email. -/
def topLabel (t : Text) (i : Nat) : List Nat :=
  ((exactly '.').ends t i).flatMap fun p => ((Regex.rep (.cls asciiLetter) 2 22).ends t p).flatMap
    ((Regex.notAhead (rejectedAfter Unicode.ascii .email)).ends t)

def labels (t : Text) (n i : Nat) : List Nat :=
  (optionalEnds ((Regex.seq (exactly '.') label).ends t) n i).flatMap (topLabel t)

theorem labels_succ (t : Text) (n i : Nat) : labels t (n + 1) i =
    ((exactly '.').ends t i).flatMap (fun p => (label.ends t p).flatMap (labels t n)) ++ topLabel t i := by
  simp only [labels, optionalEnds, ends, List.flatMap_append, List.flatMap_assoc, List.flatMap_singleton]
  rfl

theorem mem_exactly {d : Char} (h : j ∈ (exactly d).ends t i) : j = i + 1 ∧ t[i]? = some (chr d) := by
  rw [exactly, ends] at h
  split at h
  · next hq =>
      refine ⟨List.mem_singleton.mp h, ?_⟩
      cases hc : t[i]? with
      | none => rw [hc] at hq; exact absurd hq (by simp)
      | some a =>
          rw [hc, Option.any_some, beq_iff_eq] at hq
          rw [hq]
  · exact absurd h List.not_mem_nil

theorem topLabel_spec (h : j ∈ topLabel t i) :
    t[i]? = some (chr '.') ∧ i < j ∧ ∀ k, i < k → k < j → t[k]?.any asciiLetter := by
  obtain ⟨p, hp, hrest⟩ := List.mem_flatMap.mp h
  obtain ⟨j', hj, hahead⟩ := List.mem_flatMap.mp hrest
  obtain ⟨rfl, hdot⟩ := mem_exactly hp
  have hjj : j = j' := by
    rw [ends] at hahead
    split at hahead
    · exact absurd hahead List.not_mem_nil
    · exact List.mem_singleton.mp hahead
  rw [hjj]
  exact ⟨hdot, le_of_ends hj, fun k hk hkj => ends_consumes _ _ _ _ hj k hk hkj⟩

theorem labels_spec (n : Nat) (h : j ∈ labels t n i) : t[i]? = some (chr '.') ∧ i < j := by
  induction n generalizing i with
  | zero =>
      have h := topLabel_spec (by simpa [labels, optionalEnds] using h)
      exact ⟨h.1, h.2.1⟩
  | succ n ih =>
      rw [labels_succ] at h
      rcases List.mem_append.mp h with h | h
      · obtain ⟨p, hp, hrest⟩ := List.mem_flatMap.mp h
        obtain ⟨k, hk, hj⟩ := List.mem_flatMap.mp hrest
        obtain ⟨rfl, hdot⟩ := mem_exactly hp
        have hik := le_of_ends hk
        have hkj := (ih hj).2
        exact ⟨hdot, by omega⟩
      · have h := topLabel_spec h
        exact ⟨h.1, h.2.1⟩

theorem descending_topLabel (t : Text) (i : Nat) : Descending (topLabel t i) :=
  descending_flatMap (length_cls _ t i) fun p => descending_notAhead (descending_cls _ 2 22 t p) _ t

/-- A label is delimited by the dot that has to follow it. -/
theorem descending_label {g : Nat → List Nat} (hg : ∀ k, Descending (g k))
    (hstop : ∀ k, ∀ j ∈ g k, t[k]? = some (chr '.')) (i : Nat) : Descending ((label.ends t i).flatMap g) := by
  refine descending_delimited (d := fun d => d == chr '.') (descending_cls _ 1 62 t i) ?_ hg fun k hk => ?_
  · exact fun d hd => not_dot_of_labelChar hd
  · obtain ⟨j, hj⟩ := List.exists_mem_of_ne_nil _ hk
    simp [hstop k j hj]

theorem descending_labels (t : Text) (n i : Nat) : Descending (labels t n i) := by
  induction n generalizing i with
  | zero => simpa [labels, optionalEnds] using descending_topLabel t i
  | succ n ih =>
      rw [labels_succ]
      have hlabel := descending_label ih fun k j hj => (labels_spec n hj).1
      refine List.pairwise_append.mpr ⟨descending_flatMap (length_cls _ t i) hlabel, descending_topLabel t i, ?_⟩
      intro x hx y hy
      obtain ⟨p, hp, hrest⟩ := List.mem_flatMap.mp hx
      obtain ⟨q, hq, hxq⟩ := List.mem_flatMap.mp hrest
      obtain ⟨rfl, -⟩ := mem_exactly hp
      obtain ⟨hdot, hqx⟩ := labels_spec n hxq
      obtain ⟨-, -, hletters⟩ := topLabel_spec hy
      have hiq := le_of_ends hq
      -- the letters of the last label cannot pass the dot at q
      by_contra hxy
      have hletter := hletters q (by omega) (by omega)
      rw [hdot, Option.any_some] at hletter
      exact absurd (not_dot_of_letter hletter) (by simp)

theorem emailDomain_ends (t : Text) (i : Nat) : emailDomain.ends t i = (label.ends t i).flatMap (labels t 4) := rfl

theorem descending_emailDomain (t : Text) (i : Nat) : Descending (emailDomain.ends t i) := by
  rw [emailDomain_ends]
  exact descending_label (descending_labels t 4) (fun k j hj => (labels_spec 4 hj).1) i

theorem descending_emailBody (t : Text) (i : Nat) : Descending (emailBody.ends t i) := by
  have hat (p : Nat) : Descending (((exactly '@').seq emailDomain).ends t p) :=
    descending_flatMap (length_cls _ t p) (descending_emailDomain t)
  refine descending_delimited (d := fun d => d == chr '@') (descending_cls _ 1 63 t i) ?_ hat fun k hk => ?_
  · exact fun d hd => not_localChar_at hd
  · obtain ⟨j, hj⟩ := List.exists_mem_of_ne_nil _ hk
    obtain ⟨p, hp, -⟩ := List.mem_flatMap.mp hj
    simp [(mem_exactly hp).2]

theorem not_isDecimal_separator {d : CodePoint} (h : among [' ', '-'] d) : U.isDecimal d = false := by
  simp only [among, List.map_cons, List.map_nil, List.contains_cons, List.contains_nil, Bool.or_false,
    Bool.or_eq_true, beq_iff_eq] at h
  rw [← Bool.not_eq_true]
  intro hd
  rcases h with rfl | rfl
  · exact absurd (isDecimal_ascii (by decide) hd) (by decide)
  · exact absurd (isDecimal_ascii (by decide) hd) (by decide)

/-- A digit is reached in one way only, with or without a separator. -/
theorem length_unit (t : Text) (i : Nat) :
    ((Regex.seq (.rep (.cls (among [' ', '-'])) 0 1) (.cls U.isDecimal)).ends t i).length ≤ 1 := by
  simp only [ends, repeatEnds, optionalEnds]
  by_cases hs : t[i]?.any (among [' ', '-'])
  · have hd : t[i]?.any U.isDecimal = false := by
      cases hc : t[i]? with
      | none => rfl
      | some d =>
          rw [hc, Option.any_some] at hs
          exact not_isDecimal_separator hs
    simp only [hs, hd, if_true, List.flatMap_singleton, List.flatMap_append, Bool.false_eq_true, if_false,
      List.append_nil]
    split <;> simp
  · simp only [hs, Bool.false_eq_true, if_false, List.flatMap_nil, List.nil_append, List.flatMap_singleton]
    split <;> simp

theorem descending_cardBody (t : Text) (i : Nat) : Descending ((cardBody U).ends t i) := by
  refine descending_flatMap (length_exact (length_cls _ t) 4 i) fun p => descending_notAhead ?_ _ t
  refine descending_repeatEnds (length_unit t) (fun k j hj => ?_) 9 6 p
  exact Nat.lt_of_succ_le (ends_bounds _ t k j hj).1

theorem length_ssnBody (t : Text) (i : Nat) : ((ssnBody U).ends t i).length ≤ 1 := by
  have hdigits (lo p : Nat) := length_exact (length_cls U.isDecimal t) lo p
  have hseparator (p : Nat) := length_cls (among ['-', ' ']) t p
  refine length_flatMap_le_one (hdigits 3 i) fun p => length_flatMap_le_one (hseparator p) fun p => ?_
  refine length_flatMap_le_one (hdigits 2 p) fun p => length_flatMap_le_one (hseparator p) fun p => ?_
  exact length_flatMap_le_one (hdigits 4 p) fun p => length_notAhead _ t p

/-- The first end that an alternative tries is its longest. -/
theorem descending_alternative (kind : Kind) (t : Text) (i : Nat) : Descending ((alternative U kind).ends t i) := by
  have hguard {q : CodePoint → Bool} {r : Regex CodePoint} (h : Descending (r.ends t i)) :
      Descending ((Regex.seq (.notBehind q) r).ends t i) := by
    rw [ends_guarded]
    split
    · exact List.Pairwise.nil
    · exact h
  cases kind with
  | email => exact hguard (descending_emailBody t i)
  | card => exact hguard (descending_cardBody t i)
  | ssn => exact hguard (descending_of_length (length_ssnBody t i))

end Longest

end LlmGateway.Redactor
