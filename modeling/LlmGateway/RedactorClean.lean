import LlmGateway.RedactorOccurrences

namespace LlmGateway.Redactor

open Scanner Regex

variable {U : Unicode} {luhn : Bool} {t p v : Text} {a b c e i j k n : Nat} {m : Match} {ms : List Match} {kind : Kind}

section Slice

theorem slice_slice (he : a + e ≤ b) : slice (slice t a b) k e = slice t (a + k) (a + e) := by
  rw [slice.eq_1 t a b, slice_drop, slice, slice, List.take_take, Nat.min_eq_left he]

theorem bare_bounds (h : j ∈ (bare U kind).ends t i) : i < j ∧ j ≤ t.length := by
  have hbounds := ends_bounds _ t i j h
  have hwidth := bare_minWidth (U := U) kind
  exact ⟨by omega, end_le_length h (by omega)⟩

/-- A slice is matched like the text, with nothing before and after it. -/
theorem mem_alternative_slice (ha : a ≤ b) (hb : b ≤ t.length) : e ∈ (alternative U kind).ends (slice t a b) k ↔
    (k = 0 ∨ (behind t (a + k)).any (rejectedBefore U kind) = false) ∧ a + e ∈ (bare U kind).ends t (a + k) ∧
      a + e ≤ b ∧ (a + e = b ∨ t[a + e]?.any (rejectedAfter U kind) = false) := by
  have hlength := slice_length (t := t) (i := a) hb
  have hbare (he : a + e ≤ b) (hk : k ≤ e) : e ∈ (bare U kind).ends (slice t a b) k ↔
      a + e ∈ (bare U kind).ends t (a + k) := by
    rw [mem_ends_iff (bare_lookFree kind) hk (by omega), mem_ends_iff (bare_lookFree kind) (by omega) (by omega),
      slice_slice he]
  have hbehind (hk : a + k ≤ b) : (behind (slice t a b) k).any (rejectedBefore U kind) = false ↔
      k = 0 ∨ (behind t (a + k)).any (rejectedBefore U kind) = false := by
    cases k with
    | zero => exact iff_of_true rfl (Or.inl rfl)
    | succ k =>
        rw [or_iff_right (Nat.succ_ne_zero k), behind, getElem?_slice (by omega)]
        rfl
  have hafter (he : a + e ≤ b) : (slice t a b)[e]?.any (rejectedAfter U kind) = false ↔
      a + e = b ∨ t[a + e]?.any (rejectedAfter U kind) = false := by
    rcases Nat.eq_or_lt_of_le he with heq | hlt
    · rw [List.getElem?_eq_none (by omega)]
      exact iff_of_true rfl (Or.inl heq)
    · rw [or_iff_right (by omega), getElem?_slice hlt]
  rw [mem_alternative]
  constructor
  · rintro ⟨h1, h2, h3⟩
    obtain ⟨hlt, hle⟩ := bare_bounds h2
    have he : a + e ≤ b := by omega
    exact ⟨(hbehind (by omega)).mp h1, (hbare he (by omega)).mp h2, he, (hafter he).mp h3⟩
  · rintro ⟨h1, h2, he, h3⟩
    obtain ⟨hlt, -⟩ := bare_bounds h2
    exact ⟨(hbehind (by omega)).mpr h1, (hbare he (by omega)).mpr h2, (hafter he).mpr h3⟩

end Slice

section Rescan

theorem bare_not_bracket (kind : Kind) :
    (bare U kind).consumes (chr '[') = false ∧ rejectedAfter U kind (chr '[') = false := by
  have hdecimal : U.isDecimal (chr '[') = false := by
    rw [← Bool.not_eq_true]
    exact fun h => absurd (isDecimal_ascii (by decide) h) (by decide)
  have hseparator : among [' ', '-'] (chr '[') = false ∧ among ['-', ' '] (chr '[') = false := by decide
  cases kind with
  | email =>
      have hemail : bareEmail.consumes (chr '[') = false ∧ rejectedAfter .ascii .email (chr '[') = false := by decide
      exact hemail
  | card => simp [bare, bareCard, consumes, rejectedAfter, hdecimal, hseparator]
  | ssn => simp [bare, bareSsn, consumes, rejectedAfter, hdecimal, hseparator]

/-- A bracket ends what is matched before it like the end of the text. -/
theorem matchAt_before_bracket (hi : i ≤ p.length) :
    (scanner U (p ++ chr '[' :: v)).matchAt i = (scanner U p).matchAt i := by
  have hslice : slice (p ++ chr '[' :: v) 0 p.length = p := by
    rw [ slice_prefix (Nat.le_refl _)]
    exact List.take_length
  have hbracket : (p ++ chr '[' :: v)[p.length]? = some (chr '[') := by simp
  refine firstMatch_congr fun a ha => ?_
  rw [pattern_eq] at ha
  obtain ⟨kind, -, rfl⟩ := List.mem_map.mp ha
  rw [List.forall₂_eq_eq_eq]
  refine (descending_alternative kind _ i).ext (descending_alternative kind _ i) fun e => ?_
  conv_rhs => rw [← hslice, mem_alternative_slice (Nat.zero_le _) (by simp)]
  rw [mem_alternative, Nat.zero_add, Nat.zero_add]
  constructor
  · rintro ⟨hbefore, he, hafter⟩
    have hle : e ≤ p.length := by
      by_contra hlt
      have hconsumed := ends_consumes _ _ _ _ he p.length hi (by omega)
      rw [hbracket, Option.any_some, (bare_not_bracket kind).1] at hconsumed
      exact absurd hconsumed (by simp)
    exact ⟨Or.inr hbefore, he, hle, Or.inr hafter⟩
  · rintro ⟨hbefore, he, -, hafter⟩
    refine ⟨?_, he, ?_⟩
    · rcases hbefore with rfl | hbefore
      · rfl
      · exact hbefore
    · rcases hafter with rfl | hafter
      · rw [hbracket, Option.any_some, (bare_not_bracket kind).2]
      · exact hafter

theorem getElem?_redacted (hn : n < redacted.length) : (p ++ redacted ++ v)[p.length + n]? = redacted[n]? := by
  rw [List.append_assoc, List.getElem?_append_right (by omega), Nat.add_sub_cancel_left, List.getElem?_append_left hn]

/-- The characters of a redaction: neither @ nor of a number. -/
theorem redacted_char (hn : n < redacted.length) : ∃ c, redacted[n]? = some c ∧ (c == chr '@') = false ∧
    numberChar U c = false := by
  have hall : redacted.all fun c => isAscii c && (!asciiDigit c && (!among [' ', '-'] c && !(c == chr '@'))) := by
    decide
  have hc := List.all_eq_true.mp hall redacted[n] (List.getElem_mem hn)
  simp only [Bool.and_eq_true, Bool.not_eq_true'] at hc
  exact ⟨redacted[n], List.getElem?_eq_getElem hn, hc.2.2.2, not_numberChar hc.1 hc.2.1 hc.2.2.1⟩

/-- Nothing matches in a redaction. -/
theorem matchAt_redacted (hn : n < redacted.length) :
    (scanner U (p ++ redacted ++ v)).matchAt (p.length + n) = none := by
  have hfirst := getElem?_redacted (p := p) (v := v) hn
  obtain ⟨c, hc, -, hchar⟩ := redacted_char (U := U) hn
  rw [hc] at hfirst
  cases hm : (scanner U (p ++ redacted ++ v)).matchAt (p.length + n) with
  | none => rfl
  | some m =>
      have hlt := (scanner U (p ++ redacted ++ v)).lt_stop hm
      have hnumber {r : Regex CodePoint} (hr : r = cardBody U ∨ r = ssnBody U)
          (hs : (r.ends (p ++ redacted ++ v) (p.length + n)).head? = some m.stop) : False := by
        have h := numberChar_of_ends hr (List.mem_of_mem_head? hs) (Nat.le_refl _) hlt
        rw [hfirst, Option.any_some, hchar] at h
        exact absurd h (by simp)
      obtain ⟨-, ⟨-, -, hs⟩ | ⟨-, hs⟩ | ⟨-, hs⟩⟩ := matchAt_cases hm
      · obtain ⟨a, hna, -, hrun, hat, -⟩ := emailBody_spec hs
        have hclose := getElem?_redacted (p := p) (v := v) (n := 9) (by rw [show redacted.length = 10 from rfl]; decide)
        rcases Nat.lt_or_ge a (p.length + 10) with hlow | hhigh
        · obtain ⟨d, rfl⟩ := Nat.exists_eq_add_of_le (show p.length ≤ a by omega)
          have hd : d < redacted.length := by
            have : redacted.length = 10 := rfl
            omega
          obtain ⟨c', hc', hne, -⟩ := redacted_char (U := U) hd
          rw [getElem?_redacted hd, hc'] at hat
          cases hat
          exact absurd hne (by decide)
        · have hn9 : n < 10 := hn
          have hlocal := hrun (p.length + 9) (by omega) (by omega)
          rw [hclose] at hlocal
          exact absurd hlocal (by decide)
      · exact (hnumber (Or.inl rfl) hs).elim
      · exact (hnumber (Or.inr rfl) hs).elim

/-- A redaction separates what is found on its two sides. -/
theorem finditer_redacted : finditer U (p ++ redacted ++ v) =
    finditer U p ++ (finditer U v).map (Span.shift (p.length + redacted.length)) := by
  have hleft : finditer U (p ++ redacted ++ v) =
      finditer U p ++ (scanner U (p ++ redacted ++ v)).spansFrom p.length := by
    refine spansFrom_append (S := scanner U (p ++ redacted ++ v)) (T := scanner U p) (fun i hi => ?_) 0 (Nat.zero_le _)
    rw [List.append_assoc]
    exact matchAt_before_bracket (Nat.le_of_lt hi)
  have hover (n : Nat) (hn : n ≤ redacted.length) : (scanner U (p ++ redacted ++ v)).spansFrom p.length =
      (scanner U (p ++ redacted ++ v)).spansFrom (p.length + n) := by
    induction n with
    | zero => rfl
    | succ n ih => rw [ih (Nat.le_of_succ_le hn), spansFrom_none (matchAt_redacted hn), Nat.add_assoc]
  have hfresh : Fresh U (p ++ redacted ++ v) (p.length + redacted.length) := by
    apply fresh_of_behind
    have hbehind : behind (p ++ redacted ++ v) (p.length + redacted.length) = some (chr ']') :=
      getElem?_redacted (n := 9) (by decide)
    have halnum : U.isalnum (chr ']') = false := (U.isalnum_ascii (chr ']') (by decide)).trans (by decide)
    rw [hbehind, Option.any_some, eligibleChar, halnum]
    decide
  have hdrop : (p ++ redacted ++ v).drop (p.length + redacted.length) = v :=
    List.drop_left' List.length_append
  rw [hleft, hover _ (Nat.le_refl _), hfresh.spansFrom, hdrop]

/-- The text has no match that would be redacted. -/
def Spotless (U : Unicode) (luhn : Bool) (t : Text) : Prop := ∀ m ∈ finditer U t, isReal U luhn t m = false

theorem spotless_redacted : Spotless U luhn (p ++ redacted ++ v) ↔ Spotless U luhn p ∧ Spotless U luhn v := by
  have hdrop : (p ++ redacted ++ v).drop (p.length + redacted.length) = v :=
    List.drop_left' List.length_append
  have hleft : (∀ m ∈ finditer U p, isReal U luhn (p ++ redacted ++ v) m = false) ↔ Spotless U luhn p := by
    refine forall₂_congr fun m hm => ?_
    rw [List.append_assoc, isReal_prefix ((chained_finditer U p).stop_le m hm)]
  rw [Spotless, finditer_redacted, List.forall_mem_append, hleft, List.forall_mem_map]
  simp only [isReal_shift, hdrop]
  rfl

/-- The intervals of the text that stay between the matches. -/
def kept : List Match → Nat → Nat → List (Nat × Nat)
  | [], cursor, stop => [(cursor, stop)]
  | m :: ms, cursor, stop => (cursor, m.start) :: kept ms m.stop stop

/-- A second pass finds what it finds in each of the pieces that were kept. -/
theorem spotless_replaced (ms : List Match) (c n : Nat) :
    Spotless U luhn (replaced t ms c n) ↔ ∀ q ∈ kept ms c n, Spotless U luhn (slice t q.1 q.2) := by
  induction ms generalizing c with
  | nil => rw [replaced, kept, List.forall_mem_singleton]
  | cons m ms ih => rw [replaced, spotless_redacted, ih, kept, List.forall_mem_cons]

end Rescan

section Pieces

/-- An interval between two redactions, or between one and an end of the text. -/
structure Piece (U : Unicode) (luhn : Bool) (t : Text) (a b : Nat) : Prop where
  le : a ≤ b
  stop_le : b ≤ t.length
  opens : a = 0 ∨ ∃ m ∈ redactions U luhn t, m.stop = a
  closes : b = t.length ∨ ∃ m ∈ redactions U luhn t, m.start = b
  clear : ∀ m ∈ redactions U luhn t, m.stop ≤ a ∨ b ≤ m.start

theorem chained_redactions (U : Unicode) (luhn : Bool) (t : Text) : Chained t.length 0 (redactions U luhn t) :=
  (chained_finditer U t).filter _

theorem mem_kept (h : Chained n c ms) {q : Nat × Nat} (hq : q ∈ kept ms c n) : c ≤ q.1 ∧ q.1 ≤ q.2 ∧ q.2 ≤ n ∧
    (q.1 = c ∨ ∃ m ∈ ms, m.stop = q.1) ∧ (q.2 = n ∨ ∃ m ∈ ms, m.start = q.2) ∧
      ∀ m ∈ ms, m.stop ≤ q.1 ∨ q.2 ≤ m.start := by
  induction ms generalizing c with
  | nil =>
      rw [List.mem_singleton.mp hq]
      exact ⟨Nat.le_refl c, h, Nat.le_refl n, Or.inl rfl, Or.inl rfl, fun m hm => absurd hm List.not_mem_nil⟩
  | cons m ms ih =>
      have hstop := h.2.2.le
      have hstart := h.2.2.start_ge
      rcases List.mem_cons.mp hq with rfl | hq
      · refine ⟨Nat.le_refl c, h.1, Nat.le_trans (Nat.le_of_lt h.2.1) hstop, Or.inl rfl,
          Or.inr ⟨m, List.mem_cons_self, rfl⟩, List.forall_mem_cons.mpr ⟨Or.inr (Nat.le_refl _), fun m' hm' => ?_⟩⟩
        exact Or.inr (Nat.le_trans (Nat.le_of_lt h.2.1) (hstart m' hm'))
      · obtain ⟨hc, hle, hn, hopens, hcloses, hclear⟩ := ih h.2.2 hq
        refine ⟨by have := h.1; have := h.2.1; omega, hle, hn, Or.inr ?_,
          hcloses.imp_right fun ⟨m', hm', heq⟩ => ⟨m', List.mem_cons_of_mem m hm', heq⟩,
          List.forall_mem_cons.mpr ⟨Or.inl hc, hclear⟩⟩
        rcases hopens with heq | ⟨m', hm', heq⟩
        · exact ⟨m, List.mem_cons_self, heq.symm⟩
        · exact ⟨m', List.mem_cons_of_mem m hm', heq⟩

theorem piece_of_kept {q : Nat × Nat} (hq : q ∈ kept (redactions U luhn t) 0 t.length) : Piece U luhn t q.1 q.2 := by
  obtain ⟨-, hle, hn, hopens, hcloses, hclear⟩ := mem_kept (chained_redactions U luhn t) hq
  exact ⟨hle, hn, hopens, hcloses, hclear⟩

/-- What no match touches lies in one of the intervals. -/
theorem exists_kept (h : Chained n c ms) (hc : c ≤ i) (hj : j ≤ n)
    (hclear : ∀ m ∈ ms, m.stop ≤ i ∨ j ≤ m.start) : ∃ q ∈ kept ms c n, q.1 ≤ i ∧ j ≤ q.2 := by
  induction ms generalizing c with
  | nil => exact ⟨(c, n), List.mem_singleton.mpr rfl, hc, hj⟩
  | cons m ms ih =>
      obtain ⟨hm, hms⟩ := List.forall_mem_cons.mp hclear
      rcases hm with hm | hm
      · obtain ⟨q, hq, hle⟩ := ih h.2.2 hm hms
        exact ⟨q, List.mem_cons_of_mem _ hq, hle⟩
      · exact ⟨(c, m.start), List.mem_cons_self, hc, hm⟩

/-- Where the scan arrives in a piece it finds nothing, or a card that is kept. -/
theorem Piece.found (P : Piece U luhn t a b) (hcut : Cut (scanner U t) 0 i i) (hai : a ≤ i) (hib : i < b)
    (hm : (scanner U t).matchAt i = some m) :
    m ∈ finditer U t ∧ isReal U luhn t m = false ∧ m.name = .card ∧ m.stop ≤ b := by
  have hmem := hcut.mem hm
  have hstart := (scanner U t).start_eq hm
  have hlt := (scanner U t).lt_stop hm
  have hfake : isReal U luhn t m = false := by
    rw [← Bool.not_eq_true]
    intro hreal
    rcases P.clear m (mem_redactions.mpr ⟨hmem, hreal⟩) with h | h
    · omega
    · omega
  refine ⟨hmem, hfake, card_of_not_real hfake, ?_⟩
  rcases P.closes with hb | ⟨r, hr, hb⟩
  · exact hb ▸ (scanner U t).stop_le hm
  · have hr' := mem_redactions.mp hr
    have hlen := (scanner U t).lt_stop (matchAt_of_mem 0 r hr'.1)
    rcases (chained_finditer U t).disjoint hmem hr'.1 with rfl | h | h
    · omega
    · omega
    · omega

theorem digit_first (hkind : kind ≠ .email) (hj : j ∈ (bare U kind).ends t i) : t[i]?.any U.isDecimal := by
  have hrun {lo : Nat} {r : Regex CodePoint} (h : j ∈ (Regex.seq (.rep (.cls U.isDecimal) (lo + 1) 0) r).ends t i) :
      t[i]?.any U.isDecimal := by
    obtain ⟨p, hp, -⟩ := List.mem_flatMap.mp h
    have hbounds := (ends_bounds _ _ _ _ hp).1
    simp only [minWidth] at hbounds
    exact ends_consumes _ _ _ _ hp i (Nat.le_refl i) (by omega)
  cases kind with
  | email => exact absurd rfl hkind
  | card => exact hrun hj
  | ssn => exact hrun hj

/-- No number begins where a redaction ends after a digit. -/
theorem behind_redaction (hr : m ∈ redactions U luhn t) (hfirst : t[m.stop]?.any U.isDecimal) :
    (behind t m.stop).any U.isDecimal = false := by
  have hmatch := matchAt_of_mem 0 m (mem_redactions.mp hr).1
  have hend := List.mem_of_mem_head? (matchAt_some hmatch).2
  cases hname : m.name with
  | email =>
      rw [hname] at hend
      obtain ⟨-, hbody⟩ := mem_guarded hend
      obtain ⟨a, -, -, -, -, hdomain⟩ := exists_delimiter hbody
      rw [← Bool.not_eq_true]
      intro hdecimal
      cases hc : behind t m.stop with
      | none => rw [hc] at hdecimal; exact absurd hdecimal (by simp)
      | some d =>
          have hletter := letter_of_emailDomain hdomain
          rw [hc, Option.any_some] at hletter hdecimal
          have hnumber := not_numberChar_letter (U := U) hletter
          rw [numberChar, hdecimal] at hnumber
          exact absurd hnumber (by simp)
  | card | ssn =>
      rw [hname] at hend
      have hafter := (mem_alternative.mp hend).2.2
      rw [rejectedAfter, hfirst] at hafter
      exact absurd hafter (by simp)

/-- A piece has the numbers of the text, as far as they end in it. -/
theorem Piece.number_iff (P : Piece U luhn t a b) (hkind : kind ≠ .email) :
    e ∈ (alternative U kind).ends (slice t a b) k ↔ a + e ∈ (alternative U kind).ends t (a + k) ∧ a + e ≤ b := by
  rw [mem_alternative_slice P.le P.stop_le, mem_alternative]
  have hbefore : rejectedBefore U kind = U.isDecimal := by
    cases kind with
    | email => exact absurd rfl hkind
    | card | ssn => rfl
  constructor
  · rintro ⟨h1, h2, he, h3⟩
    refine ⟨⟨?_, h2, ?_⟩, he⟩
    · rcases h1 with rfl | h1
      · rcases P.opens with ha | ⟨r, hr, ha⟩
        · rw [ha]
          rfl
        · rw [hbefore, Nat.add_zero, ← ha]
          apply behind_redaction hr
          rw [ha]
          exact digit_first hkind h2
      · exact h1
    · rcases h3 with h3 | h3
      · rcases P.closes with hb | ⟨r, hr, hb⟩
        · rw [List.getElem?_eq_none (by omega)]
          rfl
        · have hmatch := matchAt_of_mem 0 r (mem_redactions.mp hr).1
          have hfree := (mem_alternative.mp (List.mem_of_mem_head? (matchAt_some hmatch).2)).1
          have hdigit := digit_of_number hkind h2
          rw [h3, ← hb] at hdigit
          rw [any_mono (fun _ => rejectedBefore_of_isDecimal) hdigit] at hfree
          exact absurd hfree (by simp)
      · exact h3
  · rintro ⟨⟨h1, h2, h3⟩, he⟩
    exact ⟨Or.inr h1, h2, he, Or.inr h3⟩

/-- The scan of a piece finds what the scan of the text finds there, unless it
finds an email. -/
theorem Piece.scan (P : Piece U luhn t a b) (k : Nat) (hcut : Cut (scanner U t) 0 (a + k) (a + k)) :
    (∀ m ∈ (scanner U (slice t a b)).spansFrom k,
        m.shift a ∈ finditer U t ∧ isReal U luhn t (m.shift a) = false) ∨
      ∃ m ∈ (scanner U (slice t a b)).spansFrom k, m.name = .email ∧
        ∀ m' ∈ finditer U t, ¬ (m'.start < a + m.start ∧ a + m.start < m'.stop) := by
  have hsize : (scanner U (slice t a b)).size = b - a := slice_length P.stop_le
  -- A card that the text has here ends in the piece, so that the piece has it too.
  have hcard {k : Nat} {m' : Match} (hcut : Cut (scanner U t) 0 (a + k) (a + k)) (hk : k < b - a)
      (hm' : (scanner U t).matchAt (a + k) = some m') : m' ∈ finditer U t ∧ isReal U luhn t m' = false ∧
        m'.name = .card ∧ a + k < m'.stop ∧ m'.stop - a ∈ (alternative U .card).ends (slice t a b) k := by
    obtain ⟨hmem, hfake, hname, hstop⟩ := P.found hcut (Nat.le_add_right a k) (by omega) hm'
    have hlt := (scanner U t).lt_stop hm'
    refine ⟨hmem, hfake, hname, hlt, (P.number_iff (by decide)).mpr ?_⟩
    rw [Nat.add_sub_cancel' (show a ≤ m'.stop by omega)]
    exact ⟨hname ▸ List.mem_of_mem_head? (matchAt_some hm').2, hstop⟩
  induction k using scanInduction (S := scanner U (slice t a b)) with
  | past k hk =>
      rw [spansFrom_ge hk]
      exact Or.inl fun m hm => absurd hm List.not_mem_nil
  | skip k hk hm ih =>
      have hnone : (scanner U t).matchAt (a + k) = none := by
        cases hm' : (scanner U t).matchAt (a + k) with
        | none => rfl
        | some m' =>
            obtain ⟨-, -, -, -, hend⟩ := hcard hcut (hsize ▸ hk) hm'
            obtain ⟨m, hsome⟩ := exists_firstMatch (mem_pattern .card) hend
            exact absurd (hm.symm.trans hsome) (by simp)
      rw [spansFrom_none hm]
      exact ih (hcut.skip hnone)
  | hit k m hm ih =>
      have hstart := (scanner U (slice t a b)).start_eq hm
      have hlt := (scanner U (slice t a b)).lt_stop hm
      have hle := (scanner U (slice t a b)).stop_le hm
      rw [spansFrom_some hm]
      by_cases hname : m.name = .email
      · exact Or.inr ⟨m, List.mem_cons_self, hname, hstart ▸ hcut.not_inside⟩
      · have hhead := (matchAt_some hm).2
        obtain ⟨hend, -⟩ := (P.number_iff hname).mp (List.mem_of_mem_head? hhead)
        obtain ⟨m', hm'⟩ := exists_firstMatch (mem_pattern m.name) hend
        obtain ⟨hmem, hfake, hcard', hlt', hend'⟩ := hcard hcut (by omega) hm'
        have hsame : m.name = .card := by
          cases hkind : m.name with
          | email => exact absurd hkind hname
          | card => rfl
          | ssn => exact (not_card_and_ssn hend' (hkind ▸ List.mem_of_mem_head? hhead)).elim
        have hstop : a + m.stop = m'.stop := by
          have h1 := (descending_alternative .card (slice t a b) k).le_head (hsame ▸ hhead) _ hend'
          have h2 := (descending_alternative .card t (a + k)).le_head (hcard' ▸ (matchAt_some hm').2) _ (hsame ▸ hend)
          omega
        have hshift : m.shift a = m' := by
          have hstart' := (scanner U t).start_eq hm'
          obtain ⟨name, start, stop⟩ := m'
          simp only at hcard' hstart' hstop
          rw [Span.shift, hsame, hstart, hstop, hcard', hstart']
        rcases ih (hstop ▸ hcut.hit hm') with hall | ⟨m₁, hm₁, hrest⟩
        · exact Or.inl (List.forall_mem_cons.mpr ⟨hshift ▸ ⟨hmem, hfake⟩, hall⟩)
        · exact Or.inr ⟨m₁, List.mem_cons_of_mem m hm₁, hrest⟩

end Pieces

section Clean

/-- An email that a redaction next to it uncovers: t[i:j] is a word of the
alternative, a redaction takes the place of a character that its lookarounds
reject, and no match that is kept takes its first character. -/
structure Exposed (U : Unicode) (luhn : Bool) (t : Text) (i j : Nat) : Prop where
  lt : i < j
  le : j ≤ t.length
  spells : Spells (bare U .email) (slice t i j)
  before : (behind t i).any (rejectedBefore U .email) = false ∨ ∃ m ∈ redactions U luhn t, m.stop = i
  after : t[j]?.any (rejectedAfter U .email) = false ∨ ∃ m ∈ redactions U luhn t, m.start = j
  touches : ∃ m ∈ redactions U luhn t, m.stop = i ∨ m.start = j
  kept : ∀ m ∈ redactions U luhn t, m.stop ≤ i ∨ j ≤ m.start
  free : ∀ m ∈ finditer U t, ¬ (m.start < i ∧ i < m.stop)

theorem isReal_email (h : m.name = .email) : isReal U luhn t m := by
  rw [isReal, h]
  simp

theorem exists_email (h : j ∈ (alternative U .email).ends t i) :
    ∃ m, (scanner U t).matchAt i = some m ∧ m.name = .email := by
  obtain ⟨e, he⟩ : ∃ e, ((email U).ends t i).head? = some e :=
    Option.isSome_iff_exists.mp (List.isSome_head?.mpr (List.ne_nil_of_mem h))
  exact ⟨⟨.email, i, e⟩, by rw [matchAt_eq, he]; rfl, rfl⟩

/-- The scan finds every email that begins in no other match. -/
theorem email_found (h : j ∈ (alternative U .email).ends t i) (hfree : ∀ m ∈ finditer U t, ¬ (m.start < i ∧ i < m.stop)) :
    ∃ m ∈ finditer U t, m.name = .email ∧ m.start = i := by
  obtain ⟨m, hm, hname⟩ := exists_email h
  obtain ⟨m', hm', hstart, hstop⟩ := exists_span (S := scanner U t) hm (Nat.zero_le i)
  have heq : m'.start = i := by
    have := hfree m' hm'
    omega
  have hmatch := matchAt_of_mem 0 m' hm'
  rw [heq, hm] at hmatch
  exact ⟨m', hm', Option.some.inj hmatch ▸ hname, heq⟩

theorem Piece.cut (P : Piece U luhn t a b) : Cut (scanner U t) 0 a a := by
  rcases P.opens with rfl | ⟨m, hm, rfl⟩
  · exact Cut.here 0
  · exact cut_of_mem (mem_redactions.mp hm).1

theorem Piece.isReal_shift (P : Piece U luhn t a b) (hm : m ∈ finditer U (slice t a b)) :
    isReal U luhn t (m.shift a) = isReal U luhn (slice t a b) m := by
  rw [Redactor.isReal_shift, ← slice_append_drop P.le]
  exact isReal_prefix ((chained_finditer U _).stop_le m hm)

/-- An email in a piece is exposed. -/
theorem Piece.exposed (P : Piece U luhn t a b) (hm : m ∈ finditer U (slice t a b)) (hname : m.name = .email)
    (hfree : ∀ m' ∈ finditer U t, ¬ (m'.start < a + m.start ∧ a + m.start < m'.stop)) :
    Exposed U luhn t (a + m.start) (a + m.stop) := by
  have hend := List.mem_of_mem_head? (matchAt_some (matchAt_of_mem 0 m hm)).2
  rw [hname] at hend
  obtain ⟨hbefore, hbare, hle, hafter⟩ := (mem_alternative_slice P.le P.stop_le).mp hend
  obtain ⟨hlt, hlength⟩ := bare_bounds hbare
  have hkept : ∀ r ∈ redactions U luhn t, r.stop ≤ a + m.start ∨ a + m.stop ≤ r.start := by
    intro r hr
    have := P.clear r hr
    omega
  have hopens : (behind t (a + m.start)).any (rejectedBefore U .email) = false ∨
      ∃ r ∈ redactions U luhn t, r.stop = a + m.start := by
    rcases hbefore with hzero | hbefore
    · rw [hzero, Nat.add_zero]
      rcases P.opens with rfl | hr
      · exact Or.inl rfl
      · exact Or.inr hr
    · exact Or.inl hbefore
  have hcloses : t[a + m.stop]?.any (rejectedAfter U .email) = false ∨
      ∃ r ∈ redactions U luhn t, r.start = a + m.stop := by
    rcases hafter with heq | hafter
    · rw [heq]
      rcases P.closes with rfl | hr
      · exact Or.inl (by rw [List.getElem?_eq_none (Nat.le_refl _)]; rfl)
      · exact Or.inr hr
    · exact Or.inl hafter
  refine ⟨hlt, hlength, spells_of_ends _ _ _ _ hbare, hopens, hcloses, ?_, hkept, hfree⟩
  rcases hopens with hopens | ⟨r, hr, heq⟩
  · rcases hcloses with hcloses | ⟨r, hr, heq⟩
    · obtain ⟨r, hr, hemail, hstart⟩ := email_found (mem_alternative.mpr ⟨hopens, hbare, hcloses⟩) hfree
      have hlong := (scanner U t).lt_stop (matchAt_of_mem 0 r hr)
      rcases hkept r (mem_redactions.mpr ⟨hr, isReal_email hemail⟩) with h | h
      · omega
      · omega
    · exact ⟨r, hr, Or.inr heq⟩
  · exact ⟨r, hr, Or.inl heq⟩

/-- An exposed email is an email of the piece. -/
theorem Piece.mem_ends (P : Piece U luhn t a b) (h : Exposed U luhn t (a + k) (a + e)) (he : a + e ≤ b) :
    e ∈ (alternative U .email).ends (slice t a b) k := by
  have hlt := h.lt
  rw [mem_alternative_slice P.le P.stop_le]
  refine ⟨?_, (mem_ends_iff (bare_lookFree _) (Nat.le_of_lt hlt) h.le).mpr h.spells, he, ?_⟩
  · rcases h.before with hbefore | ⟨r, hr, heq⟩
    · exact Or.inr hbefore
    · have hlong := (scanner U t).lt_stop (matchAt_of_mem 0 r (mem_redactions.mp hr).1)
      have := P.clear r hr
      exact Or.inl (by omega)
  · rcases h.after with hafter | ⟨r, hr, heq⟩
    · exact Or.inr hafter
    · have hlong := (scanner U t).lt_stop (matchAt_of_mem 0 r (mem_redactions.mp hr).1)
      have := P.clear r hr
      exact Or.inl (by omega)

theorem Piece.spotless_iff (P : Piece U luhn t a b) :
    Spotless U luhn (slice t a b) ↔ ∀ k e, a + e ≤ b → ¬ Exposed U luhn t (a + k) (a + e) := by
  have hscan := P.scan 0 P.cut
  constructor
  · intro hspotless k e he h
    have hfree : ∀ m ∈ finditer U (slice t a b), ¬ (m.start < k ∧ k < m.stop) := by
      rcases hscan with hall | ⟨m, hm, hname, -⟩
      · intro m hm hinside
        refine h.free (m.shift a) (hall m hm).1 ?_
        rw [Span.shift_start, Span.shift_stop]
        omega
      · have hfake := hspotless m hm
        rw [isReal_email hname] at hfake
        exact absurd hfake (by simp)
    obtain ⟨m, hm, hname, -⟩ := email_found (P.mem_ends h he) hfree
    have hfake := hspotless m hm
    rw [isReal_email hname] at hfake
    exact absurd hfake (by simp)
  · intro h
    rcases hscan with hall | ⟨m, hm, hname, hfree⟩
    · intro m hm
      rw [← P.isReal_shift hm]
      exact (hall m hm).2
    · have hexposed := P.exposed hm hname hfree
      have hle := (chained_finditer U (slice t a b)).stop_le m hm
      rw [slice_length P.stop_le] at hle
      have := P.le
      exact absurd hexposed (h m.start m.stop (by omega))

/-- A second pass over the text finds nothing and changes nothing. -/
def Clean (U : Unicode) (luhn : Bool) (t : Text) : Prop := Spotless U luhn t ∧ (substitute U luhn t).1 = t

theorem substitute_of_spotless (h : Spotless U luhn t) : (substitute U luhn t).1 = t := by
  have hnone : redactions U luhn t = [] := List.filter_eq_nil_iff.mpr fun m hm => by simp [h m hm]
  rw [substitute_redactions, hnone, replaced, slice_length_self, List.drop_zero]

/-- The redacted text is clean exactly when no redaction exposes an email. -/
theorem clean_iff (U : Unicode) (luhn : Bool) (t : Text) :
    Clean U luhn (substitute U luhn t).1 ↔ ∀ i j, ¬ Exposed U luhn t i j := by
  have hspotless : Spotless U luhn (substitute U luhn t).1 ↔
      ∀ q ∈ kept (redactions U luhn t) 0 t.length, Spotless U luhn (slice t q.1 q.2) := by
    rw [substitute_redactions]
    exact spotless_replaced _ 0 t.length
  have hclean : Clean U luhn (substitute U luhn t).1 ↔ Spotless U luhn (substitute U luhn t).1 :=
    ⟨fun h => h.1, fun h => ⟨h, substitute_of_spotless h⟩⟩
  rw [hclean, hspotless]
  constructor
  · intro h i j hexposed
    obtain ⟨q, hq, hi, hj⟩ := exists_kept (chained_redactions U luhn t) (Nat.zero_le i) hexposed.le hexposed.kept
    have hlt := hexposed.lt
    obtain ⟨k, rfl⟩ := Nat.exists_eq_add_of_le hi
    obtain ⟨e, rfl⟩ := Nat.exists_eq_add_of_le (show q.1 ≤ j by omega)
    exact (piece_of_kept hq).spotless_iff.mp (h q hq) k e hj hexposed
  · intro h q hq
    exact (piece_of_kept hq).spotless_iff.mpr fun k e _ => h _ _

/-- An email whose first characters are the end of a social security number. -/
def gluedEmail : Text := str "123 45 6789x@y.zz"

/-- What is left of the email is an email of its own. -/
theorem gluedEmail_exposed : Occurrence .ascii false gluedEmail .email 7 17 ∧
    (substitute .ascii false gluedEmail).1 = str "[REDACTED]x@y.zz" ∧
    (substitute .ascii false (str "[REDACTED]x@y.zz")).1 = str "[REDACTED][REDACTED]" ∧
    ¬ Clean .ascii false (substitute .ascii false gluedEmail).1 := by
  have hfirst : (substitute .ascii false gluedEmail).1 = str "[REDACTED]x@y.zz" := by decide +kernel
  have hsecond : (substitute .ascii false (str "[REDACTED]x@y.zz")).1 = str "[REDACTED][REDACTED]" := by decide +kernel
  refine ⟨occurrence_iff.mpr ⟨by decide +kernel, by decide +kernel⟩, hfirst, hsecond, ?_⟩
  rintro ⟨-, hsame⟩
  rw [hfirst, hsecond] at hsame
  exact absurd hsame (by decide)

end Clean

end LlmGateway.Redactor
