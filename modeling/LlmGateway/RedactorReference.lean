import LlmGateway.RedactorAlternatives

namespace LlmGateway.Redactor

open Scanner Regex

variable {U : Unicode} {luhn : Bool} {t : Text} {c e g i k lo n : Nat} {ms pre : List Match}

/-- What a pass over these matches makes of the text between two positions. -/
def segment (U : Unicode) (luhn : Bool) (t : Text) : List Match → Nat → Nat → Text
  | [], cursor, stop => slice t cursor stop
  | m :: ms, cursor, stop =>
    if isReal U luhn t m then slice t cursor m.start ++ redacted ++ segment U luhn t ms m.stop stop
    else segment U luhn t ms cursor stop

/-- The rest of the pass from a position on. -/
def remainder (U : Unicode) (luhn : Bool) (t : Text) (i : Nat) : Text :=
  segment U luhn t ((scanner U t).spansFrom i) i t.length

/-- Matches one after another between two positions. -/
def Chained (stop : Nat) : Nat → List Match → Prop
  | lo, [] => lo ≤ stop
  | lo, m :: ms => lo ≤ m.start ∧ m.start < m.stop ∧ Chained stop m.stop ms

section Segment

theorem slice_length_self (t : Text) (i : Nat) : slice t i t.length = t.drop i := by
  rw [slice, List.take_length]

theorem substituteLoop_eq (ms : List Match) (cursor : Nat) :
    (substituteLoop U luhn t ms cursor).1 = segment U luhn t ms cursor t.length := by
  induction ms generalizing cursor with
  | nil => exact (slice_length_self t cursor).symm
  | cons m ms ih =>
      simp only [substituteLoop, segment]
      split
      · simp only [ih]
      · exact ih cursor

theorem substitute_eq : (substitute U luhn t).1 = remainder U luhn t 0 := substituteLoop_eq _ 0

theorem isReal_false (m : Match) : isReal U false t m = true := rfl

theorem segment_advance (hms : ∀ m ∈ ms, g ≤ m.start) (hlo : lo ≤ g) (hg : g ≤ n) :
    segment U luhn t ms lo n = slice t lo g ++ segment U luhn t ms g n := by
  induction ms with
  | nil => rw [segment, segment, slice_append hlo hg]
  | cons m ms ih =>
      have hm := hms m List.mem_cons_self
      rw [segment, segment]
      split
      · rw [← slice_append hlo hm]
        simp only [List.append_assoc]
      · exact ih fun m' h => hms m' (List.mem_cons_of_mem m h)

theorem segment_append (hpre : ∀ m ∈ pre, m.stop ≤ c) (hms : ∀ m ∈ ms, c ≤ m.start) (hlo : lo ≤ c) (hc : c ≤ n) :
    segment U luhn t (pre ++ ms) lo n = segment U luhn t pre lo c ++ segment U luhn t ms c n := by
  induction pre generalizing lo with
  | nil => exact segment_advance hms hlo hc
  | cons m pre ih =>
      obtain ⟨hm, hpre⟩ := List.forall_mem_cons.mp hpre
      rw [List.cons_append, segment, segment]
      split
      · rw [ih hpre hm]
        simp only [List.append_assoc]
      · exact ih hpre hlo

theorem Chained.le {stop : Nat} (h : Chained stop lo ms) : lo ≤ stop := by
  induction ms generalizing lo with
  | nil => exact h
  | cons m ms ih =>
      have := ih h.2.2
      have h1 := h.1
      have h2 := h.2.1
      omega

theorem Chained.start_ge {stop : Nat} (h : Chained stop lo ms) : ∀ m ∈ ms, lo ≤ m.start := by
  induction ms generalizing lo with
  | nil => exact fun m hm => absurd hm List.not_mem_nil
  | cons m ms ih =>
      refine List.forall_mem_cons.mpr ⟨h.1, fun m' hm' => ?_⟩
      have := ih h.2.2 m' hm'
      have h1 := h.1
      have h2 := h.2.1
      omega

theorem Chained.stop_le {stop : Nat} (h : Chained stop lo ms) : ∀ m ∈ ms, m.stop ≤ stop := by
  induction ms generalizing lo with
  | nil => exact fun m hm => absurd hm List.not_mem_nil
  | cons m ms ih => exact List.forall_mem_cons.mpr ⟨h.2.2.le, ih h.2.2⟩

theorem Chained.disjoint {stop : Nat} (h : Chained stop lo ms) {m m' : Match} (hm : m ∈ ms) (hm' : m' ∈ ms) :
    m = m' ∨ m.stop ≤ m'.start ∨ m'.stop ≤ m.start := by
  induction ms generalizing lo with
  | nil => exact absurd hm List.not_mem_nil
  | cons n ms ih =>
      have hge := h.2.2.start_ge
      rcases List.mem_cons.mp hm with rfl | hmem
      · rcases List.mem_cons.mp hm' with rfl | hmem'
        · exact Or.inl rfl
        · exact Or.inr (Or.inl (hge m' hmem'))
      · rcases List.mem_cons.mp hm' with rfl | hmem'
        · exact Or.inr (Or.inr (hge m hmem))
        · exact ih h.2.2 hmem hmem'

theorem Chained.weaken {stop : Nat} (h : Chained stop lo ms) (hi : i ≤ lo) : Chained stop i ms := by
  cases ms with
  | nil => exact Nat.le_trans hi h
  | cons m ms => exact ⟨Nat.le_trans hi h.1, h.2⟩

theorem Chained.filter {stop : Nat} (h : Chained stop lo ms) (p : Match → Bool) : Chained stop lo (ms.filter p) := by
  induction ms generalizing lo with
  | nil => exact h
  | cons m ms ih =>
      have hms := ih h.2.2
      rw [List.filter_cons]
      split
      · exact ⟨h.1, h.2.1, hms⟩
      · exact hms.weaken (Nat.le_trans h.1 (Nat.le_of_lt h.2.1))

theorem chained_spansFrom (hi : i ≤ t.length) : Chained t.length i ((scanner U t).spansFrom i) := by
  induction i using scanInduction (S := scanner U t) with
  | past i hs => rw [spansFrom_ge hs]; exact hi
  | skip i hlt h ih =>
      have hc := ih hlt
      rw [spansFrom_none h]
      revert hc
      cases (scanner U t).spansFrom (i + 1) with
      | nil => exact fun _ => hi
      | cons m ms => exact fun hc => ⟨Nat.le_of_succ_le hc.1, hc.2⟩
  | hit i m h ih =>
      rw [spansFrom_some h]
      exact ⟨Nat.le_of_eq ((scanner U t).start_eq h).symm, (scanner U t).start_eq h ▸ (scanner U t).lt_stop h,
        ih ((scanner U t).stop_le h)⟩

theorem Chained.prefix {stop : Nat} (h : Chained stop lo (pre ++ ms)) (hpre : ∀ m ∈ pre, m.stop ≤ c) (hlo : lo ≤ c) :
    Chained c lo pre := by
  induction pre generalizing lo with
  | nil => exact hlo
  | cons m pre ih =>
      obtain ⟨hm, hpre⟩ := List.forall_mem_cons.mp hpre
      exact ⟨h.1, h.2.1, ih h.2.2 hpre hm⟩

theorem remainder_of_cut (hcut : Cut (scanner U t) i c c) (hc : c ≤ t.length) :
    ∃ pre, (scanner U t).spansFrom i = pre ++ (scanner U t).spansFrom c ∧ Chained c i pre ∧
      ∀ luhn, remainder U luhn t i = segment U luhn t pre i c ++ remainder U luhn t c := by
  obtain ⟨pre, hpre, hstop⟩ := hcut.reaches
  have hi := hcut.ge
  refine ⟨pre, hpre, ?_, fun luhn => ?_⟩
  · have h := chained_spansFrom (U := U) (t := t) (i := i) (by omega)
    rw [hpre] at h
    exact h.prefix hstop hi
  · rw [remainder, hpre]
    exact segment_append hstop (spansFrom_start_ge c) hi hc

theorem remainder_some {m : Match} (h : (scanner U t).matchAt i = some m) (hr : isReal U luhn t m) :
    remainder U luhn t i = redacted ++ remainder U luhn t m.stop := by
  rw [remainder, spansFrom_some h, segment, if_pos hr, (scanner U t).start_eq h, slice_self, List.nil_append]
  rfl

theorem getElem?_segment (hms : ∀ m ∈ ms, lo < m.start) (hlo : lo < n) (hn : n ≤ t.length) :
    (segment U luhn t ms lo n)[0]? = t[lo]? := by
  have hlen : (slice t lo (lo + 1)).length = 1 := by
    rw [slice_length (by omega)]
    omega
  rw [segment_advance (g := lo + 1) hms (Nat.le_succ lo) hlo, List.getElem?_append_left (by omega),
    getElem?_slice (by omega), Nat.add_zero]

theorem redacted_append_getElem? (x : Text) : (redacted ++ x)[0]? = some (chr '[') := rfl

end Segment

section Compare

/-- Equal outputs agree on every match: a redaction begins with a bracket and
no match does. -/
theorem segment_cancel {X Y : Text} (hch : Chained c lo ms) (hc : c ≤ t.length)
    (hne : ∀ m ∈ ms, t[m.start]? ≠ some (chr '['))
    (h : segment U false t ms lo c ++ X = segment U luhn t ms lo c ++ Y) :
    (∀ m ∈ ms, isReal U luhn t m) ∧ X = Y := by
  induction ms generalizing lo with
  | nil => exact ⟨fun m hm => absurd hm List.not_mem_nil, List.append_cancel_left h⟩
  | cons m ms ih =>
      obtain ⟨h1, h2, h3⟩ := hch
      have hle := h3.le
      have hms : ∀ m' ∈ ms, m.stop ≤ m'.start := h3.start_ge
      rw [segment, if_pos (isReal_false m), segment] at h
      split at h
      · next hr =>
          simp only [List.append_assoc] at h
          obtain ⟨hall, hxy⟩ := ih h3 (fun m' hm' => hne m' (List.mem_cons_of_mem m hm'))
            (List.append_cancel_left (List.append_cancel_left h))
          exact ⟨List.forall_mem_cons.mpr ⟨hr, hall⟩, hxy⟩
      · rw [segment_advance (g := m.start) (fun m' hm' => by have := hms m' hm'; omega) h1 (by omega)] at h
        simp only [List.append_assoc] at h
        have hhead := congrArg (fun x : Text => x[0]?) (List.append_cancel_left h)
        simp only [redacted_append_getElem?] at hhead
        have hne0 : 0 < (segment U luhn t ms m.start c).length := by
          rw [segment_advance (g := m.start + 1) (fun m' hm' => by have := hms m' hm'; omega) (by omega) (by omega),
            List.length_append, slice_length (by omega)]
          omega
        rw [List.getElem?_append_left hne0,
          getElem?_segment (fun m' hm' => by have := hms m' hm'; omega) (by omega) hc] at hhead
        exact absurd hhead.symm (hne m List.mem_cons_self)

theorem segment_congr (h : ∀ m ∈ ms, isReal U luhn t m) (lo n : Nat) :
    segment U false t ms lo n = segment U luhn t ms lo n := by
  induction ms generalizing lo with
  | nil => rfl
  | cons m ms ih =>
      obtain ⟨hm, hms⟩ := List.forall_mem_cons.mp h
      rw [segment, segment, if_pos (isReal_false m), if_pos hm, ih hms]

theorem length_segment_le (hch : Chained c lo ms) (hc : c ≤ t.length)
    (hw : ∀ m ∈ ms, isReal U luhn t m = false → m.start + 10 ≤ m.stop) :
    (segment U false t ms lo c).length ≤ (segment U luhn t ms lo c).length := by
  induction ms generalizing lo with
  | nil => exact Nat.le_refl _
  | cons m ms ih =>
      obtain ⟨h1, h2, h3⟩ := hch
      obtain ⟨hm, hms⟩ := List.forall_mem_cons.mp hw
      have hih := ih h3 hms
      have hle := h3.le
      have hten : redacted.length = 10 := rfl
      rw [segment, if_pos (isReal_false m), segment]
      split
      · simp only [List.length_append]
        omega
      · next hr =>
          have hlong := hm (by simpa using hr)
          have hadvance : segment U luhn t ms lo c = slice t lo m.stop ++ segment U luhn t ms m.stop c :=
            segment_advance h3.start_ge (by omega) hle
          rw [hadvance]
          simp only [List.length_append, hten]
          rw [slice_length (by omega), slice_length (by omega)]
          omega

theorem length_segment_pos (hch : Chained c lo ms) (hlo : lo < c) (hc : c ≤ t.length) :
    0 < (segment U luhn t ms lo c).length := by
  induction ms with
  | nil =>
      rw [segment, slice_length hc]
      omega
  | cons m ms ih =>
      rw [segment]
      split
      · simp only [List.length_append, show redacted.length = 10 from rfl]
        omega
      · refine ih ?_
        obtain ⟨h1, h2, h3⟩ := hch
        cases ms with
        | nil => exact Nat.le_of_lt hlo
        | cons m' ms =>
            have h4 := h3.1
            exact ⟨by omega, h3.2⟩

end Compare

section Unfresh

theorem card_of_not_real {m : Match} (h : isReal U luhn t m = false) : m.name = .card := by
  rw [isReal] at h
  split at h
  · exact absurd h (by simp)
  · next hn => simp only [Bool.or_eq_true, bne_iff_ne, not_or, not_not] at hn; exact hn.2

theorem long_of_not_real {m : Match} (hm : (scanner U t).matchAt m.start = some m)
    (h : isReal U luhn t m = false) : m.start + 10 ≤ m.stop := by
  have hname := card_of_not_real h
  obtain ⟨-, ⟨hn, -⟩ | ⟨-, hs⟩ | ⟨hn, -⟩⟩ := matchAt_cases hm
  · rw [hname] at hn; cases hn
  · have hb := ends_bounds (cardBody U) t _ _ (List.mem_of_mem_head? hs)
    have hw : (cardBody U).minWidth = 13 := rfl
    omega
  · rw [hname] at hn; cases hn

theorem length_remainder_le (hc : c ≤ t.length) :
    (remainder U false t c).length ≤ (remainder U luhn t c).length :=
  length_segment_le (chained_spansFrom hc) (Nat.le_refl _) fun m hm hr => long_of_not_real (matchAt_of_mem c m hm) hr

theorem emailBody_spec (h : (emailBody.ends t c).head? = some e) : ∃ a, c < a ∧ a < e ∧
    (∀ k, c ≤ k → k < a → t[k]?.any localChar) ∧ t[a]? = some (chr '@') ∧
    (emailDomain.ends t (a + 1)).head? = some e := by
  obtain ⟨a, h1, h2, hrun, hat, he⟩ := exists_delimiter (List.mem_of_mem_head? h)
  have hends := ends_delimited (s := emailDomain) (fun _ => not_localChar_at) hrun hat h1 h2
  have hb := ends_bounds emailDomain t _ _ he
  refine ⟨a, by omega, by omega, hrun, ?_, by rw [← hends]; exact h⟩
  cases hta : t[a]? with
  | none => rw [hta] at hat; exact absurd hat (by simp)
  | some d =>
      rw [hta, Option.any_some, beq_iff_eq] at hat
      rw [hat]

section Email

variable {a : Nat} (hrun : ∀ k, c ≤ k → k < a → t[k]?.any localChar) (hat : t[a]? = some (chr '@'))
  (hdomain : (emailDomain.ends t (a + 1)).head? = some e)
include hrun hat hdomain

theorem le_of_email {kind : Kind} {j : Nat} (hj : j ∈ (alternative U kind).ends t i) (hc : c ≤ i) (hi : i < e) :
    j ≤ e := by
  by_contra hlt
  have hletter := letter_of_emailDomain (List.mem_of_mem_head? hdomain)
  obtain ⟨e, rfl⟩ : ∃ e', e = e' + 1 := ⟨e - 1, by omega⟩
  rw [behind] at hletter
  have hnum {r : Regex CodePoint} (hr : r = cardBody U ∨ r = ssnBody U) (hs : j ∈ r.ends t i) : False := by
    have h := numberChar_of_ends hr hs (show i ≤ e by omega) (by omega)
    cases hte : t[e]? with
    | none => rw [hte] at h; exact absurd h (by simp)
    | some d =>
        rw [hte, Option.any_some] at h hletter
        rw [not_numberChar_letter hletter] at h
        exact absurd h (by simp)
  obtain ⟨hb, hj⟩ := mem_guarded hj
  cases kind with
  | card => exact hnum (Or.inl rfl) hj
  | ssn => exact hnum (Or.inr rfl) hj
  | email =>
      have hia : i ≤ a := by
        by_contra hai
        obtain ⟨k, rfl⟩ : ∃ k, i = k + 1 := ⟨i - 1, by omega⟩
        rw [behind] at hb
        rcases Nat.eq_or_lt_of_le (show a ≤ k by omega) with rfl | hak
        · rw [hat] at hb
          exact absurd hb (by simp [rejectedBefore, emailBehind, show among ['.', '@', '+', '-'] (chr '@') = true by decide])
        · have h := any_mono (fun _ => emailBehind_of_domainChar (U := U))
            (domainChar_of_ends (List.mem_of_mem_head? hdomain) (Nat.succ_le_of_lt hak) (show k < e + 1 by omega))
          rw [rejectedBefore, h] at hb
          exact absurd hb (by simp)
      obtain ⟨a', h1, -, hrun', hat', hdomain'⟩ := exists_delimiter hj
      have haa : a' = a := by
        rcases Nat.lt_trichotomy a' a with hlt' | heq | hgt
        · have h := hrun a' (by omega) hlt'
          cases hta : t[a']? with
          | none => rw [hta] at h; exact absurd h (by simp)
          | some d =>
              rw [hta, Option.any_some] at h hat'
              rw [not_localChar_at h] at hat'
              exact absurd hat' (by simp)
        · exact heq
        · have h := hrun' a (by omega) hgt
          rw [hat] at h
          exact absurd h (by decide)
      rw [haa] at hdomain'
      exact hlt ((descending_emailDomain t (a + 1)).le_head hdomain j hdomain')

/-- No match that starts inside an email ends beyond it. -/
theorem stop_le_of_email {m : Match} (hm : (scanner U t).matchAt i = some m) (hc : c < i) (hi : i < e) :
    m.stop ≤ e :=
  le_of_email hrun hat hdomain (List.mem_of_mem_head? (matchAt_some hm).2) (Nat.le_of_lt hc) hi

end Email

/-- Digits in front of an email end in it, and what is left of it is not
swallowed by the next match. -/
theorem length_remainder_lt {m : Match} (he : (emailBody.ends t c).head? = some e)
    (hm : (scanner U t).matchAt c = some m) (hname : m.name ≠ .email) :
    (remainder U false t e).length < (remainder U luhn t m.stop).length := by
  obtain ⟨a, hca, hae, hrun, hat, hdomain⟩ := emailBody_spec he
  have hlt := (scanner U t).lt_stop hm
  have hlen : e ≤ t.length := end_le_length (List.mem_of_mem_head? he) (by omega)
  have hma : m.stop ≤ a := by
    by_contra hgt
    have hnum {r : Regex CodePoint} (hr : r = cardBody U ∨ r = ssnBody U)
        (hs : (r.ends t c).head? = some m.stop) : False := by
      have h := numberChar_of_ends hr (List.mem_of_mem_head? hs) (Nat.le_of_lt hca) (Nat.lt_of_not_le hgt)
      rw [hat, Option.any_some, not_numberChar (by decide) (by decide) (by decide)] at h
      exact absurd h (by simp)
    obtain ⟨-, ⟨hn, -⟩ | ⟨-, hs⟩ | ⟨-, hs⟩⟩ := matchAt_cases hm
    · exact hname hn
    · exact hnum (Or.inl rfl) hs
    · exact hnum (Or.inr rfl) hs
  obtain ⟨s, hs⟩ := exists_cut (S := scanner U t) m.stop e (by omega) hlen
  have hcut : Cut (scanner U t) m.stop e e := by
    have hge := hs.ge
    rcases hs.straddles with rfl | ⟨m', hm', hse, hes⟩
    · exact hs
    · have := stop_le_of_email hrun hat hdomain hm' (by omega) hse
      omega
  obtain ⟨pre, -, hch, hrem⟩ := remainder_of_cut hcut hlen
  have hpos : 0 < (segment U luhn t pre m.stop e).length := length_segment_pos hch (by omega) hlen
  have hle : (remainder U false t e).length ≤ (remainder U luhn t e).length := length_remainder_le hlen
  rw [hrem luhn, List.length_append]
  omega

theorem getElem?_remainder (hc : c < t.length)
    (h : ∀ m, (scanner U t).matchAt c = some m → isReal U luhn t m = false) :
    (remainder U luhn t c)[0]? = t[c]? := by
  rw [remainder]
  cases hm : (scanner U t).matchAt c with
  | none =>
      rw [spansFrom_none hm]
      exact getElem?_segment (spansFrom_start_ge (c + 1)) hc (Nat.le_refl _)
  | some m =>
      have hlt := (scanner U t).lt_stop hm
      rw [spansFrom_some hm, segment, if_neg (by simp [h m hm])]
      exact getElem?_segment (fun m' hm' => Nat.lt_of_lt_of_le hlt (spansFrom_start_ge m.stop m' hm')) hc (Nat.le_refl _)

/-- Where a cut loses its context the text after it is redacted in another way. -/
theorem substitute_drop_ne (h : ¬ Fresh U t c) :
    (substitute U false (t.drop c)).1 ≠ remainder U luhn t c := by
  obtain ⟨m', hm', hcase⟩ := matchAt_of_not_fresh h
  have hstart := (scanner U (t.drop c)).start_eq hm'
  have hpos := (scanner U (t.drop c)).lt_stop hm'
  have hlen : m'.stop ≤ t.length - c := List.length_drop ▸ (scanner U (t.drop c)).stop_le hm'
  have hchar : t[c]? ≠ some (chr '[') := by
    have := ne_bracket_of_matchAt hm' (Nat.le_refl 0) hpos
    rwa [List.getElem?_drop, Nat.add_zero] at this
  have hshift : (scanner U t).spansFrom (c + m'.stop) =
      ((scanner U (t.drop c)).spansFrom m'.stop).map (Span.shift c) :=
    spansFrom_shift (n := 1) (fun i hi => matchAt_drop t c i fun h0 => absurd h0 (by omega)) m'.stop hpos
  have hleft : (substitute U false (t.drop c)).1 = redacted ++ remainder U false t (c + m'.stop) := by
    rw [remainder, hshift, ← substituteLoop_eq, substituteLoop_shift, substituteLoop_eq, substitute_eq,
      remainder_some hm' (isReal_false m')]
    rfl
  intro heq
  rw [hleft] at heq
  have hreal : ∃ m, (scanner U t).matchAt c = some m ∧ isReal U luhn t m = true := by
    by_contra hnone
    have hhead : (remainder U luhn t c)[0]? = t[c]? := getElem?_remainder (by omega) fun m hm => by
      rw [← Bool.not_eq_true]
      exact fun hr => hnone ⟨m, hm, hr⟩
    rw [← heq, redacted_append_getElem?] at hhead
    exact hchar hhead.symm
  obtain ⟨m, hm, hr⟩ := hreal
  rw [remainder_some hm hr] at heq
  rcases hcase with hnone | ⟨m₁, hm₁, hemail, hname⟩
  · rw [hnone] at hm; cases hm
  · obtain rfl : m = m₁ := Option.some.inj (hm.symm.trans hm₁)
    have hends : (emailBody.ends t c).head? = some (c + m'.stop) := by
      rw [ends_drop (r := emailBody) (fun _ => rfl) t c, List.head?_map]
      obtain ⟨-, ⟨-, -, hs⟩ | ⟨hn, -⟩ | ⟨hn, -⟩⟩ := matchAt_cases hm'
      · rw [hs, Option.map_some]
      · rw [hemail] at hn; cases hn
      · rw [hemail] at hn; cases hn
    have hlt : (remainder U false t (c + m'.stop)).length < (remainder U luhn t m.stop).length :=
      length_remainder_lt hends hm hname
    rw [List.append_cancel_left heq] at hlt
    exact Nat.lt_irrefl _ hlt

end Unfresh

section Reference

theorem all_real_of_eq (h : remainder U false t 0 = remainder U luhn t 0) : ∀ m ∈ finditer U t, isReal U luhn t m := by
  refine (segment_cancel (X := []) (Y := []) (chained_spansFrom (Nat.zero_le _)) (Nat.le_refl _) (fun m hm => ?_) ?_).1
  · have hat := matchAt_of_mem 0 m hm
    exact ne_bracket_of_matchAt hat (Nat.le_refl _) ((scanner U t).lt_stop hat)
  · rw [List.append_nil, List.append_nil]
    exact h

theorem redact_of_keepsContext (h : KeepsContext U t defaultHold t.length) :
    redact U t = (substitute U false t).1 := by
  have hsound : Sound U (.init none false) [t] := sound_of_keepsContext (Int.le_refl _) fun k hk => by
    rw [List.flatten_singleton]
    cases k with
    | zero => exact Or.inl (show (0 : Int) ≤ defaultHold by decide)
    | succ k =>
        obtain rfl : k = 0 := by simpa using hk
        simpa using h
  rw [redact, hsound.stream_eq, List.flatten_singleton]
  rfl

theorem unsafeStart_of_lt_tail {b : Text} {hold : Int} (h0 : 0 ≤ hold) (h : hold < eligibleTail U b) :
    unsafeStart U hold b = floorOf hold b := by
  have hadd := tailStart_add (U := U) b
  have hfloor : floorOf hold b ≤ b.length := by
    rw [floorOf]
    omega
  obtain ⟨h1, h2, -, h4⟩ := walkBack_spec (U := U) b _ b.length hfloor
  obtain ⟨-, -, h3, -⟩ := walkBack_spec (U := U) b 0 b.length (Nat.zero_le _)
  rw [← unsafeStart] at h1 h2 h4
  rcases h4 with h4 | h4
  · exact h4
  · have hf : floorOf hold b = b.length - hold.toNat := by
      rw [floorOf]
      omega
    rw [tailStart] at hadd
    exact absurd (h3 (unsafeStart U hold b - 1) (by omega) (by omega)) (by simp [h4])

theorem redact_eq (hne : t ≠ []) (hg : 0 < unsafeStart U defaultHold t) :
    redact U t = (emitLoop U false t (finditer U t) 0 (unsafeStart U defaultHold t)).1 ++
      (substitute U false (t.drop (emitLoop U false t (finditer U t) 0 (unsafeStart U defaultHold t)).2.2)).1 := by
  have hcut : cutOf U (.init none false) t = (emitLoop U false t (finditer U t) 0 (unsafeStart U defaultHold t)).2.2 :=
    if_neg (Nat.ne_of_gt hg)
  have hfeed : ((StreamingRedactor.init none false).feed U t).1 =
      (emitLoop U false t (finditer U t) 0 (unsafeStart U defaultHold t)).1 := by
    simp only [StreamingRedactor.feed, if_neg hne, StreamingRedactor.emitSafePrefix]
    split
    · next h0 => exact absurd h0 (Nat.not_le_of_gt hg)
    · rfl
  rw [redact, stream_cons, stream_nil, feed_buffer hne, feed_settings.2, hfeed]
  change _ ++ (substitute U false (t.drop (cutOf U (.init none false) t))).1 = _
  rw [hcut]

theorem redact_split (hg : 0 < unsafeStart U defaultHold t) : ∃ c pre,
    Cut (scanner U t) 0 c (unsafeStart U defaultHold t) ∧
      (scanner U t).spansFrom 0 = pre ++ (scanner U t).spansFrom c ∧ Chained c 0 pre ∧
      (∀ luhn, remainder U luhn t 0 = segment U luhn t pre 0 c ++ remainder U luhn t c) ∧
      redact U t = segment U false t pre 0 c ++ (substitute U false (t.drop c)).1 := by
  have hfloor : floorOf defaultHold t ≤ t.length := by
    rw [floorOf, show defaultHold = 409 from rfl]
    omega
  have hu : unsafeStart U defaultHold t ≤ t.length := (walkBack_spec t _ t.length hfloor).2.1
  have hne : t ≠ [] := by
    rintro rfl
    rw [List.length_nil] at hu
    omega
  have hat : ∀ i < unsafeStart U defaultHold t, (scanner U (t ++ [])).matchAt i = (scanner U t).matchAt i :=
    fun i _ => by rw [List.append_nil]
  obtain ⟨hcut, hout⟩ := emitLoop_spec hu hat false 0 0 (Nat.zero_le _) (Nat.le_refl 0)
  rw [List.append_nil] at hcut hout
  rw [redact_eq hne hg, finditer]
  generalize emitLoop U false t ((scanner U t).spansFrom 0) 0 (unsafeStart U defaultHold t) = out at hcut hout ⊢
  have hle := hcut.le
  obtain ⟨pre, hpre, hch, hrem⟩ := remainder_of_cut hcut.self (by omega)
  refine ⟨out.2.2, pre, hcut, hpre, hch, hrem, ?_⟩
  rw [substituteLoop_eq, substituteLoop_eq] at hout
  change remainder U false t 0 = _ ++ remainder U false t out.2.2 at hout
  rw [hrem false] at hout
  rw [← List.append_cancel_right hout]

theorem unsafeStart_of_lost (h : ¬ KeepsContext U t defaultHold t.length) :
    unsafeStart U defaultHold t = t.length - defaultHold.toNat ∧ 0 < unsafeStart U defaultHold t := by
  rw [KeepsContext, not_or, List.take_length, Int.not_le] at h
  have hhold : defaultHold = 409 := rfl
  have hadd := tailStart_add (U := U) t
  have hu : unsafeStart U defaultHold t = t.length - defaultHold.toNat := by
    rw [unsafeStart_of_lt_tail (by decide) h.1, floorOf]
    omega
  omega

/-- A cut without its context shows in the output of redact. -/
theorem redact_ne_of_lost (h : ¬ KeepsContext U t defaultHold t.length) : redact U t ≠ remainder U luhn t 0 := by
  obtain ⟨hu, hg⟩ := unsafeStart_of_lost h
  obtain ⟨c, pre, hcut, hpre, hch, hrem, hredact⟩ := redact_split hg
  have hfresh := (not_or.mp h).2
  rw [← hu, hcut.cutPoint_eq] at hfresh
  have hle := hcut.le
  rw [hredact, hrem luhn]
  intro heq
  refine substitute_drop_ne hfresh (segment_cancel hch (by omega) (fun m hm => ?_) heq).2
  have hat := matchAt_of_mem 0 m (hpre ▸ List.mem_append_left _ hm)
  exact ne_bracket_of_matchAt hat (Nat.le_refl _) ((scanner U t).lt_stop hat)

/-- The helper agrees with one pass exactly where nothing that it redacts is
spared and its one cut keeps its context. -/
theorem redact_eq_substitute_iff : redact U t = (substitute U luhn t).1 ↔
    (∀ m ∈ finditer U t, isReal U luhn t m) ∧ KeepsContext U t defaultHold t.length := by
  rw [substitute_eq]
  constructor
  · intro h
    have hk : KeepsContext U t defaultHold t.length := by
      by_contra hlost
      exact redact_ne_of_lost hlost h
    rw [redact_of_keepsContext hk, substitute_eq] at h
    exact ⟨all_real_of_eq h, hk⟩
  · rintro ⟨hall, hk⟩
    rw [redact_of_keepsContext hk, substitute_eq]
    exact segment_congr hall 0 t.length

end Reference

section Preserved

variable {P : CodePoint → Bool}

theorem all_slice {j : Nat} (h : ∀ k, i ≤ k → k < j → t[k]?.any P) : (slice t i j).all P := by
  rw [List.all_eq_true]
  intro d hd
  obtain ⟨n, hn⟩ := List.mem_iff_getElem?.mp hd
  have hlt := (List.getElem?_eq_some_iff.mp hn).1
  simp only [slice, List.length_drop, List.length_take] at hlt
  rw [getElem?_slice (by omega)] at hn
  have := h (i + n) (by omega) (by omega)
  rwa [hn] at this

variable (hP : ∀ d, matchChar U d → P d) (hr : redacted.all P)
include hP hr

theorem all_segment (hch : Chained c lo ms) (hms : ∀ m ∈ ms, (scanner U t).matchAt m.start = some m) :
    (segment U false t ms lo c).all P = (slice t lo c).all P := by
  induction ms generalizing lo with
  | nil => rfl
  | cons m ms ih =>
      obtain ⟨h1, h2, h3⟩ := hch
      obtain ⟨hm, hms⟩ := List.forall_mem_cons.mp hms
      have hmatch : (slice t m.start m.stop).all P :=
        all_slice fun k hk hlt => any_mono hP (matchChar_of_matchAt hm hk hlt)
      rw [segment, if_pos (isReal_false m), ← slice_append (Nat.le_trans h1 (Nat.le_of_lt h2)) h3.le,
        ← slice_append h1 (Nat.le_of_lt h2)]
      simp only [List.all_append, ih h3 hms, hr, hmatch]

theorem all_remainder : (remainder U false t 0).all P = t.all P := by
  rw [remainder, all_segment hP hr (chained_spansFrom (Nat.zero_le _)) fun m hm => matchAt_of_mem 0 m hm,
    slice_length_self, List.drop_zero]

theorem all_redact : (redact U t).all P = t.all P := by
  by_cases hk : KeepsContext U t defaultHold t.length
  · rw [redact_of_keepsContext hk, substitute_eq, all_remainder hP hr]
  · obtain ⟨c, pre, -, hpre, hch, -, hredact⟩ := redact_split (unsafeStart_of_lost hk).2
    rw [hredact, substitute_eq, List.all_append, all_remainder hP hr,
      all_segment hP hr hch fun m hm => matchAt_of_mem 0 m (hpre ▸ List.mem_append_left _ hm), slice, List.drop_zero,
      ← List.all_append, List.take_append_drop]

end Preserved

end LlmGateway.Redactor
