import LlmGateway.RedactorReference

namespace LlmGateway.Redactor

open Scanner Regex

variable {U : Unicode} {luhn : Bool} {t : Text} {c e i j k : Nat} {m : Match} {kind : Kind}

/-- t[i:j] is a word of the alternative between characters that its lookarounds
accept, and passes the Luhn check where one is asked for. -/
structure Occurrence (U : Unicode) (luhn : Bool) (t : Text) (kind : Kind) (i j : Nat) : Prop where
  lt : i < j
  le : j ≤ t.length
  spells : Spells (bare U kind) (slice t i j)
  before : (behind t i).any (rejectedBefore U kind) = false
  after : t[j]?.any (rejectedAfter U kind) = false
  real : luhn → kind = .card → luhnOk U ((slice t i j).filter U.isDecimal)

/-- The intervals that _substitute replaces. -/
def redactions (U : Unicode) (luhn : Bool) (t : Text) : List Match := (finditer U t).filter (isReal U luhn t)

/-- The text with each of the intervals replaced. -/
def replaced (t : Text) : List Match → Nat → Nat → Text
  | [], cursor, stop => slice t cursor stop
  | m :: ms, cursor, stop => slice t cursor m.start ++ redacted ++ replaced t ms m.stop stop

theorem isReal_iff : isReal U luhn t m ↔ (luhn → m.name = .card → luhnOk U ((group t m).filter U.isDecimal)) := by
  rw [isReal]
  cases luhn <;> cases m.name <;> simp

/-- The matcher ends exactly where occurrences end. -/
theorem occurrence_iff : Occurrence U luhn t kind i j ↔
    j ∈ (alternative U kind).ends t i ∧ isReal U luhn t ⟨kind, i, j⟩ := by
  rw [mem_alternative, isReal_iff]
  constructor
  · intro h
    exact ⟨⟨h.before, (mem_ends_iff (bare_lookFree kind) (Nat.le_of_lt h.lt) h.le).mpr h.spells, h.after⟩, h.real⟩
  · rintro ⟨⟨hb, hj, ha⟩, hr⟩
    have hlt : i < j := by
      have hw := (ends_bounds _ _ _ _ hj).1
      have := bare_minWidth (U := U) kind
      omega
    exact ⟨hlt, end_le_length hj hlt, spells_of_ends _ _ _ _ hj, hb, ha, hr⟩

theorem occurrence_of_matchAt (h : (scanner U t).matchAt m.start = some m) :
    Occurrence U false t m.name m.start m.stop :=
  occurrence_iff.mpr ⟨List.mem_of_mem_head? (matchAt_some h).2, rfl⟩

section Substitute

theorem substituteLoop_replaced (ms : List Match) (cursor : Nat) : substituteLoop U luhn t ms cursor =
    (replaced t (ms.filter (isReal U luhn t)) cursor t.length, (ms.filter (isReal U luhn t)).length) := by
  induction ms generalizing cursor with
  | nil => rw [substituteLoop, List.filter_nil, replaced, slice_length_self, List.length_nil]
  | cons m ms ih =>
      rw [substituteLoop, List.filter_cons, ih, ih]
      split
      · rw [replaced, List.length_cons]
      · rfl

/-- _substitute replaces these intervals and counts them. -/
theorem substitute_redactions (U : Unicode) (luhn : Bool) (t : Text) :
    substitute U luhn t = (replaced t (redactions U luhn t) 0 t.length, (redactions U luhn t).length) :=
  substituteLoop_replaced _ 0

theorem chained_finditer (U : Unicode) (t : Text) : Chained t.length 0 (finditer U t) :=
  chained_spansFrom (Nat.zero_le _)

theorem mem_redactions : m ∈ redactions U luhn t ↔ m ∈ finditer U t ∧ isReal U luhn t m := List.mem_filter

end Substitute

section Coverage

def Covered (U : Unicode) (luhn : Bool) (t : Text) (k : Nat) : Prop :=
  ∃ m ∈ redactions U luhn t, m.start ≤ k ∧ k < m.stop

/-- The match in which the interval begins is real, and where it is a number
that begins before the interval it does not end before it. -/
def Unshadowed (U : Unicode) (luhn : Bool) (t : Text) (i j : Nat) : Prop :=
  ∀ m ∈ finditer U t, m.start ≤ i → i < m.stop →
    isReal U luhn t m ∧ (m.name ≠ .email → m.start < i → j ≤ m.stop)

theorem digit_of_number (hkind : kind ≠ .email) (hj : j ∈ (bare U kind).ends t i) : (behind t j).any U.isDecimal := by
  have hdigits (lo : Nat) : Triple t (fun _ => True) (.rep (.cls U.isDecimal) (lo + 1) 0)
      fun j => (behind t j).any U.isDecimal := triple_run U.isDecimal lo 0
  have hunit : Triple t (fun j => (behind t j).any U.isDecimal)
      (.seq (.rep (.cls (among [' ', '-'])) 0 1) (.cls U.isDecimal)) fun j => (behind t j).any U.isDecimal :=
    fun p _ => triple_true (triple_cls U.isDecimal) p trivial
  cases kind with
  | email => exact absurd rfl hkind
  | card => exact (hdigits 3).seq (hunit.rep 9 6) i trivial j hj
  | ssn => exact triple_true (triple_true (triple_true (triple_true (hdigits 3)))) i trivial j hj

theorem rejectedBefore_of_isDecimal {c : CodePoint} (h : U.isDecimal c) : rejectedBefore U kind c := by
  cases kind with
  | email => exact emailBehind_of_isDecimal h
  | card => exact h
  | ssn => exact h

theorem matchAt_after_digit (h : (behind t i).any U.isDecimal) : (scanner U t).matchAt i = none := by
  cases hm : (scanner U t).matchAt i with
  | none => rfl
  | some m =>
      obtain ⟨hb, -⟩ := mem_alternative.mp (List.mem_of_mem_head? (matchAt_some hm).2)
      have hrejected : (behind t i).any (rejectedBefore U m.name) := any_mono (fun _ => rejectedBefore_of_isDecimal) h
      rw [hb] at hrejected
      exact absurd hrejected (by simp)

theorem le_stop_of_email (hm : (scanner U t).matchAt c = some m) (hname : m.name = .email)
    (hj : j ∈ (alternative U kind).ends t i) (hc : c ≤ i) (hi : i < m.stop) : j ≤ m.stop := by
  obtain ⟨-, ⟨-, -, hs⟩ | ⟨hn, -⟩ | ⟨hn, -⟩⟩ := matchAt_cases hm
  · obtain ⟨a, -, -, hrun, hat, hdomain⟩ := emailBody_spec hs
    exact le_of_email hrun hat hdomain hj hc hi
  · rw [hname] at hn; cases hn
  · rw [hname] at hn; cases hn

/-- The fourth character is a digit of a card and a separator of an ssn. -/
theorem not_card_and_ssn (hcard : e ∈ (alternative U .card).ends t i) (hssn : j ∈ (alternative U .ssn).ends t i) :
    False := by
  obtain ⟨-, hc⟩ := mem_guarded hcard
  obtain ⟨-, hs⟩ := mem_guarded hssn
  obtain ⟨p, hp, -⟩ := List.mem_flatMap.mp hc
  obtain ⟨q, hq, hs⟩ := List.mem_flatMap.mp hs
  obtain ⟨r, hr, -⟩ := List.mem_flatMap.mp hs
  have hp4 := (ends_bounds _ _ _ _ hp).1
  have hq3 := ends_bounds _ _ _ _ hq
  simp only [minWidth, width] at hp4 hq3
  have hdigit := ends_consumes _ _ _ _ hp q (by omega) (by omega)
  rw [ends] at hr
  split at hr
  · next hseparator =>
      cases hc : t[q]? with
      | none => rw [hc] at hdigit; exact absurd hdigit (by simp)
      | some d =>
          rw [hc, Option.any_some] at hdigit hseparator
          rw [among_separators] at hseparator
          rw [consumes, consumes, not_isDecimal_separator hseparator] at hdigit
          exact absurd hdigit (by simp)
  · exact absurd hr List.not_mem_nil

/-- What matches at a position is no shorter than any occurrence there. -/
theorem le_stop_of_start (hm : (scanner U t).matchAt i = some m) (hj : j ∈ (alternative U kind).ends t i) :
    j ≤ m.stop := by
  obtain ⟨hstart, hhead⟩ := matchAt_some hm
  obtain ⟨j', hj'⟩ : ∃ j', ((alternative U kind).ends t i).head? = some j' :=
    Option.isSome_iff_exists.mp (List.isSome_head?.mpr (List.ne_nil_of_mem hj))
  by_cases hname : m.name = kind
  · exact (descending_alternative m.name t i).le_head hhead j (hname ▸ hj)
  · by_cases hemail : m.name = .email
    · exact le_stop_of_email hm hemail hj (Nat.le_refl i) ((scanner U t).lt_stop hm)
    · cases kind with
      | email =>
          rw [matchAt_eq, show ((email U).ends t i).head? = some j' from hj'] at hm
          cases hm
          exact absurd rfl hemail
      | card =>
          rw [matchAt_eq, show ((card U).ends t i).head? = some j' from hj'] at hm
          cases he : ((email U).ends t i).head? with
          | some e => rw [he] at hm; cases hm; exact absurd rfl hemail
          | none => rw [he] at hm; cases hm; exact absurd rfl hname
      | ssn =>
          have hcard : m.name = .card := by
            cases hk : m.name with
            | email => exact absurd hk hemail
            | card => rfl
            | ssn => exact absurd hk hname
          rw [hcard] at hhead
          exact (not_card_and_ssn (List.mem_of_mem_head? hhead) hj).elim

/-- An occurrence is redacted whole exactly where no match that begins before
it, or that fails the Luhn check, has taken its characters. -/
theorem covered_iff (h : Occurrence U luhn t kind i j) :
    (∀ k, i ≤ k → k < j → Covered U luhn t k) ↔ Unshadowed U luhn t i j := by
  obtain ⟨hj, -⟩ := occurrence_iff.mp h
  have hchain := chained_finditer U t
  constructor
  · intro hcovered m hm hstart hstop
    have hfound {m' : Match} {k : Nat} (hm' : m' ∈ redactions U luhn t) (hk : m'.start ≤ k) (hk' : k < m'.stop) :
        m = m' ∨ m.stop ≤ m'.start ∨ m'.stop ≤ m.start := hchain.disjoint hm (mem_redactions.mp hm').1
    obtain ⟨m₁, hm₁, hs₁, he₁⟩ := hcovered i (Nat.le_refl i) h.lt
    refine ⟨?_, fun hname _ => ?_⟩
    · rcases hfound hm₁ hs₁ he₁ with rfl | hd | hd
      · exact (mem_redactions.mp hm₁).2
      · omega
      · omega
    · by_contra hlt
      obtain ⟨m₂, hm₂, hs₂, he₂⟩ := hcovered m.stop (by omega) (by omega)
      have hmatch := matchAt_of_mem 0 m₂ (mem_redactions.mp hm₂).1
      have hfirst := mem_alternative.mp (List.mem_of_mem_head? (matchAt_some (matchAt_of_mem 0 m hm)).2)
      have hnone := matchAt_after_digit (digit_of_number hname hfirst.2.1)
      have hstart₂ : m₂.start = m.stop := by
        rcases hfound hm₂ hs₂ he₂ with rfl | hd | hd
        · omega
        · omega
        · omega
      rw [hstart₂, hnone] at hmatch
      exact absurd hmatch (by simp)
  · intro hclear k hik hkj
    obtain ⟨m', hm'⟩ := exists_firstMatch (mem_pattern kind) hj
    obtain ⟨m, hm, hstart, hstop⟩ := exists_span (S := scanner U t) hm' (Nat.zero_le i)
    obtain ⟨hreal, hlong⟩ := hclear m hm hstart hstop
    have hmatch := matchAt_of_mem 0 m hm
    have hle : j ≤ m.stop := by
      rcases Nat.eq_or_lt_of_le hstart with heq | hlt
      · exact le_stop_of_start (heq ▸ hmatch) hj
      · by_cases hname : m.name = .email
        · exact le_stop_of_email hmatch hname hj hstart hstop
        · exact hlong hname hlt
    exact ⟨m, mem_redactions.mpr ⟨hm, hreal⟩, by omega, by omega⟩

/-- A card with a social security number after it. -/
def shadowedSsn : Text := str "4111 1111 1111 1111 123-45-6789"

theorem covered_ssn :
    Covered Unicode.ascii true (str "123-45-6789") 0 ∧ Covered Unicode.ascii true (str "123-45-6789") 10 := by
  have h : Occurrence Unicode.ascii true (str "123-45-6789") .ssn 0 11 :=
    occurrence_iff.mpr ⟨by decide +kernel, by decide +kernel⟩
  have hcovered := (covered_iff h).mpr fun m hm _ _ => by
    have hf : finditer Unicode.ascii (str "123-45-6789") = [⟨.ssn, 0, 11⟩] := by decide +kernel
    rw [hf] at hm
    rw [List.mem_singleton.mp hm]
    exact ⟨rfl, fun _ _ => Nat.le_refl 11⟩
  exact ⟨hcovered 0 (Nat.le_refl 0) (by decide), hcovered 10 (Nat.zero_le 10) (by decide)⟩

/-- Three digits of the number end the card, and the rest of it is kept. -/
theorem shadowedSsn_leaks : Occurrence Unicode.ascii false shadowedSsn .ssn 20 31 ∧
    ¬ Covered Unicode.ascii false shadowedSsn 25 ∧
    (substitute Unicode.ascii false shadowedSsn).1 = str "[REDACTED]-45-6789" := by
  have hf : redactions Unicode.ascii false shadowedSsn = [⟨.card, 0, 23⟩] := by decide +kernel
  refine ⟨occurrence_iff.mpr ⟨by decide +kernel, by decide +kernel⟩, ?_, by decide +kernel⟩
  rintro ⟨m, hm, -, hlt⟩
  rw [hf] at hm
  rw [List.mem_singleton.mp hm] at hlt
  exact absurd hlt (by decide)

end Coverage

end LlmGateway.Redactor
