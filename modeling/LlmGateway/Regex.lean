import Mathlib.Data.List.Forall2

namespace LlmGateway

variable {α κ : Type}

/-- Regular expressions with one-character lookarounds and bounded greedy
repetition: `rep r lo extra` is `r{lo,lo+extra}`. -/
inductive Regex (α : Type)
  | cls (q : α → Bool)
  | seq (r s : Regex α)
  | alt (r s : Regex α)
  | rep (r : Regex α) (lo extra : Nat)
  | notBehind (q : α → Bool)
  | notAhead (q : α → Bool)

namespace Regex

/-- The character that a lookbehind at position i inspects. -/
def behind (t : List α) : Nat → Option α
  | 0 => none
  | i + 1 => t[i]?

/-- Up to k further rounds of f, the longest continuation first. -/
def optionalEnds (f : Nat → List Nat) : Nat → Nat → List Nat
  | 0, i => [i]
  | k + 1, i => (f i).flatMap (optionalEnds f k) ++ [i]

def repeatEnds (f : Nat → List Nat) (extra : Nat) : Nat → Nat → List Nat
  | 0, i => optionalEnds f extra i
  | m + 1, i => (f i).flatMap (repeatEnds f extra m)

/-- Every end position of a match that starts at i, in the order in which a
greedy backtracking matcher tries them. -/
def ends : Regex α → List α → Nat → List Nat
  | .cls q, t, i => if t[i]?.any q then [i + 1] else []
  | .seq r s, t, i => (r.ends t i).flatMap (s.ends t)
  | .alt r s, t, i => r.ends t i ++ s.ends t i
  | .rep r lo extra, t, i => repeatEnds (r.ends t) extra lo i
  | .notBehind q, t, i => if (behind t i).any q then [] else [i]
  | .notAhead q, t, i => if t[i]?.any q then [] else [i]

def width : Regex α → Nat
  | .cls _ => 1
  | .seq r s => r.width + s.width
  | .alt r s => max r.width s.width
  | .rep r lo extra => (lo + extra) * r.width
  | .notBehind _ | .notAhead _ => 0

def minWidth : Regex α → Nat
  | .cls _ => 1
  | .seq r s => r.minWidth + s.minWidth
  | .alt r s => min r.minWidth s.minWidth
  | .rep r lo _ => lo * r.minWidth
  | .notBehind _ | .notAhead _ => 0

/-- The characters that a match can consume. -/
def consumes : Regex α → α → Bool
  | .cls q, c => q c
  | .seq r s, c | .alt r s, c => r.consumes c || s.consumes c
  | .rep r _ _, c => r.consumes c
  | .notBehind _, _ | .notAhead _, _ => false

/-- The characters that some lookbehind rejects. -/
def rejectsBehind : Regex α → α → Bool
  | .notBehind q, c => q c
  | .seq r s, c | .alt r s, c => r.rejectsBehind c || s.rejectsBehind c
  | .rep r _ _, c => r.rejectsBehind c
  | .cls _, _ | .notAhead _, _ => false

theorem any_mono {p q : α → Bool} {o : Option α} (h : ∀ c, p c → q c) (ho : o.any p) : o.any q := by
  cases o with
  | none => exact ho
  | some c => exact h c ho

section Triple

variable {t : List α} {P Q R : Nat → Prop} {r s : Regex α}

/-- From a position with P every end of the expression has Q. -/
def Triple (t : List α) (P : Nat → Prop) (r : Regex α) (Q : Nat → Prop) : Prop :=
  ∀ i, P i → ∀ j ∈ r.ends t i, Q j

theorem Triple.seq (hr : Triple t P r Q) (hs : Triple t Q s R) : Triple t P (r.seq s) R := by
  intro i hi j hj
  obtain ⟨k, hk, hjk⟩ := List.mem_flatMap.mp hj
  exact hs k (hr i hi k hk) j hjk

theorem repeatEnds_invariant {f : Nat → List Nat} (hf : ∀ i, P i → ∀ j ∈ f i, P j)
    (lo extra i : Nat) (hi : P i) : ∀ j ∈ repeatEnds f extra lo i, P j := by
  induction lo generalizing i with
  | zero =>
      simp only [repeatEnds]
      induction extra generalizing i with
      | zero => simpa [optionalEnds] using hi
      | succ k ih =>
          intro j hj
          simp only [optionalEnds, List.mem_append, List.mem_flatMap, List.mem_singleton] at hj
          rcases hj with ⟨m, hm, hj⟩ | rfl
          · exact ih m (hf i hi m hm) j hj
          · exact hi
  | succ m ih =>
      intro j hj
      obtain ⟨k, hk, hj⟩ := List.mem_flatMap.mp hj
      exact ih k (hf i hi k hk) j hj

theorem Triple.rep (hr : Triple t P r P) (lo extra : Nat) : Triple t P (r.rep lo extra) P :=
  fun i hi => repeatEnds_invariant hr lo extra i hi

end Triple

theorem repeatEnds_bounds {f : Nat → List Nat} {a w : Nat}
    (hf : ∀ i, ∀ j ∈ f i, i + a ≤ j ∧ j ≤ i + w) (lo extra i : Nat) :
    ∀ j ∈ repeatEnds f extra lo i, i + lo * a ≤ j ∧ j ≤ i + (lo + extra) * w := by
  induction lo generalizing i with
  | zero =>
      simp only [repeatEnds, Nat.zero_mul, Nat.zero_add, Nat.add_zero]
      induction extra generalizing i with
      | zero => simp [optionalEnds]
      | succ k ih =>
          intro j hj
          simp only [optionalEnds, List.mem_append, List.mem_flatMap, List.mem_singleton] at hj
          rw [Nat.succ_mul]
          rcases hj with ⟨m, hm, hj⟩ | rfl
          · have h := hf i m hm
            have h' := ih m j hj
            omega
          · omega
  | succ m ih =>
      intro j hj
      obtain ⟨k, hk, hj⟩ := List.mem_flatMap.mp hj
      have h := hf i k hk
      have h' := ih k j hj
      rw [Nat.succ_add, Nat.succ_mul, Nat.succ_mul]
      omega

theorem ends_bounds (r : Regex α) (t : List α) (i : Nat) :
    ∀ j ∈ r.ends t i, i + r.minWidth ≤ j ∧ j ≤ i + r.width := by
  induction r generalizing i with
  | cls q =>
      intro j hj
      rw [ends] at hj
      split at hj <;> simp_all [minWidth, width]
  | seq r s ihr ihs =>
      intro j hj
      obtain ⟨k, hk, hj⟩ := List.mem_flatMap.mp hj
      have hr := ihr i k hk
      have hs := ihs k j hj
      simp only [minWidth, width]
      omega
  | alt r s ihr ihs =>
      intro j hj
      simp only [minWidth, width]
      rcases List.mem_append.mp hj with hj | hj
      · have h := ihr i j hj
        omega
      · have h := ihs i j hj
        omega
  | rep r lo extra ih => exact repeatEnds_bounds ih lo extra i
  | notBehind q | notAhead q =>
      intro j hj
      rw [ends] at hj
      split at hj <;> simp_all [minWidth, width]

theorem ends_consumes (r : Regex α) (t : List α) (i : Nat) :
    ∀ j ∈ r.ends t i, ∀ k, i ≤ k → k < j → t[k]?.any r.consumes := by
  have step (r : Regex α) (q : α → Bool)
      (hr : ∀ i, ∀ j ∈ r.ends t i, ∀ k, i ≤ k → k < j → t[k]?.any q) (start : Nat) :
      Triple t (fun j => ∀ k, start ≤ k → k < j → t[k]?.any q) r
        (fun j => ∀ k, start ≤ k → k < j → t[k]?.any q) := by
    intro j hj m hm k hk hkm
    rcases Nat.lt_or_ge k j with h | h
    · exact hj k hk h
    · exact hr j m hm k h hkm
  induction r generalizing i with
  | cls q =>
      intro j hj k hik hkj
      rw [ends] at hj
      split at hj
      · next hq =>
          have hk : k = i := by simp only [List.mem_singleton] at hj; omega
          exact hk ▸ hq
      · simp at hj
  | seq r s ihr ihs =>
      have hr := step r (Regex.seq r s).consumes (fun i j hj k h1 h2 =>
        any_mono (by simp +contextual [consumes]) (ihr i j hj k h1 h2)) i
      have hs := step s (Regex.seq r s).consumes (fun i j hj k h1 h2 =>
        any_mono (by simp +contextual [consumes]) (ihs i j hj k h1 h2)) i
      exact hr.seq hs i (by omega)
  | alt r s ihr ihs =>
      intro j hj k h1 h2
      rcases List.mem_append.mp hj with hj | hj
      · exact any_mono (by simp +contextual [consumes]) (ihr i j hj k h1 h2)
      · exact any_mono (by simp +contextual [consumes]) (ihs i j hj k h1 h2)
  | rep r lo extra ih => exact (step r _ ih i).rep lo extra i (by omega)
  | notBehind q | notAhead q =>
      intro j hj k h1 h2
      rw [ends] at hj
      split at hj
      · simp at hj
      · simp only [List.mem_singleton] at hj; omega

section Sim

variable {t t' : List α} {P Q R P' Q' : Nat → Nat → Prop} {r s : Regex α}

/-- Two texts are matched in step: from positions related by P the attempts
on both sides end, in the same order, at positions related by Q. -/
def Sim (t t' : List α) (P : Nat → Nat → Prop) (r : Regex α) (Q : Nat → Nat → Prop) : Prop :=
  ∀ i i', P i i' → List.Forall₂ Q (r.ends t i) (r.ends t' i')

theorem Sim.exists_end (h : Sim t t' P r Q) {i i' j : Nat} (hi : P i i') (hj : j ∈ r.ends t i) :
    ∃ j', Q j j' := by
  have hl := h i i' hi
  generalize r.ends t i = l, r.ends t' i' = l' at hl hj
  induction hl with
  | nil => simp at hj
  | cons hq _ ih =>
      rcases List.mem_cons.mp hj with rfl | hj
      · exact ⟨_, hq⟩
      · exact ih hj

theorem Sim.weaken (h : Sim t t' P r Q) (hp : ∀ i i', P' i i' → P i i') (hq : ∀ i i', Q i i' → Q' i i') :
    Sim t t' P' r Q' :=
  fun i i' hi => (h i i' (hp i i' hi)).imp hq

theorem Sim.seq (hr : Sim t t' P r Q) (hs : Sim t t' Q s R) : Sim t t' P (r.seq s) R :=
  fun i i' hi => List.rel_flatMap (hr i i' hi) (fun j j' hj => hs j j' hj)

theorem Sim.alt (hr : Sim t t' P r Q) (hs : Sim t t' P s Q) : Sim t t' P (r.alt s) Q :=
  fun i i' hi => List.rel_append (hr i i' hi) (hs i i' hi)

theorem Sim.cls {q : α → Bool}
    (h : ∀ i i', P i i' → t[i]?.any q = t'[i']?.any q ∧ (t[i]?.any q → Q (i + 1) (i' + 1))) :
    Sim t t' P (.cls q) Q := by
  intro i i' hi
  obtain ⟨he, hn⟩ := h i i' hi
  simp only [ends, ← he]
  split
  · next hq => exact .cons (hn hq) .nil
  · exact .nil

theorem Sim.notBehind {q : α → Bool} (h : ∀ i i', P i i' → (behind t i).any q = (behind t' i').any q) :
    Sim t t' P (.notBehind q) P := by
  intro i i' hi
  simp only [ends, ← h i i' hi]
  split
  · exact .nil
  · exact .cons hi .nil

theorem Sim.notAhead {q : α → Bool} (h : ∀ i i', P i i' → t[i]?.any q = t'[i']?.any q) :
    Sim t t' P (.notAhead q) P := by
  intro i i' hi
  simp only [ends, ← h i i' hi]
  split
  · exact .nil
  · exact .cons hi .nil

/-- Rounds of a repetition, with the invariant A m at m rounds from the end. -/
theorem repeatEnds_sim {f g : Nat → List Nat} {A : Nat → Nat → Nat → Prop}
    (hf : ∀ m i i', A (m + 1) i i' → List.Forall₂ (A m) (f i) (g i'))
    (hA : ∀ m i i', A (m + 1) i i' → A m i i') (lo extra i i' : Nat) (hi : A (lo + extra) i i') :
    List.Forall₂ (A 0) (repeatEnds f extra lo i) (repeatEnds g extra lo i') := by
  induction lo generalizing i i' with
  | zero =>
      simp only [repeatEnds]
      rw [Nat.zero_add] at hi
      induction extra generalizing i i' with
      | zero => exact .cons hi .nil
      | succ k ih =>
          have hz : A 0 i i' := by
            clear ih
            generalize k + 1 = m at hi
            induction m with
            | zero => exact hi
            | succ m ih => exact ih (hA m i i' hi)
          exact List.rel_append (List.rel_flatMap (hf k i i' hi) fun j j' hj => ih j j' hj)
            (.cons hz .nil)
  | succ m ih =>
      rw [Nat.succ_add] at hi
      exact List.rel_flatMap (hf _ i i' hi) fun j j' hj => ih j j' hj

theorem Sim.rep (hr : Sim t t' P r P) (lo extra : Nat) : Sim t t' P (r.rep lo extra) P :=
  fun i i' hi => repeatEnds_sim (A := fun _ => P) (fun _ => hr) (fun _ _ _ h => h) lo extra i i' hi

/-- When one round or more is due, the first may start from a weaker relation. -/
theorem Sim.rep_succ (hr : Sim t t' P r Q) (hq : Sim t t' Q r Q) (lo extra : Nat) :
    Sim t t' P (r.rep (lo + 1) extra) Q :=
  fun i i' hi => List.rel_flatMap (hr i i' hi) fun j j' hj => hq.rep lo extra j j' hj

theorem Sim.opt (hr : Sim t t' P r Q) (hpq : ∀ i i', P i i' → Q i i') : Sim t t' P (r.rep 0 1) Q := by
  intro i i' hi
  simp only [ends, repeatEnds, optionalEnds, List.flatMap_singleton']
  exact List.rel_append (hr i i' hi) (.cons (hpq i i' hi) .nil)

/-- Related positions are c apart, follow the same character, and are
followed by the same n characters and lookahead. -/
def Agree (t t' : List α) (c n i i' : Nat) : Prop :=
  i = c + i' ∧ behind t i = behind t' i' ∧ ∀ d ≤ n, t[i + d]? = t'[i' + d]?

theorem Agree.mono {c m n i i' : Nat} (h : Agree t t' c n i i') (hm : m ≤ n) : Agree t t' c m i i' :=
  ⟨h.1, h.2.1, fun d hd => h.2.2 d (Nat.le_trans hd hm)⟩

theorem Agree.succ {c n i i' : Nat} (h : Agree t t' c (n + 1) i i') : Agree t t' c n (i + 1) (i' + 1) := by
  refine ⟨by have := h.1; omega, by simpa [behind] using h.2.2 0 (by omega), fun d hd => ?_⟩
  simpa only [Nat.add_assoc, Nat.add_comm 1] using h.2.2 (d + 1) (by omega)

/-- A matcher sees no further than its width and one lookahead character. -/
theorem sim_agree (t t' : List α) (c : Nat) (r : Regex α) (n : Nat) :
    Sim t t' (Agree t t' c (r.width + n)) r (Agree t t' c n) := by
  induction r generalizing n with
  | cls q =>
      refine Sim.cls fun i i' h => ⟨?_, fun _ => (h.mono (by simp [width, Nat.add_comm])).succ⟩
      rw [show t[i]? = t'[i']? by simpa using h.2.2 0 (Nat.zero_le _)]
  | seq r s ihr ihs =>
      have h := (ihr (s.width + n)).seq (ihs n)
      exact h.weaken (fun i i' h => h.mono (by simp [width, Nat.add_assoc])) (fun _ _ h => h)
  | alt r s ihr ihs =>
      refine Sim.alt ((ihr n).weaken (fun i i' h => h.mono ?_) fun _ _ h => h)
        ((ihs n).weaken (fun i i' h => h.mono ?_) fun _ _ h => h)
      · exact Nat.add_le_add_right (Nat.le_max_left _ _) n
      · exact Nat.add_le_add_right (Nat.le_max_right _ _) n
  | rep r lo extra ih =>
      intro i i' h
      have h' := repeatEnds_sim (A := fun m => Agree t t' c (m * r.width + n))
        (f := r.ends t) (g := r.ends t')
        (fun m i i' hi => ih (m * r.width + n) i i' (hi.mono (by rw [Nat.succ_mul]; omega)))
        (fun m i i' hi => hi.mono (by rw [Nat.succ_mul]; omega)) lo extra i i' h
      simpa only [Nat.zero_mul, Nat.zero_add, ends] using h'
  | notBehind q =>
      exact (Sim.notBehind fun i i' h => by rw [h.2.1]).weaken
        (fun i i' h => h.mono (Nat.le_add_left _ _)) fun _ _ h => h
  | notAhead q =>
      refine (Sim.notAhead fun i i' h => ?_).weaken
        (fun i i' h => h.mono (Nat.le_add_left _ _)) fun _ _ h => h
      rw [show t[i]? = t'[i']? by simpa using h.2.2 0 (Nat.zero_le _)]

/-- Position i of the text is position i' of what is left after c
characters; the first position is included when no lookbehind of q objects. -/
def Shift (t : List α) (c : Nat) (q : α → Bool) (i i' : Nat) : Prop :=
  i = c + i' ∧ (i' = 0 → (behind t c).any q = false)

theorem behind_drop (t : List α) (c i : Nat) : behind (t.drop c) (i + 1) = behind t (c + (i + 1)) := by
  simp [behind]

/-- Dropping a prefix changes a matcher only through its lookbehinds at the
first character kept. -/
theorem sim_drop (t : List α) (c : Nat) (r : Regex α) (q : α → Bool) (hq : ∀ x, r.rejectsBehind x → q x) :
    Sim t (t.drop c) (Shift t c q) r (Shift t c q) := by
  induction r with
  | cls p =>
      refine Sim.cls fun i i' h => ⟨by rw [List.getElem?_drop, h.1], fun _ => ⟨?_, by simp⟩⟩
      have := h.1; omega
  | seq r s ihr ihs =>
      exact (ihr fun x h => hq x (by simp [rejectsBehind, h])).seq
        (ihs fun x h => hq x (by simp [rejectsBehind, h]))
  | alt r s ihr ihs =>
      exact (ihr fun x h => hq x (by simp [rejectsBehind, h])).alt
        (ihs fun x h => hq x (by simp [rejectsBehind, h]))
  | rep r lo extra ih => exact (ih hq).rep lo extra
  | notBehind p =>
      refine Sim.notBehind fun i i' h => ?_
      cases i' with
      | zero =>
          have hc := h.2 rfl
          rw [h.1, Nat.add_zero]
          cases hb : behind t c with
          | none => rfl
          | some x =>
              have hx : q x = false := by simpa [hb] using hc
              have hp : p x = false := by
                rw [← Bool.not_eq_true] at hx ⊢
                exact fun h => hx (hq x h)
              simp [behind, hp]
      | succ i' => rw [h.1, behind_drop]
  | notAhead p => exact Sim.notAhead fun i i' h => by rw [List.getElem?_drop, h.1]

/-- Both texts are at the same position, and it is below k. -/
def Below (k i i' : Nat) : Prop := i = i' ∧ i < k

theorem behind_congr {k : Nat} (hk : ∀ i < k, t[i]? = t'[i]?) {i : Nat} (hi : i ≤ k) :
    behind t i = behind t' i := by
  cases i with
  | zero => rfl
  | succ i => exact hk i hi

/-- Texts that agree up to a character outside q are matched alike below it
by every expression that consumes only q. -/
theorem sim_below (t t' : List α) (k : Nat) (hk : ∀ i < k, t[i]? = t'[i]?) (q : α → Bool)
    (hb : (behind t k).any q = false) (r : Regex α) (hr : ∀ x, r.consumes x → q x) :
    Sim t t' (Below k) r (Below k) := by
  induction r with
  | cls p =>
      refine Sim.cls fun i i' h => ?_
      obtain ⟨rfl, hi⟩ := h
      refine ⟨by rw [hk i hi], fun hp => ⟨rfl, ?_⟩⟩
      have hne : i + 1 ≠ k := by
        rintro rfl
        have h := any_mono (fun c hc => hr c hc) hp
        simp [behind, h] at hb
      omega
  | seq r s ihr ihs =>
      exact (ihr fun x h => hr x (by simp [consumes, h])).seq
        (ihs fun x h => hr x (by simp [consumes, h]))
  | alt r s ihr ihs =>
      exact (ihr fun x h => hr x (by simp [consumes, h])).alt
        (ihs fun x h => hr x (by simp [consumes, h]))
  | rep r lo extra ih => exact (ih hr).rep lo extra
  | notBehind p =>
      refine Sim.notBehind fun i i' h => ?_
      obtain ⟨rfl, hi⟩ := h
      rw [behind_congr hk (Nat.le_of_lt hi)]
  | notAhead p =>
      refine Sim.notAhead fun i i' h => ?_
      obtain ⟨rfl, hi⟩ := h
      rw [hk i hi]

end Sim

section Delimited

variable {t : List α} {q d : α → Bool} {s : Regex α} {i a : Nat}

theorem repeatEnds_delimited {g : Nat → List Nat} (hg : ∀ p, t[p]?.any q → g p = [])
    (hrun : ∀ k, i ≤ k → k < a → t[k]?.any q) (hend : t[a]?.any q = false) {lo extra : Nat}
    (hlo : i + lo ≤ a) (hhi : a ≤ i + lo + extra) :
    (repeatEnds ((Regex.cls q).ends t) extra lo i).flatMap g = g a := by
  have hstep : ∀ p, t[p]?.any q → (Regex.cls q).ends t p = [p + 1] := fun p hp => if_pos hp
  induction lo generalizing i with
  | zero =>
      simp only [repeatEnds]
      induction extra generalizing i with
      | zero =>
          obtain rfl : i = a := by omega
          simp [optionalEnds]
      | succ k ih =>
          rw [optionalEnds, List.flatMap_append, List.flatMap_singleton]
          rcases Nat.eq_or_lt_of_le hlo with rfl | hlt
          · rw [Nat.add_zero] at hend ⊢
            simp [ends, hend]
          · have hi := hrun i (Nat.le_refl i) (by omega)
            rw [hstep i hi, List.flatMap_singleton, hg i hi, List.append_nil]
            exact ih (fun k hk => hrun k (by omega)) (by omega) (by omega)
  | succ m ih =>
      have hi := hrun i (Nat.le_refl i) (by omega)
      rw [repeatEnds, hstep i hi, List.flatMap_singleton]
      exact ih (fun k hk => hrun k (by omega)) (by omega) (by omega)

/-- A run of q in front of a delimiter can be matched in one way only. -/
theorem ends_delimited (hq : ∀ c, q c → d c = false) (hrun : ∀ k, i ≤ k → k < a → t[k]?.any q)
    (hend : t[a]?.any d) {lo extra : Nat} (hlo : i + lo ≤ a) (hhi : a ≤ i + lo + extra) :
    (Regex.seq (.rep (.cls q) lo extra) (.seq (.cls d) s)).ends t i = s.ends t (a + 1) := by
  have hqa : t[a]?.any q = false := by
    rw [← Bool.not_eq_true]
    intro h
    cases ht : t[a]? with
    | none => simp [ht] at h
    | some c =>
        rw [ht, Option.any_some] at h hend
        exact absurd hend (by simp [hq c h])
  have hg : ∀ p, t[p]?.any q → (Regex.seq (.cls d) s).ends t p = [] := by
    intro p hp
    have hd : t[p]?.any d = false := by
      cases ht : t[p]? with
      | none => rfl
      | some c =>
          rw [ht, Option.any_some] at hp
          exact hq c hp
    simp [ends, hd]
  rw [ends]
  change (repeatEnds ((Regex.cls q).ends t) extra lo i).flatMap _ = _
  rw [repeatEnds_delimited hg hrun hqa hlo hhi]
  simp [ends, hend]

/-- The end of the run that a match of q's and a delimiter begins with. -/
theorem exists_delimiter {lo extra j : Nat}
    (hj : j ∈ (Regex.seq (.rep (.cls q) lo extra) (.seq (.cls d) s)).ends t i) :
    ∃ a, i + lo ≤ a ∧ a ≤ i + lo + extra ∧ (∀ k, i ≤ k → k < a → t[k]?.any q) ∧ t[a]?.any d ∧
      j ∈ s.ends t (a + 1) := by
  obtain ⟨a, ha, hj⟩ := List.mem_flatMap.mp hj
  obtain ⟨b, hb, hj⟩ := List.mem_flatMap.mp hj
  have hbounds := ends_bounds _ t i a ha
  have hrun := ends_consumes _ t i a ha
  simp only [minWidth, width, Nat.mul_one] at hbounds
  rw [ends] at hb
  split at hb
  · next hd =>
      rw [List.mem_singleton.mp hb] at hj
      exact ⟨a, by omega, by omega, hrun, hd, hj⟩
  · exact absurd hb List.not_mem_nil

end Delimited
end Regex

end LlmGateway
