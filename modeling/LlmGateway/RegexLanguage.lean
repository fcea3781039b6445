import LlmGateway.PyText
import LlmGateway.Regex

namespace LlmGateway.Regex

variable {α : Type} {r s : Regex α} {t u v w : List α} {i j k : Nat}

/-- The words of an expression, its lookarounds aside. -/
inductive Spells : Regex α → List α → Prop
  | cls {q : α → Bool} {c : α} (h : q c) : Spells (.cls q) [c]
  | seq {r s : Regex α} {u v : List α} (hr : Spells r u) (hs : Spells s v) : Spells (.seq r s) (u ++ v)
  | left {r s : Regex α} {u : List α} (h : Spells r u) : Spells (.alt r s) u
  | right {r s : Regex α} {u : List α} (h : Spells s u) : Spells (.alt r s) u
  | stop {r : Regex α} {extra : Nat} : Spells (.rep r 0 extra) []
  | more {r : Regex α} {extra : Nat} {u v : List α} (hr : Spells r u) (hs : Spells (.rep r 0 extra) v) :
      Spells (.rep r 0 (extra + 1)) (u ++ v)
  | due {r : Regex α} {lo extra : Nat} {u v : List α} (hr : Spells r u) (hs : Spells (.rep r lo extra) v) :
      Spells (.rep r (lo + 1) extra) (u ++ v)
  | notBehind {q : α → Bool} : Spells (.notBehind q) []
  | notAhead {q : α → Bool} : Spells (.notAhead q) []

def lookFree : Regex α → Bool
  | .cls _ => true
  | .seq r s | .alt r s => r.lookFree && s.lookFree
  | .rep r _ _ => r.lookFree
  | .notBehind _ | .notAhead _ => false

section Language

theorem le_of_ends (hj : j ∈ r.ends t i) : i ≤ j :=
  Nat.le_of_add_right_le (ends_bounds r t i j hj).1

theorem le_of_repeatEnds {f : Nat → List Nat} (hf : ∀ i, ∀ j ∈ f i, i ≤ j) (lo extra : Nat) (i : Nat) :
    ∀ j ∈ repeatEnds f extra lo i, i ≤ j :=
  repeatEnds_invariant (P := fun j => i ≤ j) (fun k hk j hj => Nat.le_trans hk (hf k j hj)) lo extra i (Nat.le_refl i)

theorem spells_of_repeatEnds (hr : ∀ i, ∀ j ∈ r.ends t i, Spells r (slice t i j)) (lo extra i : Nat) :
    ∀ j ∈ repeatEnds (r.ends t) extra lo i, Spells (.rep r lo extra) (slice t i j) := by
  have hle := le_of_repeatEnds (f := r.ends t) fun i j => le_of_ends
  induction lo generalizing i with
  | zero =>
      induction extra generalizing i with
      | zero =>
          intro j hj
          rw [List.mem_singleton.mp hj, slice_self]
          exact Spells.stop
      | succ n ih =>
          intro j hj
          rcases List.mem_append.mp hj with hj | hj
          · obtain ⟨k, hk, hj⟩ := List.mem_flatMap.mp hj
            rw [← slice_append (le_of_ends hk) (hle 0 n k j hj)]
            exact Spells.more (hr i k hk) (ih k j hj)
          · rw [List.mem_singleton.mp hj, slice_self]
            exact Spells.stop
  | succ n ih =>
      intro j hj
      obtain ⟨k, hk, hj⟩ := List.mem_flatMap.mp hj
      rw [← slice_append (le_of_ends hk) (hle n extra k j hj)]
      exact Spells.due (hr i k hk) (ih k j hj)

theorem spells_of_ends (r : Regex α) (t : List α) (i : Nat) : ∀ j ∈ r.ends t i, Spells r (slice t i j) := by
  induction r generalizing i with
  | cls q =>
      intro j hj
      rw [ends] at hj
      cases hc : t[i]? with
      | none => simp [hc] at hj
      | some c =>
          rw [hc, Option.any_some] at hj
          split at hj
          · next hq =>
              rw [List.mem_singleton.mp hj, slice_one hc]
              exact Spells.cls hq
          · exact absurd hj List.not_mem_nil
  | seq r s ihr ihs =>
      intro j hj
      obtain ⟨k, hk, hj⟩ := List.mem_flatMap.mp hj
      rw [← slice_append (le_of_ends hk) (le_of_ends hj)]
      exact Spells.seq (ihr i k hk) (ihs k j hj)
  | alt r s ihr ihs =>
      intro j hj
      rcases List.mem_append.mp hj with hj | hj
      · exact Spells.left (ihr i j hj)
      · exact Spells.right (ihs i j hj)
  | rep r lo extra ih => exact spells_of_repeatEnds ih lo extra i
  | notBehind q =>
      intro j hj
      rw [ends] at hj
      split at hj
      · exact absurd hj List.not_mem_nil
      · rw [List.mem_singleton.mp hj, slice_self]
        exact Spells.notBehind
  | notAhead q =>
      intro j hj
      rw [ends] at hj
      split at hj
      · exact absurd hj List.not_mem_nil
      · rw [List.mem_singleton.mp hj, slice_self]
        exact Spells.notAhead

theorem prefix_of_append (h : u ++ v <+: t.drop i) : u <+: t.drop i ∧ v <+: t.drop (i + u.length) := by
  obtain ⟨rest, h⟩ := h
  refine ⟨⟨v ++ rest, by rw [← List.append_assoc, h]⟩, ⟨rest, ?_⟩⟩
  rw [← List.drop_drop, ← h, List.append_assoc, List.drop_left]

theorem ends_of_spells (h : Spells r w) (hr : r.lookFree) (hw : w <+: t.drop i) : i + w.length ∈ r.ends t i := by
  induction h generalizing i with
  | @cls q c hq =>
      obtain ⟨rest, hrest⟩ := hw
      have hc : t[i]? = some c := by
        have h0 := congrArg (fun l : List α => l[0]?) hrest
        simpa using h0.symm
      simp [ends, hc, hq]
  | @seq r s u v _ _ ihr ihs =>
      simp only [lookFree, Bool.and_eq_true] at hr
      obtain ⟨hu, hv⟩ := prefix_of_append hw
      rw [List.length_append, ← Nat.add_assoc]
      exact List.mem_flatMap.mpr ⟨_, ihr hr.1 hu, ihs hr.2 hv⟩
  | left _ ih =>
      simp only [lookFree, Bool.and_eq_true] at hr
      exact List.mem_append_left _ (ih hr.1 hw)
  | right _ ih =>
      simp only [lookFree, Bool.and_eq_true] at hr
      exact List.mem_append_right _ (ih hr.2 hw)
  | @stop r extra =>
      change i ∈ optionalEnds (r.ends t) extra i
      cases extra with
      | zero => exact List.mem_singleton_self i
      | succ n => exact List.mem_append_right _ (List.mem_singleton_self i)
  | @more r extra u v _ _ ihr ihs =>
      obtain ⟨hu, hv⟩ := prefix_of_append hw
      rw [List.length_append, ← Nat.add_assoc]
      exact List.mem_append_left _ (List.mem_flatMap.mpr ⟨_, ihr hr hu, ihs hr hv⟩)
  | @due r lo extra u v _ _ ihr ihs =>
      obtain ⟨hu, hv⟩ := prefix_of_append hw
      rw [List.length_append, ← Nat.add_assoc]
      exact List.mem_flatMap.mpr ⟨_, ihr hr hu, ihs hr hv⟩
  | notBehind => exact absurd hr (by simp [lookFree])
  | notAhead => exact absurd hr (by simp [lookFree])

/-- Without lookarounds the ends of a match are the ends of the words of the expression. -/
theorem mem_ends_iff (hr : r.lookFree) (hij : i ≤ j) (hj : j ≤ t.length) :
    j ∈ r.ends t i ↔ Spells r (slice t i j) := by
  constructor
  · exact spells_of_ends r t i j
  · intro h
    have hw : slice t i j <+: t.drop i := by
      rw [← slice_append_drop hij]
      exact List.prefix_append _ _
    have hend := ends_of_spells h hr hw
    rwa [slice_length hj, Nat.add_sub_cancel' hij] at hend

end Language

section Descending

/-- The later an end is tried, the shorter the match. -/
def Descending (l : List Nat) : Prop := l.Pairwise (· > ·)

theorem Descending.le_head {l : List Nat} {e : Nat} (h : Descending l) (he : l.head? = some e) : ∀ j ∈ l, j ≤ e := by
  cases l with
  | nil => exact fun j hj => absurd hj List.not_mem_nil
  | cons a l =>
      simp only [List.head?_cons, Option.some.injEq] at he
      obtain ⟨h1, -⟩ := List.pairwise_cons.mp h
      intro j hj
      rcases List.mem_cons.mp hj with rfl | hj
      · exact Nat.le_of_eq he
      · exact he ▸ Nat.le_of_lt (h1 j hj)

/-- Ends in descending order are determined by which they are. -/
theorem Descending.ext {l l' : List Nat} (h : Descending l) (h' : Descending l') (hmem : ∀ j, j ∈ l ↔ j ∈ l') : l = l' := by
  have hnodup {l : List Nat} (h : Descending l) : l.Nodup := h.imp fun hgt => Nat.ne_of_gt hgt
  exact ((List.perm_ext_iff_of_nodup (hnodup h) (hnodup h')).mpr hmem).eq_of_pairwise
    (fun a b _ _ hab hba => absurd hab (Nat.lt_asymm hba)) h h'

theorem descending_of_length {l : List Nat} (h : l.length ≤ 1) : Descending l := by
  match l with
  | [] => exact List.Pairwise.nil
  | [a] => exact List.pairwise_singleton _ a
  | a :: b :: l => simp at h

/-- At most one way to go on leaves the order to what follows. -/
theorem descending_flatMap {l : List Nat} {g : Nat → List Nat} (hl : l.length ≤ 1) (hg : ∀ k, Descending (g k)) :
    Descending (l.flatMap g) := by
  match l with
  | [] => exact List.Pairwise.nil
  | [a] => rw [List.flatMap_singleton]; exact hg a
  | a :: b :: l => simp at hl

theorem length_flatMap_le_one {l : List Nat} {g : Nat → List Nat} (hl : l.length ≤ 1) (hg : ∀ k, (g k).length ≤ 1) :
    (l.flatMap g).length ≤ 1 := by
  match l with
  | [] => exact Nat.zero_le 1
  | [a] => rw [List.flatMap_singleton]; exact hg a
  | a :: b :: l => simp at hl

theorem length_cls (q : α → Bool) (t : List α) (i : Nat) : ((Regex.cls q).ends t i).length ≤ 1 := by
  rw [ends]
  split <;> simp

theorem length_notAhead (q : α → Bool) (t : List α) (i : Nat) : ((Regex.notAhead q).ends t i).length ≤ 1 := by
  rw [ends]
  split <;> simp

theorem length_exact {f : Nat → List Nat} (hf : ∀ i, (f i).length ≤ 1) (lo i : Nat) :
    (repeatEnds f 0 lo i).length ≤ 1 := by
  induction lo generalizing i with
  | zero => exact Nat.le_refl 1
  | succ n ih => exact length_flatMap_le_one (hf i) ih

theorem descending_repeatEnds {f : Nat → List Nat} (hf : ∀ i, (f i).length ≤ 1) (hlt : ∀ i, ∀ j ∈ f i, i < j)
    (lo extra i : Nat) : Descending (repeatEnds f extra lo i) := by
  have hle := le_of_repeatEnds (f := f) fun i j hj => Nat.le_of_lt (hlt i j hj)
  induction lo generalizing i with
  | zero =>
      induction extra generalizing i with
      | zero => exact List.pairwise_singleton _ i
      | succ n ih =>
          refine List.pairwise_append.mpr ⟨descending_flatMap (hf i) ih, List.pairwise_singleton _ i, ?_⟩
          intro x hx y hy
          obtain ⟨k, hk, hx⟩ := List.mem_flatMap.mp hx
          rw [List.mem_singleton.mp hy]
          exact Nat.lt_of_lt_of_le (hlt i k hk) (hle 0 n k x hx)
  | succ n ih => exact descending_flatMap (hf i) ih

/-- A lookahead only leaves ends out. -/
theorem descending_notAhead {l : List Nat} (h : Descending l) (q : α → Bool) (t : List α) :
    Descending (l.flatMap ((Regex.notAhead q).ends t)) := by
  refine h.sublist ?_
  induction l with
  | nil => exact List.Sublist.refl _
  | cons a l ih =>
      have hl := ih (List.pairwise_cons.mp h).2
      rw [List.flatMap_cons, ends]
      split
      · exact hl.cons a
      · exact hl.cons_cons a

/-- Where only one of the ends is followed by what has to come next, that one decides. -/
theorem descending_delimited {g : Nat → List Nat} {d : α → Bool} (hr : Descending (r.ends t i))
    (hd : ∀ c, r.consumes c → d c = false) (hg : ∀ k, Descending (g k)) (hstop : ∀ k, g k ≠ [] → t[k]?.any d) :
    Descending ((r.ends t i).flatMap g) := by
  refine List.pairwise_flatMap.mpr ⟨fun k _ => hg k, ?_⟩
  refine hr.imp_of_mem fun {a b} ha hb hab x _ y hy => ?_
  have hconsumed := ends_consumes r t i a ha b (le_of_ends hb) hab
  have hdelim := hstop b (List.ne_nil_of_mem hy)
  cases hc : t[b]? with
  | none => rw [hc] at hdelim; exact absurd hdelim (by simp)
  | some c =>
      rw [hc, Option.any_some] at hconsumed hdelim
      rw [hd c hconsumed] at hdelim
      exact absurd hdelim (by simp)

end Descending

end LlmGateway.Regex
