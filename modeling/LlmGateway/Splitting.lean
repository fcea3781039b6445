import Mathlib.Data.List.Basic

namespace LlmGateway.Splitting

variable {α : Type} [DecidableEq α] (sep : α)

/-- The pieces that a separator ends. -/
def pieces (t : List α) : List (List α) := (t.splitOn sep).dropLast

/-- What follows the last separator. -/
def rest (t : List α) : List α := (t.splitOn sep).getLast (List.splitOn_ne_nil sep t)

/-- All pieces, the last one only if it is not empty. -/
def records (t : List α) : List (List α) := pieces sep t ++ if rest sep t = [] then [] else [rest sep t]

variable {sep}

theorem splitOn_eq (t : List α) : t.splitOn sep = pieces sep t ++ [rest sep t] :=
  (List.dropLast_append_getLast _).symm

theorem pieces_rest_of_splitOn {t : List α} {ps : List (List α)} {r : List α}
    (h : t.splitOn sep = ps ++ [r]) : pieces sep t = ps ∧ rest sep t = r := by
  rw [splitOn_eq] at h
  obtain ⟨hps, hr⟩ := List.append_inj' h rfl
  exact ⟨hps, by simpa using hr⟩

theorem of_not_mem {t : List α} (h : sep ∉ t) : pieces sep t = [] ∧ rest sep t = t :=
  pieces_rest_of_splitOn (List.splitOn_eq_singleton h)

theorem append_cons {l : List α} (h : sep ∉ l) (t : List α) :
    pieces sep (l ++ sep :: t) = l :: pieces sep t ∧ rest sep (l ++ sep :: t) = rest sep t := by
  refine pieces_rest_of_splitOn ?_
  rw [List.splitOn_append_cons_self_of_not_mem h, splitOn_eq, List.cons_append]

/-- Splitting by the first separator, as an induction rule. -/
theorem inductionOn (sep : α) {motive : List α → Prop} (t : List α) (last : ∀ t, sep ∉ t → motive t)
    (first : ∀ l t, sep ∉ l → motive t → motive (l ++ sep :: t)) : motive t := by
  induction hn : t.length using Nat.strongRecOn generalizing t with
  | ind n ih =>
      by_cases h : sep ∈ t
      · obtain ⟨l, t', rfl, hl⟩ := List.eq_append_cons_of_mem h
        refine first l t' hl (ih _ ?_ t' rfl)
        rw [← hn, List.length_append, List.length_cons]
        omega
      · exact last t h

theorem not_mem_rest (t : List α) : sep ∉ rest sep t := by
  induction t using inductionOn sep with
  | last t h => rwa [(of_not_mem h).2]
  | first l t hl ih => rwa [(append_cons hl t).2]

theorem length_pieces (t : List α) : (pieces sep t).length = t.count sep := by
  induction t using inductionOn sep with
  | last t h => rw [(of_not_mem h).1, List.count_eq_zero_of_not_mem h, List.length_nil]
  | first l t hl ih =>
      rw [(append_cons hl t).1, List.length_cons, ih, List.count_append, List.count_cons_self,
        List.count_eq_zero_of_not_mem hl, Nat.zero_add]

/-- Only what follows the last separator is still open when more arrives. -/
theorem append (a b : List α) :
    pieces sep (a ++ b) = pieces sep a ++ pieces sep (rest sep a ++ b) ∧
      rest sep (a ++ b) = rest sep (rest sep a ++ b) := by
  induction a using inductionOn sep with
  | last a h => rw [(of_not_mem h).1, (of_not_mem h).2]; exact ⟨rfl, rfl⟩
  | first l a hl ih =>
      rw [List.append_assoc, List.cons_append, (append_cons hl _).1, (append_cons hl _).2,
        (append_cons hl _).1, (append_cons hl _).2, ih.1, ih.2]
      exact ⟨rfl, rfl⟩

theorem pieces_append (a b : List α) :
    pieces sep (a ++ b) = pieces sep a ++ pieces sep (rest sep a ++ b) := (append a b).1

theorem rest_append (a b : List α) : rest sep (a ++ b) = rest sep (rest sep a ++ b) := (append a b).2

theorem mem_of_mem_pieces {t l : List α} {a : α} (h : l ∈ pieces sep t) (ha : a ∈ l) : a ∈ t := by
  induction t using inductionOn sep with
  | last t ht => rw [(of_not_mem ht).1] at h; cases h
  | first l' t hl ih =>
      rw [(append_cons hl t).1, List.mem_cons] at h
      rcases h with rfl | h
      · exact List.mem_append_left _ ha
      · exact List.mem_append_right _ (List.mem_cons_of_mem _ (ih h))

theorem mem_of_mem_rest {t : List α} {a : α} (ha : a ∈ rest sep t) : a ∈ t := by
  induction t using inductionOn sep with
  | last t ht => rwa [(of_not_mem ht).2] at ha
  | first l t hl ih =>
      rw [(append_cons hl t).2] at ha
      exact List.mem_append_right _ (List.mem_cons_of_mem _ (ih ha))

theorem flatMap_pieces (t : List α) : (pieces sep t).flatMap (· ++ [sep]) ++ rest sep t = t := by
  induction t using inductionOn sep with
  | last t h => rw [(of_not_mem h).1, (of_not_mem h).2, List.flatMap_nil, List.nil_append]
  | first l t hl ih =>
      rw [(append_cons hl t).1, (append_cons hl t).2, List.flatMap_cons, List.append_assoc, List.append_assoc, ih]
      rfl

/-- A prefix of lines that end with the separator is some of the lines and a
prefix of the next one. -/
theorem of_prefix {ls : List (List α)} (hls : ∀ l ∈ ls, sep ∉ l) {t : List α} (h : t <+: ls.flatMap (· ++ [sep])) :
    ∃ n, pieces sep t = ls.take n ∧ rest sep t <+: (ls[n]?).getD [] := by
  induction ls generalizing t with
  | nil =>
      rw [List.flatMap_nil, List.prefix_nil] at h
      subst h
      exact ⟨0, (of_not_mem List.not_mem_nil).1, by rw [(of_not_mem List.not_mem_nil).2]; exact List.nil_prefix⟩
  | cons l ls ih =>
      obtain ⟨hl, hls⟩ := List.forall_mem_cons.mp hls
      rw [List.flatMap_cons, List.append_assoc, List.singleton_append] at h
      rcases Nat.lt_or_ge l.length t.length with hlt | hge
      · obtain ⟨t', rfl⟩ : ∃ t', t = l ++ sep :: t' := by
          have hsplit : l ++ [sep] <+: t := by
            refine List.prefix_of_prefix_length_le ⟨ls.flatMap (· ++ [sep]), ?_⟩ h (by rw [List.length_append]; exact hlt)
            rw [List.append_assoc, List.singleton_append]
          obtain ⟨t', rfl⟩ := hsplit
          exact ⟨t', by rw [List.append_assoc, List.singleton_append]⟩
        rw [List.prefix_append_right_inj, List.cons_prefix_cons] at h
        obtain ⟨n, hn, hr⟩ := ih hls h.2
        rw [(append_cons hl t').1, (append_cons hl t').2]
        exact ⟨n + 1, by rw [hn, List.take_succ_cons], by simpa using hr⟩
      · have ht : t <+: l := List.prefix_of_prefix_length_le h (List.prefix_append _ _) hge
        have hsep : sep ∉ t := fun hmem => hl (ht.subset hmem)
        exact ⟨0, (of_not_mem hsep).1, by rw [(of_not_mem hsep).2]; exact ht⟩

/-- What has no separator only lengthens what is still open. -/
theorem append_of_not_mem {t u : List α} (hu : sep ∉ u) :
    pieces sep (t ++ u) = pieces sep t ∧ rest sep (t ++ u) = rest sep t ++ u := by
  have hopen : sep ∉ rest sep t ++ u := by
    rw [List.mem_append, not_or]
    exact ⟨not_mem_rest t, hu⟩
  rw [(append t u).1, (append t u).2, (of_not_mem hopen).1, (of_not_mem hopen).2, List.append_nil]
  exact ⟨rfl, rfl⟩

/-- The records and the number of separators determine the whole. -/
theorem eq_of_records_eq {a b : List α} (hc : a.count sep = b.count sep)
    (h : records sep a = records sep b) : a = b := by
  have hlen : (pieces sep a).length = (pieces sep b).length := by rw [length_pieces, length_pieces, hc]
  obtain ⟨hp, hr⟩ := List.append_inj h hlen
  have hrest : rest sep a = rest sep b := by
    by_cases ha : rest sep a = [] <;> by_cases hb : rest sep b = [] <;> simp [ha, hb] at hr ⊢
    exact hr
  have hs : a.splitOn sep = b.splitOn sep := by rw [splitOn_eq, splitOn_eq, hp, hrest]
  calc
    a = List.intercalate [sep] (a.splitOn sep) := (List.intercalate_splitOn sep).symm
    _ = List.intercalate [sep] (b.splitOn sep) := by rw [hs]
    _ = b := List.intercalate_splitOn sep

end LlmGateway.Splitting
