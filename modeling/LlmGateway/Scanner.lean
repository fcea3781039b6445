import LlmGateway.Regex

namespace LlmGateway

variable {α κ : Type}

/-- The interval that a match covers, under the name of its alternative. -/
structure Span (κ : Type) where
  name : κ
  start : Nat
  stop : Nat
  deriving DecidableEq, Repr

namespace Span

def shift (c : Nat) (m : Span κ) : Span κ := ⟨m.name, c + m.start, c + m.stop⟩

@[simp] theorem shift_start (c : Nat) (m : Span κ) : (m.shift c).start = c + m.start := rfl
@[simp] theorem shift_stop (c : Nat) (m : Span κ) : (m.shift c).stop = c + m.stop := rfl

theorem shift_injective (c : Nat) : Function.Injective (shift (κ := κ) c) := by
  rintro ⟨n, i, j⟩ ⟨n', i', j'⟩ h
  simp only [shift, mk.injEq, Nat.add_left_cancel_iff] at h
  obtain ⟨rfl, rfl, rfl⟩ := h
  rfl

theorem shift_shift (b c : Nat) (m : Span κ) : (m.shift c).shift b = m.shift (b + c) := by
  simp [shift, Nat.add_assoc]

end Span

/-- What a left-to-right search needs of a matcher: a match starts where it
was tried, is not empty and stays inside the text. -/
structure Scanner (κ : Type) where
  size : Nat
  matchAt : Nat → Option (Span κ)
  start_eq : ∀ {i m}, matchAt i = some m → m.start = i
  lt_stop : ∀ {i m}, matchAt i = some m → i < m.stop
  stop_le : ∀ {i m}, matchAt i = some m → m.stop ≤ size

def scan (matchAt : Nat → Option (Span κ)) : Nat → Nat → List (Span κ)
  | 0, _ => []
  | n + 1, i => match matchAt i with
    | some m => m :: scan matchAt n m.stop
    | none => scan matchAt n (i + 1)

namespace Scanner

variable (S : Scanner κ)

/-- The successive non-overlapping matches from position i on. -/
def spansFrom (i : Nat) : List (Span κ) := scan S.matchAt (S.size - i) i

variable {S}

theorem matchAt_ge {i : Nat} (hi : S.size ≤ i) : S.matchAt i = none := by
  cases h : S.matchAt i with
  | none => rfl
  | some m =>
      have h1 := S.lt_stop h
      have h2 := S.stop_le h
      omega

theorem scan_fuel (n i : Nat) (hn : S.size - i ≤ n) : scan S.matchAt n i = S.spansFrom i := by
  induction n using Nat.strongRecOn generalizing i with
  | ind n ih =>
      rw [spansFrom]
      cases n with
      | zero => rw [Nat.le_zero.mp hn]
      | succ n =>
          rcases Nat.lt_or_ge i S.size with hi | hi
          · obtain ⟨k, hk⟩ : ∃ k, S.size - i = k + 1 := ⟨S.size - i - 1, by omega⟩
            rw [hk, scan, scan]
            cases h : S.matchAt i with
            | none => simp only [ih n (by omega) (i + 1) (by omega), ih k (by omega) (i + 1) (by omega)]
            | some m =>
                have hm := S.lt_stop h
                simp only [ih n (by omega) m.stop (by omega), ih k (by omega) m.stop (by omega)]
          · have h := ih n (by omega) (i + 1) (by omega)
            rw [spansFrom, Nat.sub_eq_zero_of_le (Nat.le_succ_of_le hi), scan] at h
            simp only [Nat.sub_eq_zero_of_le hi, scan, matchAt_ge hi, h]

theorem spansFrom_ge {i : Nat} (hi : S.size ≤ i) : S.spansFrom i = [] := by
  rw [spansFrom, Nat.sub_eq_zero_of_le hi, scan]

theorem spansFrom_none {i : Nat} (h : S.matchAt i = none) : S.spansFrom i = S.spansFrom (i + 1) := by
  rw [← scan_fuel (S.size - i + 1) i (by omega), scan, h]
  exact scan_fuel _ _ (by omega)

theorem spansFrom_some {i : Nat} {m : Span κ} (h : S.matchAt i = some m) :
    S.spansFrom i = m :: S.spansFrom m.stop := by
  have hm := S.lt_stop h
  rw [← scan_fuel (S.size - i + 1) i (by omega), scan, h]
  simp only [scan_fuel (S := S) (S.size - i) m.stop (by omega)]

/-- Induction along the search: past the end, over a position without a
match, over a match. -/
theorem scanInduction {motive : Nat → Prop} (past : ∀ i, S.size ≤ i → motive i)
    (skip : ∀ i, i < S.size → S.matchAt i = none → motive (i + 1) → motive i)
    (hit : ∀ i m, S.matchAt i = some m → motive m.stop → motive i) (i : Nat) : motive i := by
  induction hn : S.size - i using Nat.strongRecOn generalizing i with
  | ind n ih =>
      rcases Nat.lt_or_ge i S.size with hi | hi
      · cases h : S.matchAt i with
        | none => exact skip i hi h (ih _ (by omega) (i + 1) rfl)
        | some m =>
            have hm := S.lt_stop h
            exact hit i m h (ih _ (by omega) m.stop rfl)
      · exact past i hi

theorem spansFrom_start_ge (i : Nat) : ∀ m ∈ S.spansFrom i, i ≤ m.start := by
  induction i using scanInduction (S := S) with
  | past i hi => simp [spansFrom_ge hi]
  | skip i _ h ih =>
      rw [spansFrom_none h]
      exact fun m hm => Nat.le_of_succ_le (ih m hm)
  | hit i m h ih =>
      have hm := S.lt_stop h
      rw [spansFrom_some h, List.forall_mem_cons]
      exact ⟨Nat.le_of_eq (S.start_eq h).symm, fun m' hm' => Nat.le_trans (Nat.le_of_lt hm) (ih m' hm')⟩

theorem matchAt_of_mem (i : Nat) : ∀ m ∈ S.spansFrom i, S.matchAt m.start = some m := by
  induction i using scanInduction (S := S) with
  | past i hi => simp [spansFrom_ge hi]
  | skip i _ h ih =>
      rw [spansFrom_none h]
      exact ih
  | hit i m h ih =>
      rw [spansFrom_some h, List.forall_mem_cons]
      exact ⟨by rw [S.start_eq h, h], ih⟩

theorem exists_span {i k : Nat} {m : Span κ} (h : S.matchAt k = some m) (hi : i ≤ k) :
    ∃ m' ∈ S.spansFrom i, m'.start ≤ k ∧ k < m'.stop := by
  induction i using scanInduction (S := S) with
  | past i hs =>
      rw [matchAt_ge (Nat.le_trans hs hi)] at h
      exact absurd h (by simp)
  | skip i _ hn ih =>
      have hne : i ≠ k := by
        rintro rfl
        rw [hn] at h
        exact absurd h (by simp)
      rw [spansFrom_none hn]
      exact ih (by omega)
  | hit i m' hm ih =>
      rw [spansFrom_some hm]
      by_cases hk : k < m'.stop
      · exact ⟨m', List.mem_cons_self, by rw [S.start_eq hm]; exact hi, hk⟩
      · obtain ⟨n, hn, hcover⟩ := ih (Nat.le_of_not_lt hk)
        exact ⟨n, List.mem_cons_of_mem _ hn, hcover⟩

theorem spansFrom_eq_nil {i : Nat} (h : ∀ k, i ≤ k → S.matchAt k = none) : S.spansFrom i = [] := by
  induction i using scanInduction (S := S) with
  | past i hi => exact spansFrom_ge hi
  | skip i _ hi ih =>
      rw [spansFrom_none hi]
      exact ih fun k hk => h k (Nat.le_of_succ_le hk)
  | hit i m hm _ =>
      rw [h i (Nat.le_refl i)] at hm
      exact absurd hm (by simp)

/-- A search that is c characters ahead of another finds the same matches. -/
theorem spansFrom_shift {T : Scanner κ} {c n : Nat}
    (h : ∀ i, n ≤ i → S.matchAt (c + i) = (T.matchAt i).map (Span.shift c)) (i : Nat) (hi : n ≤ i) :
    S.spansFrom (c + i) = (T.spansFrom i).map (Span.shift c) := by
  induction i using scanInduction (S := T) with
  | past i hs =>
      rw [spansFrom_ge hs, List.map_nil]
      refine spansFrom_eq_nil fun k hk => ?_
      obtain ⟨d, rfl⟩ := Nat.exists_eq_add_of_le hk
      rw [Nat.add_assoc, h (i + d) (by omega), matchAt_ge (by omega), Option.map_none]
  | skip i _ hm ih =>
      have hn : S.matchAt (c + i) = none := by rw [h i hi, hm, Option.map_none]
      rw [spansFrom_none hm, spansFrom_none hn]
      exact ih (by omega)
  | hit i m hm ih =>
      have hl := T.lt_stop hm
      have hn : S.matchAt (c + i) = some (m.shift c) := by rw [h i hi, hm, Option.map_some]
      rw [spansFrom_some hm, spansFrom_some hn, List.map_cons]
      exact congrArg _ (ih (by omega))

/-- A search goes through another text as long as the two match alike. -/
theorem spansFrom_append {T : Scanner κ} (h : ∀ i < T.size, S.matchAt i = T.matchAt i) (i : Nat) (hi : i ≤ T.size) :
    S.spansFrom i = T.spansFrom i ++ S.spansFrom T.size := by
  induction i using scanInduction (S := T) with
  | past i hs => rw [spansFrom_ge hs, Nat.le_antisymm hi hs, List.nil_append]
  | skip i hlt hm ih =>
      rw [spansFrom_none hm, spansFrom_none ((h i hlt).trans hm), ih hlt]
  | hit i m hm ih =>
      have hlt : i < T.size := Nat.lt_of_lt_of_le (T.lt_stop hm) (T.stop_le hm)
      rw [spansFrom_some hm, spansFrom_some ((h i hlt).trans hm), ih (T.stop_le hm), List.cons_append]

/-- Position s is where a search from i has to be cut so that what starts
below g and ends by g stays whole: at g, or where a match straddles g. -/
structure Cut (S : Scanner κ) (i s g : Nat) : Prop where
  ge : i ≤ s
  le : s ≤ g
  reaches : ∃ pre, S.spansFrom i = pre ++ S.spansFrom s ∧ ∀ m ∈ pre, m.stop ≤ s
  straddles : s = g ∨ ∃ m, S.matchAt s = some m ∧ s < g ∧ g < m.stop

/-- The cut of the whole search. -/
def cutPoint (S : Scanner κ) (g : Nat) : Nat :=
  match (S.spansFrom 0).find? fun m => m.start < g && g < m.stop with
  | some m => m.start
  | none => g

theorem Cut.cutPoint_eq {s g : Nat} (h : Cut S 0 s g) : S.cutPoint g = s := by
  obtain ⟨pre, hpre, hstop⟩ := h.reaches
  have hle := h.le
  have hnone : pre.find? (fun m => m.start < g && g < m.stop) = none := by
    refine List.find?_eq_none.mpr fun m hm => ?_
    have := hstop m hm
    simp only [Bool.and_eq_true, decide_eq_true_eq]
    omega
  rw [cutPoint, hpre, List.find?_append, hnone, Option.none_or]
  rcases h.straddles with rfl | ⟨m, hm, hs, hg⟩
  · have hrest : (S.spansFrom s).find? (fun m => m.start < s && s < m.stop) = none := by
      refine List.find?_eq_none.mpr fun m hm => ?_
      have := spansFrom_start_ge s m hm
      simp only [Bool.and_eq_true, decide_eq_true_eq]
      omega
    rw [hrest]
  · have hstart := S.start_eq hm
    rw [spansFrom_some hm, List.find?_cons_of_pos (by simp [hstart, hs, hg])]
    exact hstart

theorem Cut.of_none {i s g : Nat} (h : S.matchAt i = none) (hc : Cut S (i + 1) s g) : Cut S i s g :=
  ⟨Nat.le_of_succ_le hc.ge, hc.le, by rw [spansFrom_none h]; exact hc.reaches, hc.straddles⟩

theorem Cut.of_some {i s g : Nat} {m : Span κ} (h : S.matchAt i = some m) (hc : Cut S m.stop s g) :
    Cut S i s g := by
  obtain ⟨pre, hpre, hstop⟩ := hc.reaches
  have hm := S.lt_stop h
  have hs := hc.ge
  refine ⟨by omega, hc.le, ⟨m :: pre, by rw [spansFrom_some h, hpre, List.cons_append], ?_⟩, hc.straddles⟩
  exact List.forall_mem_cons.mpr ⟨hs, hstop⟩

theorem Cut.here (i : Nat) : Cut S i i i :=
  ⟨Nat.le_refl i, Nat.le_refl i, ⟨[], rfl, by simp⟩, Or.inl rfl⟩

theorem Cut.self {i s g : Nat} (h : Cut S i s g) : Cut S i s s :=
  ⟨h.ge, Nat.le_refl s, h.reaches, Or.inl rfl⟩

theorem Cut.skip {i s : Nat} (h : Cut S i s s) (hs : S.matchAt s = none) : Cut S i (s + 1) (s + 1) := by
  obtain ⟨pre, hpre, hstop⟩ := h.reaches
  exact ⟨Nat.le_succ_of_le h.ge, Nat.le_refl _, ⟨pre, by rw [hpre, spansFrom_none hs],
    fun m hm => Nat.le_succ_of_le (hstop m hm)⟩, Or.inl rfl⟩

theorem Cut.hit {i s : Nat} {m : Span κ} (h : Cut S i s s) (hm : S.matchAt s = some m) : Cut S i m.stop m.stop := by
  obtain ⟨pre, hpre, hstop⟩ := h.reaches
  have hlt := S.lt_stop hm
  have hge := h.ge
  refine ⟨by omega, Nat.le_refl _, ⟨pre ++ [m], by rw [hpre, spansFrom_some hm, List.append_assoc]; rfl, ?_⟩, Or.inl rfl⟩
  intro m' hm'
  rcases List.mem_append.mp hm' with hm' | hm'
  · have := hstop m' hm'
    omega
  · exact Nat.le_of_eq (congrArg Span.stop (List.mem_singleton.mp hm'))

theorem Cut.mem {i s : Nat} {m : Span κ} (h : Cut S i s s) (hm : S.matchAt s = some m) : m ∈ S.spansFrom i := by
  obtain ⟨pre, hpre, -⟩ := h.reaches
  rw [hpre, spansFrom_some hm]
  exact List.mem_append_right pre List.mem_cons_self

theorem Cut.not_inside {i s : Nat} (h : Cut S i s s) : ∀ m ∈ S.spansFrom i, ¬ (m.start < s ∧ s < m.stop) := by
  obtain ⟨pre, hpre, hstop⟩ := h.reaches
  rw [hpre]
  intro m hm
  rcases List.mem_append.mp hm with hm | hm
  · have := hstop m hm
    omega
  · have := spansFrom_start_ge s m hm
    omega

theorem cut_of_mem {i : Nat} {m : Span κ} (hm : m ∈ S.spansFrom i) : Cut S i m.stop m.stop := by
  induction i using scanInduction (S := S) with
  | past i hs =>
      rw [spansFrom_ge hs] at hm
      exact absurd hm List.not_mem_nil
  | skip i _ h ih =>
      rw [spansFrom_none h] at hm
      exact (ih hm).of_none h
  | hit i m' h ih =>
      rw [spansFrom_some h] at hm
      rcases List.mem_cons.mp hm with rfl | hm
      · exact (Cut.here i).hit h
      · exact (ih hm).of_some h

theorem Cut.straddling {i g : Nat} {m : Span κ} (h : S.matchAt i = some m) (hi : i < g) (hm : g < m.stop) :
    Cut S i i g :=
  ⟨Nat.le_refl i, Nat.le_of_lt hi, ⟨[], rfl, by simp⟩, Or.inr ⟨m, h, hi, hm⟩⟩

theorem exists_cut (i g : Nat) (hi : i ≤ g) (hg : g ≤ S.size) : ∃ s, Cut S i s g := by
  induction i using scanInduction (S := S) with
  | past i hs => exact ⟨i, (show i = g by omega) ▸ Cut.here i⟩
  | skip i _ h ih =>
      rcases Nat.eq_or_lt_of_le hi with rfl | hlt
      · exact ⟨i, Cut.here i⟩
      · obtain ⟨s, hs⟩ := ih hlt
        exact ⟨s, hs.of_none h⟩
  | hit i m h ih =>
      rcases Nat.eq_or_lt_of_le hi with rfl | hlt
      · exact ⟨i, Cut.here i⟩
      · rcases Nat.lt_or_ge g m.stop with hm | hm
        · exact ⟨i, Cut.straddling h hlt hm⟩
        · obtain ⟨s, hs⟩ := ih hm
          exact ⟨s, hs.of_some h⟩

/-- A cut in the part of a text that is left from c on is a cut of the whole. -/
theorem Cut.shift {S' : Scanner κ} {c s g : Nat}
    (h : ∀ i, S.matchAt (c + i) = (S'.matchAt i).map (Span.shift c)) (hc : Cut S 0 c c) (hs : Cut S' 0 s g) :
    Cut S 0 (c + s) (c + g) := by
  have hle := hs.le
  obtain ⟨pre, hpre, hstop⟩ := hc.reaches
  obtain ⟨pre', hpre', hstop'⟩ := hs.reaches
  have hshift := spansFrom_shift (S := S) (T := S') (c := c) (n := 0) fun i _ => h i
  refine ⟨Nat.zero_le _, by omega, ⟨pre ++ pre'.map (Span.shift c), ?_, ?_⟩, ?_⟩
  · have hc0 := hshift 0 (Nat.le_refl 0)
    rw [Nat.add_zero] at hc0
    rw [hpre, hc0, hpre', List.map_append, hshift s (Nat.zero_le s), List.append_assoc]
  · intro m hm
    rcases List.mem_append.mp hm with hm | hm
    · exact Nat.le_trans (hstop m hm) (Nat.le_add_right c s)
    · obtain ⟨m', hm', rfl⟩ := List.mem_map.mp hm
      exact Nat.add_le_add_left (hstop' m' hm') c
  · rcases hs.straddles with rfl | ⟨m, hm, hsg, hgm⟩
    · exact Or.inl rfl
    · refine Or.inr ⟨m.shift c, by rw [h, hm, Option.map_some], by omega, ?_⟩
      rw [Span.shift_stop]
      omega

end Scanner

namespace Regex

/-- The first alternative that matches at i, with its first end. -/
def firstMatch (p : List (κ × Regex α)) (t : List α) (i : Nat) : Option (Span κ) :=
  p.findSome? fun a => (a.2.ends t i).head?.map fun j => ⟨a.1, i, j⟩

theorem firstMatch_some {p : List (κ × Regex α)} {t : List α} {i : Nat} {m : Span κ}
    (h : firstMatch p t i = some m) :
    m.start = i ∧ ∃ a ∈ p, a.1 = m.name ∧ (a.2.ends t i).head? = some m.stop := by
  obtain ⟨a, ha, hm⟩ := List.exists_of_findSome?_eq_some h
  obtain ⟨j, hj, rfl⟩ := Option.map_eq_some_iff.mp hm
  exact ⟨rfl, a, ha, rfl, hj⟩

theorem exists_firstMatch {p : List (κ × Regex α)} {t : List α} {i j : Nat} {a : κ × Regex α} (ha : a ∈ p)
    (hj : j ∈ a.2.ends t i) : ∃ m, firstMatch p t i = some m := by
  obtain ⟨e, he⟩ : ∃ e, (a.2.ends t i).head? = some e :=
    Option.isSome_iff_exists.mp (List.isSome_head?.mpr (List.ne_nil_of_mem hj))
  refine Option.isSome_iff_exists.mp (List.findSome?_isSome_iff.mpr ⟨a, ha, ?_⟩)
  rw [he]
  rfl

theorem forall₂_shift {c : Nat} {l l' : List Nat} (h : List.Forall₂ (fun j j' => j = c + j') l l') :
    l = l'.map (c + ·) := by
  induction h with
  | nil => rfl
  | cons hj _ ih => rw [List.map_cons, ← hj, ← ih]

theorem firstMatch_sim {p : List (κ × Regex α)} {t t' : List α} {c i i' : Nat} (hi : i = c + i')
    (h : ∀ a ∈ p, List.Forall₂ (fun j j' => j = c + j') (a.2.ends t i) (a.2.ends t' i')) :
    firstMatch p t i = (firstMatch p t' i').map (Span.shift c) := by
  induction p with
  | nil => rfl
  | cons a p ih =>
      have hp := ih fun b hb => h b (List.mem_cons_of_mem a hb)
      have ha := forall₂_shift (h a List.mem_cons_self)
      simp only [firstMatch, List.findSome?_cons, ha, List.head?_map] at hp ⊢
      cases he : (a.2.ends t' i').head? with
      | none => simpa only [Option.map_none] using hp
      | some j => simp [Span.shift, hi]

theorem firstMatch_congr {p : List (κ × Regex α)} {t t' : List α} {i : Nat}
    (h : ∀ a ∈ p, List.Forall₂ (fun j j' => j = j') (a.2.ends t i) (a.2.ends t' i)) :
    firstMatch p t i = firstMatch p t' i := by
  have hs : (Span.shift 0 : Span κ → Span κ) = id := by
    funext m
    simp [Span.shift]
  have hz := firstMatch_sim (c := 0) (Nat.zero_add i).symm fun a ha =>
    (h a ha).imp fun j j' hj => by rw [hj, Nat.zero_add]
  simpa only [hs, Option.map_id_fun, id_eq] using hz

theorem end_le_length {r : Regex α} {t : List α} {i j : Nat} (hj : j ∈ r.ends t i) (hij : i < j) :
    j ≤ t.length := by
  have h := ends_consumes r t i j hj (j - 1) (by omega) (by omega)
  by_contra hlt
  rw [List.getElem?_eq_none (by omega)] at h
  exact absurd h (by simp)

/-- The scanner of an alternation none of whose branches matches the empty string. -/
def scanner (p : List (κ × Regex α)) (hp : ∀ a ∈ p, 0 < a.2.minWidth) (t : List α) : Scanner κ where
  size := t.length
  matchAt := firstMatch p t
  start_eq h := (firstMatch_some h).1
  lt_stop {i m} h := by
    obtain ⟨-, a, ha, -, hj⟩ := firstMatch_some h
    have h1 := hp a ha
    have h2 := ends_bounds a.2 t i m.stop (List.mem_of_mem_head? hj)
    omega
  stop_le {i m} h := by
    obtain ⟨-, a, ha, -, hj⟩ := firstMatch_some h
    have h1 := hp a ha
    have h2 := ends_bounds a.2 t i m.stop (List.mem_of_mem_head? hj)
    exact end_le_length (List.mem_of_mem_head? hj) (by omega)

end Regex

end LlmGateway
