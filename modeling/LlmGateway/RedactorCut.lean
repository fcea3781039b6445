import LlmGateway.PatternSim

namespace LlmGateway.Redactor

open Scanner Regex

variable {U : Unicode} {luhn : Bool} {t b rest : Text} {g : Nat}

theorem group_prefix {m : Match} (hm : m.stop ≤ b.length) : group (b ++ rest) m = group b m :=
  slice_prefix hm

theorem isReal_prefix {m : Match} (hm : m.stop ≤ b.length) :
    isReal U luhn (b ++ rest) m = isReal U luhn b m := by
  simp only [isReal, group_prefix hm]

theorem group_shift (c : Nat) (m : Match) : group t (m.shift c) = group (t.drop c) m :=
  (slice_drop c).symm

theorem isReal_shift (c : Nat) (m : Match) : isReal U luhn t (m.shift c) = isReal U luhn (t.drop c) m := by
  simp only [isReal, group_shift]
  rfl

theorem substituteLoop_advance {ms : List Match} {c : Nat} (hms : ∀ m ∈ ms, g ≤ m.start) (hc : c ≤ g) :
    substituteLoop U luhn t ms c =
      (slice t c g ++ (substituteLoop U luhn t ms g).1, (substituteLoop U luhn t ms g).2) := by
  induction ms with
  | nil => simp only [substituteLoop, slice_append_drop hc]
  | cons m ms ih =>
      have hm := hms m List.mem_cons_self
      simp only [substituteLoop]
      split
      · simp only [← slice_append hc hm, List.append_assoc]
      · exact ih fun m' h => hms m' (List.mem_cons_of_mem m h)

theorem substituteLoop_shift (c : Nat) (ms : List Match) (cursor : Nat) :
    substituteLoop U luhn t (ms.map (Span.shift c)) (c + cursor) =
      substituteLoop U luhn (t.drop c) ms cursor := by
  induction ms generalizing cursor with
  | nil => simp [substituteLoop]
  | cons m ms ih =>
      simp only [List.map_cons, substituteLoop, isReal_shift, Span.shift_start, Span.shift_stop, ih, slice_drop]

/-- PATTERN matches at k in what is left from k on as it does in the text. -/
def Fresh (U : Unicode) (t : Text) (k : Nat) : Prop :=
  (scanner U t).matchAt k = ((scanner U (t.drop k)).matchAt 0).map (Span.shift k)

theorem Fresh.matchAt {k : Nat} (h : Fresh U t k) (i : Nat) :
    (scanner U t).matchAt (k + i) = ((scanner U (t.drop k)).matchAt i).map (Span.shift k) := by
  cases i with
  | zero => exact h
  | succ i => exact matchAt_drop t k (i + 1) (by simp)

theorem fresh_of_behind {k : Nat} (h : (behind t k).any (eligibleChar U) = false) : Fresh U t k :=
  matchAt_drop t k 0 fun _ => h

theorem Fresh.spansFrom {k : Nat} (h : Fresh U t k) :
    (scanner U t).spansFrom k = (finditer U (t.drop k)).map (Span.shift k) :=
  spansFrom_shift (S := scanner U t) (T := scanner U (t.drop k)) (n := 0) (fun i _ => h.matchAt i) 0
    (Nat.zero_le 0)

theorem Fresh.substitute {k : Nat} (h : Fresh U t k) :
    substituteLoop U luhn t ((scanner U t).spansFrom k) k = substitute U luhn (t.drop k) := by
  rw [h.spansFrom]
  exact substituteLoop_shift k _ 0

theorem emitLoop_past {ms : List Match} {cursor : Nat} (hms : ∀ m ∈ ms, g ≤ m.start) :
    emitLoop U luhn b ms cursor g = (slice b cursor g, 0, g) := by
  cases ms with
  | nil => rfl
  | cons m ms => rw [emitLoop, if_pos (hms m List.mem_cons_self)]

section EmitLoop

variable (hg : g ≤ b.length) (h : ∀ i < g, (scanner U (b ++ rest)).matchAt i = (scanner U b).matchAt i)

include hg h

/-- What a pass over the text gives from i is what _emit_safe_prefix gives up
to its cut, and what the pass gives from there. -/
theorem emitLoop_spec (luhn : Bool) (i cursor : Nat) (hi : i ≤ g) (hc : cursor ≤ i) :
    let e := emitLoop U luhn b ((scanner U b).spansFrom i) cursor g
    Cut (scanner U (b ++ rest)) i e.2.2 g ∧
      (substituteLoop U luhn (b ++ rest) ((scanner U (b ++ rest)).spansFrom i) cursor).1 =
        e.1 ++ (substituteLoop U luhn (b ++ rest) ((scanner U (b ++ rest)).spansFrom e.2.2) e.2.2).1 := by
  induction hn : g - i using Nat.strongRecOn generalizing i cursor with
  | ind n ih =>
      rcases Nat.lt_or_eq_of_le hi with hlt | rfl
      · cases hm : (scanner U b).matchAt i with
        | none =>
            have hm' := (h i hlt).trans hm
            obtain ⟨hcut, hout⟩ := ih (g - (i + 1)) (by omega) (i + 1) cursor hlt (by omega) rfl
            rw [spansFrom_none hm]
            rw [spansFrom_none hm']
            exact ⟨hcut.of_none hm', hout⟩
        | some m =>
            have hm' := (h i hlt).trans hm
            have hstart := (scanner U b).start_eq hm
            have hstop := (scanner U b).lt_stop hm
            have hlen : m.stop ≤ b.length := (scanner U b).stop_le hm
            rw [spansFrom_some hm, emitLoop, if_neg (by omega)]
            by_cases hs : m.stop > g
            · -- the match straddles g and is held back whole
              rw [if_pos hs, hstart]
              refine ⟨Cut.straddling hm' hlt hs, ?_⟩
              rw [substituteLoop_advance (fun m' => spansFrom_start_ge i m') hc,
                slice_prefix (Nat.le_trans hi hg)]
            · rw [if_neg hs, spansFrom_some hm', substituteLoop, isReal_prefix hlen]
              cases hr : isReal U luhn b m with
              | false =>
                  obtain ⟨hcut, hout⟩ := ih (g - m.stop) (by omega) m.stop cursor (by omega) (by omega) rfl
                  exact ⟨hcut.of_some hm', hout⟩
              | true =>
                  obtain ⟨hcut, hout⟩ := ih (g - m.stop) (by omega) m.stop m.stop (by omega) (by omega) rfl
                  refine ⟨hcut.of_some hm', ?_⟩
                  simp only [if_true, Bool.not_true, Bool.false_eq_true, if_false, hout, hstart,
                    slice_prefix (u := rest) (show i ≤ b.length by omega), List.append_assoc]
      · have hstarts (t : Text) := spansFrom_start_ge (S := scanner U t) i
        rw [emitLoop_past (hstarts b)]
        refine ⟨Cut.here i, ?_⟩
        rw [substituteLoop_advance (hstarts _) hc, slice_prefix hg]

end EmitLoop

section Feed

variable {r : StreamingRedactor} {chunk : Text} {chunks : List Text}

/-- The number of characters by which _emit_safe_prefix shortens the buffer. -/
def cutOf (U : Unicode) (r : StreamingRedactor) (b : Text) : Nat :=
  if unsafeStart U r.hold b = 0 then 0
  else (emitLoop U r.requireLuhn b (finditer U b) 0 (unsafeStart U r.hold b)).2.2

theorem feed_nil : r.feed U [] = ([], r) := if_pos rfl

theorem feed_settings : (r.feed U chunk).2.hold = r.hold ∧ (r.feed U chunk).2.requireLuhn = r.requireLuhn := by
  simp only [StreamingRedactor.feed, StreamingRedactor.emitSafePrefix]
  split
  · exact ⟨rfl, rfl⟩
  · split <;> exact ⟨rfl, rfl⟩

theorem feed_buffer (hx : chunk ≠ []) :
    (r.feed U chunk).2.buffer = (r.buffer ++ chunk).drop (cutOf U r (r.buffer ++ chunk)) := by
  simp only [StreamingRedactor.feed, if_neg hx, StreamingRedactor.emitSafePrefix, cutOf, Nat.le_zero]
  split <;> rfl

/-- What the next feed may rely on: where the text is cut the matches before
the cut are final and the ones after it do not miss the text before. -/
def StepSound (U : Unicode) (r : StreamingRedactor) (chunk rest : Text) : Prop :=
  let b := r.buffer ++ chunk
  let g := unsafeStart U r.hold b
  0 < g → g ≤ b.length ∧ (∀ i < g, (scanner U (b ++ rest)).matchAt i = (scanner U b).matchAt i) ∧
    ∀ s, Cut (scanner U (b ++ rest)) 0 s g → Fresh U (b ++ rest) s

theorem StepSound.feed (h : StepSound U r chunk rest) (hx : chunk ≠ []) :
    (substitute U r.requireLuhn (r.buffer ++ chunk ++ rest)).1 =
      (r.feed U chunk).1 ++ (substitute U r.requireLuhn ((r.feed U chunk).2.buffer ++ rest)).1 := by
  simp only [StreamingRedactor.feed, if_neg hx, StreamingRedactor.emitSafePrefix, Nat.le_zero]
  split
  · rfl
  · next hg =>
      obtain ⟨hle, hm, hfresh⟩ := h (Nat.pos_of_ne_zero hg)
      obtain ⟨hcut, hout⟩ := emitLoop_spec hle hm r.requireLuhn 0 0 (Nat.zero_le _) (Nat.le_refl 0)
      rw [(hfresh _ hcut).substitute, List.drop_append_of_le_length (Nat.le_trans hcut.le hle)] at hout
      exact hout

theorem flush_text : (r.flush U).1 = (substitute U r.requireLuhn r.buffer).1 := by
  rw [StreamingRedactor.flush]
  split
  · next h => rw [h]; rfl
  · rfl

theorem stream_nil : r.stream U [] = (substitute U r.requireLuhn r.buffer).1 := flush_text

theorem stream_cons : r.stream U (chunk :: chunks) = (r.feed U chunk).1 ++ (r.feed U chunk).2.stream U chunks := by
  simp only [StreamingRedactor.stream, StreamingRedactor.feedAll, List.append_assoc]

/-- Every feed of the run is sound in the state in which it is made. -/
def Sound (U : Unicode) : StreamingRedactor → List Text → Prop
  | _, [] => True
  | r, chunk :: chunks =>
    (chunk ≠ [] → StepSound U r chunk chunks.flatten) ∧ Sound U (r.feed U chunk).2 chunks

theorem Sound.stream_eq (h : Sound U r chunks) :
    r.stream U chunks = (substitute U r.requireLuhn (r.buffer ++ chunks.flatten)).1 := by
  induction chunks generalizing r with
  | nil => rw [stream_nil, List.flatten_nil, List.append_nil]
  | cons chunk chunks ih =>
      rw [stream_cons, ih h.2, feed_settings.2, List.flatten_cons]
      by_cases hx : chunk = []
      · rw [hx, feed_nil, List.nil_append, List.nil_append]
      · rw [← List.append_assoc, (h.1 hx).feed hx]

end Feed

section WalkBack

/-- The walk goes down to the floor or to the first character that does not count. -/
theorem walkBack_spec (b : Text) (floor n : Nat) (hn : floor ≤ n) :
    floor ≤ walkBack U b floor n ∧ walkBack U b floor n ≤ n ∧
      (∀ i, walkBack U b floor n ≤ i → i < n → canContinueAMatch U b i) ∧
      (walkBack U b floor n = floor ∨ canContinueAMatch U b (walkBack U b floor n - 1) = false) := by
  induction n with
  | zero =>
      rw [Nat.le_zero.mp hn]
      exact ⟨Nat.le_refl 0, Nat.le_refl 0, fun i _ h => absurd h (by omega), Or.inl rfl⟩
  | succ n ih =>
      rw [walkBack]
      rcases Nat.lt_or_eq_of_le hn with hlt | rfl
      · cases he : canContinueAMatch U b n with
        | false =>
            simp only [Bool.and_false, Bool.false_eq_true, if_false]
            exact ⟨hn, Nat.le_refl _, fun i h1 h2 => absurd h2 (by omega), Or.inr he⟩
        | true =>
            obtain ⟨h1, h2, h3, h4⟩ := ih (Nat.le_of_lt_succ hlt)
            simp only [hlt, decide_true, Bool.and_self, if_true]
            refine ⟨h1, Nat.le_succ_of_le h2, fun i hi hin => ?_, h4⟩
            rcases Nat.lt_or_eq_of_le (Nat.le_of_lt_succ hin) with h | rfl
            · exact h3 i hi h
            · exact he
      · simp only [Nat.lt_irrefl, decide_false, Bool.false_and, Bool.false_eq_true, if_false]
        exact ⟨Nat.le_refl _, Nat.le_refl _, fun i h1 h2 => absurd h2 (by omega), Or.inl trivial⟩

end WalkBack

end LlmGateway.Redactor
