import LlmGateway.RedactorOccurrences

namespace LlmGateway.Redactor

open Scanner Regex

variable {U : Unicode} {luhn : Bool} {t b x : Text} {c d lo n safe cursor : Nat} {m : Match} {ms ns : List Match}
  {r : StreamingRedactor} {chunk : Text} {chunks : List Text}

section Replaced

theorem replaced_extend (hms : ∀ m ∈ ms, m.stop ≤ c) (hstart : ∀ m ∈ ms, m.start ≤ m.stop) (hc : c ≤ t.length) :
    replaced (t ++ x) ms lo c = replaced t ms lo c := by
  induction ms generalizing lo with
  | nil => exact slice_prefix hc
  | cons m ms ih =>
      obtain ⟨hm, hms⟩ := List.forall_mem_cons.mp hms
      obtain ⟨hs, hstart⟩ := List.forall_mem_cons.mp hstart
      rw [replaced, replaced, ih hms hstart, slice_prefix (by omega)]

theorem replaced_shift (lo : Nat) :
    replaced t (ms.map (Span.shift c)) (c + lo) (c + n) = replaced (t.drop c) ms lo n := by
  induction ms generalizing lo with
  | nil => exact (slice_drop c).symm
  | cons m ms ih => rw [List.map_cons, replaced, replaced, Span.shift_start, Span.shift_stop, ih, slice_drop]

theorem replaced_advance (hms : ∀ m ∈ ms, c ≤ m.start) (hlo : lo ≤ c) (hc : c ≤ n) :
    replaced t ms lo n = slice t lo c ++ replaced t ms c n := by
  cases ms with
  | nil => exact (slice_append hlo hc).symm
  | cons m ms =>
      have hm := hms m List.mem_cons_self
      rw [replaced, replaced, ← slice_append hlo hm]
      simp only [List.append_assoc]

theorem replaced_append (hms : Chained c lo ms) (hns : ∀ m ∈ ns, c ≤ m.start) (hc : c ≤ n) :
    replaced t (ms ++ ns) lo n = replaced t ms lo c ++ replaced t ns c n := by
  induction ms generalizing lo with
  | nil => exact replaced_advance hns hms hc
  | cons m ms ih =>
      rw [List.cons_append, replaced, replaced, ih hms.2.2]
      simp only [List.append_assoc]

theorem Chained.shift (h : Chained n lo ms) : Chained (c + n) (c + lo) (ms.map (Span.shift c)) := by
  induction ms generalizing lo with
  | nil => exact Nat.add_le_add_left h c
  | cons m ms ih => exact ⟨Nat.add_le_add_left h.1 c, Nat.add_lt_add_left h.2.1 c, ih h.2.2⟩

theorem Chained.append (h : Chained c lo ms) (hns : Chained n c ns) : Chained n lo (ms ++ ns) := by
  induction ms generalizing lo with
  | nil => exact hns.weaken h
  | cons m ms ih => exact ⟨h.1, h.2.1, ih h.2.2⟩

theorem Chained.start_le (h : Chained n lo ms) : ∀ m ∈ ms, m.start ≤ m.stop := by
  induction ms generalizing lo with
  | nil => exact fun m hm => absurd hm List.not_mem_nil
  | cons m ms ih => exact List.forall_mem_cons.mpr ⟨Nat.le_of_lt h.2.1, ih h.2.2⟩

end Replaced

section Loops

/-- The intervals that _emit_safe_prefix replaces before its cut. -/
theorem emitLoop_replaced (luhn : Bool) (hch : Chained b.length lo ms) (hlo : cursor ≤ lo) (hsafe : cursor ≤ safe) :
    let e := emitLoop U luhn b ms cursor safe
    ∃ ns, ns.Sublist ms ∧ (∀ m ∈ ns, isReal U luhn b m) ∧ Chained e.2.2 cursor ns ∧ e.2.2 ≤ safe ∧
      e.1 = replaced b ns cursor e.2.2 ∧ e.2.1 = ns.length := by
  induction ms generalizing lo cursor with
  | nil => exact ⟨[], List.Sublist.refl _, by simp, hsafe, Nat.le_refl safe, rfl, rfl⟩
  | cons m ms ih =>
      obtain ⟨h1, h2, h3⟩ := hch
      rw [emitLoop]
      by_cases hs : m.start ≥ safe
      · rw [if_pos hs]
        exact ⟨[], List.nil_sublist _, by simp, hsafe, Nat.le_refl safe, rfl, rfl⟩
      · rw [if_neg hs]
        by_cases he : m.stop > safe
        · rw [if_pos he]
          exact ⟨[], List.nil_sublist _, by simp, Nat.le_trans hlo h1, Nat.le_of_lt (Nat.lt_of_not_le hs), rfl, rfl⟩
        · rw [if_neg he]
          cases hr : isReal U luhn b m with
          | false =>
              obtain ⟨ns, hsub, hreal, hrest⟩ := ih h3 (show cursor ≤ m.stop by omega) hsafe
              exact ⟨ns, hsub.cons m, hreal, hrest⟩
          | true =>
              obtain ⟨ns, hsub, hreal, hns, hle, hout, hn⟩ := ih h3 (Nat.le_refl m.stop) (by omega)
              refine ⟨m :: ns, hsub.cons_cons m, List.forall_mem_cons.mpr ⟨hr, hreal⟩, ⟨by omega, h2, hns⟩, hle, ?_, ?_⟩
              · simp only [Bool.not_true, Bool.false_eq_true, if_false, hout, replaced]
              · simp only [Bool.not_true, Bool.false_eq_true, if_false, hn, List.length_cons]

end Loops

section Intervals

/-- The text of the interval is a word of its alternative, and passes the Luhn
check where one is asked for. -/
def Sensitive (U : Unicode) (luhn : Bool) (t : Text) (m : Match) : Prop :=
  Spells (bare U m.name) (group t m) ∧ (luhn → m.name = .card → luhnOk U ((group t m).filter U.isDecimal))

theorem sensitive_of_mem (hm : m ∈ finditer U b) (hr : isReal U luhn b m) : Sensitive U luhn b m :=
  ⟨(occurrence_of_matchAt (matchAt_of_mem 0 m hm)).spells, isReal_iff.mp hr⟩

theorem Sensitive.extend (h : Sensitive U luhn t m) (hm : m.stop ≤ t.length) : Sensitive U luhn (t ++ x) m := by
  rw [Sensitive, group_prefix hm]
  exact h

theorem Sensitive.shift (h : Sensitive U luhn (t.drop c) m) : Sensitive U luhn t (m.shift c) := by
  rw [Sensitive, group_shift]
  exact h

/-- What a redactor has done so far: of the text that it was fed all up to
position c is out, and the rest is in the buffer. -/
structure Delivered (U : Unicode) (r : StreamingRedactor) (t : Text) (c : Nat) (ms : List Match) (out : Text) :
    Prop where
  le : c ≤ t.length
  buffer : r.buffer = t.drop c
  chained : Chained c 0 ms
  sensitive : ∀ m ∈ ms, Sensitive U r.requireLuhn t m
  out_eq : out = replaced t ms 0 c
  redactions : r.stats.redactions = ms.length
  emitted : r.stats.emittedChars = out.length

variable {out : Text}

theorem Delivered.init (hold : Option Int) (luhn : Bool) : Delivered U (StreamingRedactor.init hold luhn) [] 0 [] [] where
  le := Nat.le_refl 0
  buffer := rfl
  chained := Nat.le_refl 0
  sensitive _ hm := absurd hm List.not_mem_nil
  out_eq := rfl
  redactions := rfl
  emitted := rfl

theorem Delivered.absorb (h : Delivered U r t c ms out) (x : Text) (peak : Nat) :
    Delivered U { r with buffer := r.buffer ++ x, stats := { r.stats with peakBuffer := peak } } (t ++ x) c ms out where
  le := Nat.le_trans h.le (by simp)
  buffer := by rw [h.buffer, List.drop_append_of_le_length h.le]
  chained := h.chained
  sensitive m hm := (h.sensitive m hm).extend (Nat.le_trans (h.chained.stop_le m hm) h.le)
  out_eq := by rw [replaced_extend h.chained.stop_le h.chained.start_le h.le, h.out_eq]
  redactions := h.redactions
  emitted := h.emitted

/-- Intervals of the buffer are intervals of the text. -/
theorem Delivered.release (h : Delivered U r t c ms out) (hns : Chained d 0 ns) (hd : d ≤ r.buffer.length)
    (hsens : ∀ m ∈ ns, Sensitive U r.requireLuhn r.buffer m) :
    let piece := replaced r.buffer ns 0 d
    Delivered U { r with
      buffer := r.buffer.drop d
      stats := { r.stats with
        redactions := r.stats.redactions + ns.length
        emittedChars := r.stats.emittedChars + piece.length } } t (c + d) (ms ++ ns.map (Span.shift c))
      (out ++ piece) := by
  have hlen : r.buffer.length = t.length - c := by rw [h.buffer, List.length_drop]
  have hshift : Chained (c + d) c (ns.map (Span.shift c)) := hns.shift
  have hle := h.le
  exact {
    le := by omega
    buffer := by rw [h.buffer, List.drop_drop]
    chained := h.chained.append hshift
    sensitive := by
      intro m hm
      rcases List.mem_append.mp hm with hm | hm
      · exact h.sensitive m hm
      · obtain ⟨m', hm', rfl⟩ := List.mem_map.mp hm
        exact Sensitive.shift (h.buffer ▸ hsens m' hm')
    out_eq := by
      rw [replaced_append h.chained hshift.start_ge (Nat.le_add_right c d), h.out_eq, h.buffer]
      exact congrArg _ (replaced_shift 0).symm
    redactions := by simp [h.redactions]
    emitted := by simp [h.emitted] }

theorem walkBack_le (b : Text) (floor n : Nat) : walkBack U b floor n ≤ n := by
  induction n with
  | zero => exact Nat.le_refl 0
  | succ n ih =>
      rw [walkBack]
      split
      · exact Nat.le_succ_of_le ih
      · exact Nat.le_refl _

theorem Delivered.feed (h : Delivered U r t c ms out) (chunk : Text) :
    ∃ d ns, Delivered U (r.feed U chunk).2 (t ++ chunk) d ns (out ++ (r.feed U chunk).1) := by
  by_cases hx : chunk = []
  · rw [hx, feed_nil, List.append_nil, List.append_nil]
    exact ⟨c, ms, h⟩
  · have habsorb := h.absorb chunk (max r.stats.peakBuffer (r.buffer ++ chunk).length)
    simp only [StreamingRedactor.feed, if_neg hx, StreamingRedactor.emitSafePrefix, Nat.le_zero]
    split
    · rw [List.append_nil]
      exact ⟨c, ms, habsorb⟩
    · obtain ⟨ns, hsub, hreal, hns, hle, hout, hn⟩ := emitLoop_replaced r.requireLuhn
        (chained_finditer U (r.buffer ++ chunk)) (Nat.le_refl 0)
        (Nat.zero_le (unsafeStart U r.hold (r.buffer ++ chunk)))
      have hd := Nat.le_trans hle (walkBack_le _ _ _)
      have hrelease := habsorb.release hns hd fun m hm => sensitive_of_mem (hsub.subset hm) (hreal m hm)
      rw [hout, hn]
      exact ⟨_, _, hrelease⟩

theorem Delivered.flush (h : Delivered U r t c ms out) :
    ∃ ns, Delivered U (r.flush U).2 t t.length ns (out ++ (r.flush U).1) := by
  have hle := h.le
  rw [StreamingRedactor.flush]
  split
  · next hb =>
      have hc : t.length = c := by
        have hlen := congrArg List.length (h.buffer.symm.trans hb)
        rw [List.length_drop, List.length_nil] at hlen
        omega
      rw [List.append_nil, hc]
      exact ⟨ms, h⟩
  · have hchain := (chained_finditer U r.buffer).filter (isReal U r.requireLuhn r.buffer)
    have hrelease := h.release hchain (Nat.le_refl _) fun m hm =>
      sensitive_of_mem (mem_redactions.mp hm).1 (mem_redactions.mp hm).2
    have hc : c + r.buffer.length = t.length := by
      rw [h.buffer, List.length_drop]
      omega
    rw [hc, List.drop_length] at hrelease
    rw [substitute_redactions]
    exact ⟨_, hrelease⟩

theorem Delivered.feedAll (h : Delivered U r t c ms out) (chunks : List Text) :
    ∃ d ns, Delivered U (r.feedAll U chunks).2 (t ++ chunks.flatten) d ns (out ++ (r.feedAll U chunks).1) := by
  induction chunks generalizing r t c ms out with
  | nil => exact ⟨c, ms, by simpa [StreamingRedactor.feedAll] using h⟩
  | cons chunk chunks ih =>
      obtain ⟨d, ns, hfeed⟩ := h.feed chunk
      obtain ⟨d', ns', hrest⟩ := ih hfeed
      refine ⟨d', ns', ?_⟩
      simpa only [StreamingRedactor.feedAll, List.flatten_cons, List.append_assoc] using hrest

theorem feedAll_settings (chunks : List Text) :
    (r.feedAll U chunks).2.hold = r.hold ∧ (r.feedAll U chunks).2.requireLuhn = r.requireLuhn := by
  induction chunks generalizing r with
  | nil => exact ⟨rfl, rfl⟩
  | cons chunk chunks ih =>
      simp only [StreamingRedactor.feedAll, ih, feed_settings]
      exact ⟨trivial, trivial⟩

theorem flush_settings : (r.flush U).2.requireLuhn = r.requireLuhn := by
  rw [StreamingRedactor.flush]
  split <;> rfl

/-- A run replaces disjoint intervals of its text, each of them sensitive, and
delivers everything else. -/
theorem run_replaces (U : Unicode) (hold : Option Int) (luhn : Bool) (chunks : List Text) :
    let t := chunks.flatten
    let run := (StreamingRedactor.init hold luhn).feedAll U chunks
    let last := run.2.flush U
    ∃ ms, Chained t.length 0 ms ∧ (∀ m ∈ ms, Sensitive U luhn t m) ∧
      run.1 ++ last.1 = replaced t ms 0 t.length ∧
      last.2.stats.redactions = ms.length ∧ last.2.stats.emittedChars = (run.1 ++ last.1).length := by
  intro t run last
  obtain ⟨c, ns, hrun⟩ := (Delivered.init (U := U) hold luhn).feedAll chunks
  obtain ⟨ms, hlast⟩ := hrun.flush
  rw [List.nil_append, List.nil_append] at hlast
  have hluhn : last.2.requireLuhn = luhn := flush_settings.trans (feedAll_settings chunks).2
  exact ⟨ms, hlast.chained, fun m hm => hluhn ▸ hlast.sensitive m hm, hlast.out_eq, hlast.redactions, hlast.emitted⟩

end Intervals

section HeldBack

/-- The longest match, found by the hand arithmetic beside the patterns. -/
theorem stop_le_maxPatternLength (hm : (scanner U t).matchAt n = some m) : m.stop ≤ n + maxPatternLength := by
  obtain ⟨-, hhead⟩ := matchAt_some hm
  have hbound := (ends_bounds _ _ _ _ (List.mem_of_mem_head? hhead)).2
  have hwidth := width_le (mem_pattern (U := U) m.name)
  exact Nat.le_trans hbound (Nat.add_le_add_left hwidth n)

variable {hold : Int}

theorem unsafeStart_spec (h0 : 0 ≤ hold) (b : Text) :
    (b.length : Int) ≤ unsafeStart U hold b + hold ∧ unsafeStart U hold b ≤ b.length ∧
      ∀ k, k < b.length → canContinueAMatch U b k = false → k < unsafeStart U hold b := by
  have hfloor : floorOf hold b ≤ b.length := by
    rw [floorOf]
    omega
  obtain ⟨h1, h2, h3, -⟩ := walkBack_spec (U := U) b (floorOf hold b) b.length hfloor
  refine ⟨?_, h2, fun k hk hcan => ?_⟩
  · have hf : (b.length : Int) ≤ floorOf hold b + hold := by
      rw [floorOf]
      omega
    rw [unsafeStart]
    omega
  · by_contra hge
    rw [h3 k (Nat.le_of_not_lt hge) hk] at hcan
    exact absurd hcan (by simp)

theorem cutOf_cut (hg : unsafeStart U r.hold b ≠ 0) : Cut (scanner U b) 0 (cutOf U r b) (unsafeStart U r.hold b) := by
  have hsame : ∀ i < unsafeStart U r.hold b, (scanner U (b ++ [])).matchAt i = (scanner U b).matchAt i :=
    fun i _ => by rw [List.append_nil]
  obtain ⟨hcut, -⟩ := emitLoop_spec (walkBack_le b _ _) hsame r.requireLuhn 0 0 (Nat.zero_le _) (Nat.le_refl 0)
  rw [List.append_nil] at hcut
  rw [cutOf, if_neg hg]
  exact hcut

/-- A feed gives up everything that is more than a hold and one match from the
end, and everything up to a character that no match can contain. -/
theorem cutOf_ge (h0 : 0 ≤ r.hold) (b : Text) :
    (b.length : Int) ≤ cutOf U r b + (r.hold + maxPatternLength - 1) ∧
      ∀ k, k < b.length → canContinueAMatch U b k = false → k < cutOf U r b := by
  have hpos : (1 : Int) ≤ maxPatternLength := by decide
  obtain ⟨hlen, -, hpast⟩ := unsafeStart_spec (U := U) h0 b
  by_cases hg : unsafeStart U r.hold b = 0
  · rw [hg] at hlen hpast
    refine ⟨by omega, fun k hk hcan => ?_⟩
    exact absurd (hpast k hk hcan) (Nat.not_lt_zero k)
  · have hcut := cutOf_cut hg
    rcases hcut.straddles with heq | ⟨m, hm, hlt, hstop⟩
    · rw [heq]
      exact ⟨by omega, hpast⟩
    · have hmax := stop_le_maxPatternLength hm
      refine ⟨by omega, fun k hk hcan => ?_⟩
      by_contra hge
      have hboundary : Boundary U b b k b[k] :=
        ⟨fun _ _ => rfl, List.getElem?_eq_getElem hk, hcan, hcan⟩
      have := hboundary.stop_le (Nat.le_of_not_lt hge) hm
      have := hpast k hk hcan
      omega

/-- The buffer and its peak after any number of feeds. -/
def Bounded (r : StreamingRedactor) (n : Nat) : Prop :=
  (r.buffer.length : Int) ≤ r.hold + maxPatternLength - 1 ∧
    (r.stats.peakBuffer : Int) ≤ r.hold + maxPatternLength - 1 + n

theorem feed_peak (hx : chunk ≠ []) :
    (r.feed U chunk).2.stats.peakBuffer = max r.stats.peakBuffer (r.buffer ++ chunk).length := by
  simp only [StreamingRedactor.feed, if_neg hx, StreamingRedactor.emitSafePrefix]
  split <;> rfl

theorem Bounded.feed (h : Bounded r n) (h0 : 0 ≤ r.hold) (hn : chunk.length ≤ n) : Bounded (r.feed U chunk).2 n := by
  by_cases hx : chunk = []
  · rw [hx, feed_nil]
    exact h
  · obtain ⟨hlen, -⟩ := cutOf_ge (U := U) h0 (r.buffer ++ chunk)
    obtain ⟨h1, h2⟩ := h
    rw [Bounded, feed_settings.1, feed_buffer hx, feed_peak hx, List.length_drop]
    rw [List.length_append] at hlen ⊢
    omega

theorem Bounded.feedAll (h : Bounded r n) (h0 : 0 ≤ r.hold) (hn : ∀ x ∈ chunks, x.length ≤ n) :
    Bounded (r.feedAll U chunks).2 n := by
  induction chunks generalizing r with
  | nil => exact h
  | cons chunk chunks ih =>
      obtain ⟨hx, hn⟩ := List.forall_mem_cons.mp hn
      have hhold : 0 ≤ (r.feed U chunk).2.hold := by
        rw [feed_settings.1]
        exact h0
      exact ih (h.feed h0 hx) hhold hn

/-- After a feed no more than a hold and one match is held, and nothing up to
the last character that no match can contain. -/
theorem held_back (U : Unicode) (hold : Option Int) (h0 : 0 ≤ hold.getD defaultHold) (luhn : Bool)
    (chunks : List Text) (chunk : Text) (hx : chunk ≠ []) :
    let bound := hold.getD defaultHold + maxPatternLength - 1
    let r := ((StreamingRedactor.init hold luhn).feedAll U chunks).2
    let b := r.buffer ++ chunk
    let r' := (r.feed U chunk).2
    (r'.buffer.length : Int) ≤ bound ∧
      (∀ n, (∀ x ∈ chunks ++ [chunk], x.length ≤ n) → (r'.stats.peakBuffer : Int) ≤ bound + n) ∧
      r'.buffer <:+ b ∧
      (∀ k < b.length, canContinueAMatch U b k = false → k < b.length - r'.buffer.length) ∧
      ∀ t i m, (scanner U t).matchAt i = some m → m.stop ≤ i + maxPatternLength := by
  intro bound r b r'
  have hpos : (1 : Int) ≤ maxPatternLength := by decide
  have hinit (n : Nat) : Bounded (StreamingRedactor.init hold luhn) n := by
    have hzero : ((StreamingRedactor.init hold luhn).buffer.length : Int) = 0 := rfl
    have hpeak : ((StreamingRedactor.init hold luhn).stats.peakBuffer : Int) = 0 := rfl
    have hhold : (StreamingRedactor.init hold luhn).hold = hold.getD defaultHold := rfl
    rw [Bounded, hzero, hpeak, hhold]
    omega
  have hhold : r.hold = hold.getD defaultHold := (feedAll_settings chunks).1
  have hr0 : 0 ≤ r.hold := hhold ▸ h0
  have hlen : r'.buffer.length = b.length - cutOf U r b := by
    rw [show r'.buffer = b.drop (cutOf U r b) from feed_buffer hx, List.length_drop]
  obtain ⟨hcut, hpast⟩ := cutOf_ge (U := U) hr0 b
  refine ⟨by omega, fun n hn => ?_, ?_, fun k hk hcan => ?_, fun t i m => stop_le_maxPatternLength⟩
  · have hchunks : ∀ x ∈ chunks, x.length ≤ n := fun x hx => hn x (List.mem_append_left _ hx)
    have hchunk := hn chunk (List.mem_append_right _ (List.mem_singleton_self chunk))
    have hrun : Bounded r n := (hinit n).feedAll h0 hchunks
    have hfeed : Bounded r' n := hrun.feed hr0 hchunk
    have hhold' : r'.hold = hold.getD defaultHold := feed_settings.1.trans hhold
    obtain ⟨-, hpeak⟩ := hfeed
    omega
  · rw [show r'.buffer = b.drop (cutOf U r b) from feed_buffer hx]
    exact List.drop_suffix _ _
  · have := hpast k hk hcan
    omega

theorem held_back_card :
    let r := ((StreamingRedactor.init (some 4) false).feedAll Unicode.ascii [str "card "]).2
    ((r.feed Unicode.ascii (str "4111")).2.buffer.length : Int) ≤ 412 :=
  (held_back Unicode.ascii (some 4) (by decide) false [str "card "] (str "4111") (by decide)).1

end HeldBack

section Withheld

theorem replaced_ne_nil (h : Chained n lo ms) (hlo : lo < n) (hn : n ≤ t.length) : replaced t ms lo n ≠ [] := by
  cases ms with
  | nil =>
      intro hnil
      have hlen := slice_length (t := t) (i := lo) hn
      rw [show slice t lo n = [] from hnil, List.length_nil] at hlen
      omega
  | cons m ms =>
      rw [replaced, List.append_assoc]
      exact List.append_ne_nil_of_right_ne_nil _ (List.append_ne_nil_of_left_ne_nil (by decide) _)

theorem feed_replaced (hx : chunk ≠ []) : ∃ ns, Chained (cutOf U r (r.buffer ++ chunk)) 0 ns ∧
    cutOf U r (r.buffer ++ chunk) ≤ (r.buffer ++ chunk).length ∧
    (r.feed U chunk).1 = replaced (r.buffer ++ chunk) ns 0 (cutOf U r (r.buffer ++ chunk)) := by
  simp only [StreamingRedactor.feed, if_neg hx, StreamingRedactor.emitSafePrefix, cutOf, Nat.le_zero]
  split
  · exact ⟨[], Nat.le_refl 0, Nat.zero_le _, slice_self.symm⟩
  · obtain ⟨ns, -, -, hns, hle, hout, -⟩ := emitLoop_replaced r.requireLuhn
      (chained_finditer U (r.buffer ++ chunk)) (Nat.le_refl 0)
      (Nat.zero_le (unsafeStart U r.hold (r.buffer ++ chunk)))
    exact ⟨ns, hns, Nat.le_trans hle (walkBack_le _ _ _), hout⟩

theorem feed_withheld (hx : chunk ≠ []) (h : (r.feed U chunk).1 = []) :
    (r.feed U chunk).2.buffer = r.buffer ++ chunk := by
  obtain ⟨ns, hns, hle, hout⟩ := feed_replaced (U := U) (r := r) hx
  have hzero : cutOf U r (r.buffer ++ chunk) = 0 := by
    by_contra hpos
    exact replaced_ne_nil hns (Nat.pos_of_ne_zero hpos) hle (hout.symm.trans h)
  rw [feed_buffer hx, hzero, List.drop_zero]

theorem flush_eq_nil_iff : (r.flush U).1 = [] ↔ r.buffer = [] := by
  constructor
  · intro h
    by_contra hb
    rw [flush_text, substitute_redactions] at h
    have hchain := (chained_finditer U r.buffer).filter (isReal U r.requireLuhn r.buffer)
    exact replaced_ne_nil hchain (List.length_pos_iff.mpr hb) (Nat.le_refl _) h
  · intro h
    rw [StreamingRedactor.flush, if_pos h]

theorem stream_eq_nil_iff : r.stream U chunks = [] ↔ r.buffer = [] ∧ chunks.flatten = [] := by
  induction chunks generalizing r with
  | nil =>
      rw [stream_nil, ← flush_text, flush_eq_nil_iff]
      simp
  | cons chunk chunks ih =>
      rw [stream_cons, List.append_eq_nil_iff, ih, List.flatten_cons, List.append_eq_nil_iff]
      by_cases hx : chunk = []
      · rw [hx, feed_nil]
        simp
      · constructor
        · rintro ⟨hout, hb, -⟩
          rw [feed_withheld hx hout] at hb
          exact absurd (List.append_eq_nil_iff.mp hb).2 hx
        · rintro ⟨-, h, -⟩
          exact absurd h hx

theorem walkBack_eq_length (b : Text) (hold : Int) (hb : b ≠ []) :
    walkBack U b (floorOf hold b) b.length = b.length ↔
      hold ≤ 0 ∨ canContinueAMatch U b (b.length - 1) = false := by
  obtain ⟨n, hn⟩ : ∃ n, b.length = n + 1 := Nat.exists_eq_succ_of_ne_zero (by simpa using hb)
  have hfloor : floorOf hold b < n + 1 ↔ 0 < hold := by
    rw [floorOf, hn]
    omega
  have hle := walkBack_le (U := U) b (floorOf hold b) n
  rw [hn, walkBack, Nat.add_sub_cancel]
  cases hc : canContinueAMatch U b n with
  | false => simp
  | true =>
      simp only [Bool.and_true, gt_iff_lt, decide_eq_true_eq, hfloor]
      split
      · exact iff_of_false (by omega) (by simp; omega)
      · exact iff_of_true rfl (by omega)

/-- A feed leaves nothing in the buffer where the last character is none that
a match can go on with. -/
theorem feed_empties_iff (hx : chunk ≠ []) : (r.feed U chunk).2.buffer = [] ↔
    r.hold ≤ 0 ∨ canContinueAMatch U (r.buffer ++ chunk) ((r.buffer ++ chunk).length - 1) = false := by
  have hb : r.buffer ++ chunk ≠ [] := List.append_ne_nil_of_right_ne_nil _ hx
  generalize hbuffer : r.buffer ++ chunk = b at hb
  rw [feed_buffer hx, hbuffer, List.drop_eq_nil_iff, ← walkBack_eq_length b r.hold hb]
  have hpos := List.length_pos_iff.mpr hb
  have hle : unsafeStart U r.hold b ≤ b.length := walkBack_le _ _ _
  change _ ↔ unsafeStart U r.hold b = b.length
  constructor
  · intro h
    have hg : unsafeStart U r.hold b ≠ 0 := by
      intro hz
      rw [cutOf, if_pos hz] at h
      omega
    have hcut := (cutOf_cut hg).le
    omega
  · intro h
    rcases (cutOf_cut (U := U) (r := r) (b := b) (by omega)).straddles with heq | ⟨m, hm, -, hlt⟩
    · omega
    · have := (scanner U b).stop_le hm
      have hsize : (scanner U b).size = b.length := rfl
      omega

end Withheld

end LlmGateway.Redactor
