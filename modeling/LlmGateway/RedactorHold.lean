import LlmGateway.RedactorRuns

namespace LlmGateway.Redactor

open Scanner Regex

variable {U : Unicode} {luhn : Bool} {r : StreamingRedactor} {p t b x rest : Text} {c g i s n : Nat} {hold : Int}

/-- Where the hold is shorter than the tail of the first n characters of t,
PATTERN finds at the cut what it finds there with the text before the cut. -/
def KeepsContext (U : Unicode) (t : Text) (hold : Int) (n : Nat) : Prop :=
  (eligibleTail U (t.take n) : Int) ≤ hold ∨ Fresh U t ((scanner U t).cutPoint (n - hold.toNat))

/-- The text from c on is what the redactor still holds, and c is a cut that
keeps its context. -/
structure HeldFrom (U : Unicode) (r : StreamingRedactor) (t p : Text) (c : Nat) : Prop where
  le : c ≤ p.length
  buffer : r.buffer = p.drop c
  cut : Cut (scanner U t) 0 c c
  fresh : Fresh U t c

theorem Fresh.add (hc : Fresh U t c) (hs : Fresh U t (c + s)) : Fresh U (t.drop c) s := by
  refine Option.map_injective (Span.shift_injective c) ?_
  rw [← hc.matchAt, hs, List.drop_drop, Option.map_map]
  congr 1
  funext m
  exact (Span.shift_shift c s m).symm

theorem Fresh.zero (t : Text) : Fresh U t 0 := fresh_of_behind rfl

theorem HeldFrom.text (h : HeldFrom U r t p c) (ht : t = p ++ x ++ rest) :
    r.buffer ++ x = (p ++ x).drop c ∧ t.drop c = r.buffer ++ x ++ rest := by
  have hle := h.le
  rw [h.buffer, ht, List.append_assoc, List.drop_append_of_le_length hle, List.drop_append_of_le_length hle,
    List.append_assoc]
  exact ⟨rfl, rfl⟩

/-- A tail that reaches past the floor is longer than the hold. -/
theorem lt_eligibleTail (hs : s < p.length) (h : ∀ i, s ≤ i → i < p.length → canContinueAMatch U p i) :
    p.length - s ≤ eligibleTail U p := by
  obtain ⟨-, -, -, h4⟩ := walkBack_spec (U := U) p 0 p.length (Nat.zero_le _)
  have hadd := tailStart_add (U := U) p
  suffices hle : tailStart U p ≤ s by omega
  by_contra hlt
  rw [tailStart] at hlt hadd
  rcases h4 with h4 | h4
  · omega
  · exact absurd (h (walkBack U p 0 p.length - 1) (by omega) (by omega)) (by simp [h4])

/-- Where the floor stops the walk the part before it is shorter than the
buffer by more than a match. -/
theorem matchAt_floor (hhold : (maxPatternLength : Int) ≤ hold) (hi : i < floorOf hold b) :
    (scanner U (b ++ rest)).matchAt i = (scanner U b).matchAt i := by
  have hlen : i + maxPatternLength < b.length := by
    rw [floorOf] at hi
    omega
  refine matchAt_window ?_ fun d hd => List.getElem?_append_left (by omega)
  cases i with
  | zero => rfl
  | succ i => exact List.getElem?_append_left (by omega)

theorem HeldFrom.cut_shift (h : HeldFrom U r t p c) (hs : Cut (scanner U (t.drop c)) 0 s g) :
    Cut (scanner U t) 0 (c + s) (c + g) :=
  Cut.shift (fun i => h.fresh.matchAt i) h.cut hs

section Step

variable (hhold : (maxPatternLength : Int) ≤ r.hold) (h : HeldFrom U r t p c) (ht : t = p ++ x ++ rest)
  (hk : KeepsContext U t r.hold (p ++ x).length) (hg : 0 < unsafeStart U r.hold (r.buffer ++ x))

include hhold h ht hk hg

theorem HeldFrom.unsafeStart_spec :
    unsafeStart U r.hold (r.buffer ++ x) ≤ (r.buffer ++ x).length ∧
      (∀ i < unsafeStart U r.hold (r.buffer ++ x),
        (scanner U (r.buffer ++ x ++ rest)).matchAt i = (scanner U (r.buffer ++ x)).matchAt i) ∧
      ∀ s, Cut (scanner U (r.buffer ++ x ++ rest)) 0 s (unsafeStart U r.hold (r.buffer ++ x)) →
        Fresh U t (c + s) := by
  obtain ⟨hb, htc⟩ := h.text ht
  have hc := h.le
  have hfloor : floorOf r.hold (r.buffer ++ x) ≤ (r.buffer ++ x).length := by
    rw [floorOf]
    omega
  obtain ⟨-, h2, h3, h4⟩ := walkBack_spec (U := U) (r.buffer ++ x) _ (r.buffer ++ x).length hfloor
  rw [← unsafeStart] at h2 h3 h4
  refine ⟨h2, ?_⟩
  cases hstop : canContinueAMatch U (r.buffer ++ x) (unsafeStart U r.hold (r.buffer ++ x) - 1) with
  | false =>
      -- the walk ended at a character that does not count
      obtain ⟨a, B⟩ := boundary_of_stop rest hg h2 hstop
      refine ⟨fun i hi => B.matchAt (by omega), fun s hs => fresh_of_behind ?_⟩
      rw [cut_of_boundary hg B hs]
      obtain ⟨k, hk'⟩ : ∃ k, unsafeStart U r.hold (r.buffer ++ x) = k + 1 :=
        ⟨unsafeStart U r.hold (r.buffer ++ x) - 1, by omega⟩
      have hchar := B.char
      rw [← htc, List.getElem?_drop, hk', Nat.add_sub_cancel] at hchar
      simp only [hk', ← Nat.add_assoc, behind, hchar, Option.any_some, B.stops]
  | true =>
      -- the floor cuts a run, which is then longer than the hold
      have heq : unsafeStart U r.hold (r.buffer ++ x) = floorOf r.hold (r.buffer ++ x) := by
        rcases h4 with h4 | h4
        · exact h4
        · exact absurd hstop (by simp [h4])
      refine ⟨fun i hi => matchAt_floor hhold (by omega), fun s hs => ?_⟩
      have hlen : (p ++ x).length = c + (r.buffer ++ x).length := by
        rw [hb, List.length_drop, List.length_append]
        omega
      have hlong : (r.hold : Int) < eligibleTail U (p ++ x) := by
        have hrun := lt_eligibleTail (U := U) (p := p ++ x)
          (s := c + (unsafeStart U r.hold (r.buffer ++ x) - 1)) (by omega) fun i hi hlt => by
            obtain ⟨d, rfl⟩ := Nat.exists_eq_add_of_le (Nat.le_trans (Nat.le_add_right c _) hi)
            refine eligible_of_drop ?_
            rw [← hb]
            rcases Nat.eq_or_lt_of_le (Nat.le_of_add_le_add_left hi) with rfl | hd
            · exact hstop
            · exact h3 d (by omega) (by omega)
        rw [floorOf] at heq
        omega
      rcases hk with hk | hk
      · rw [ht, List.take_left] at hk
        omega
      · have hcut := (h.cut_shift (htc ▸ hs)).cutPoint_eq
        have hpos : (p ++ x).length - r.hold.toNat = c + unsafeStart U r.hold (r.buffer ++ x) := by
          rw [floorOf] at heq
          omega
        rwa [hpos, hcut] at hk

omit hg

theorem HeldFrom.stepSound : StepSound U r x rest := by
  intro hg
  obtain ⟨hle, hm, hfresh⟩ := h.unsafeStart_spec hhold ht hk hg
  obtain ⟨-, htc⟩ := h.text ht
  exact ⟨hle, hm, fun s hs => htc ▸ h.fresh.add (hfresh s hs)⟩

theorem HeldFrom.feed (hx : x ≠ []) : ∃ c', HeldFrom U (r.feed U x).2 t (p ++ x) c' := by
  obtain ⟨hb, htc⟩ := h.text ht
  have hc := h.le
  refine ⟨c + cutOf U r (r.buffer ++ x), ?_⟩
  rcases Nat.eq_zero_or_pos (unsafeStart U r.hold (r.buffer ++ x)) with h0 | hg
  · rw [cutOf, if_pos h0, Nat.add_zero]
    refine ⟨by rw [List.length_append]; omega, ?_, h.cut, h.fresh⟩
    rw [feed_buffer hx, cutOf, if_pos h0, hb, List.drop_zero]
  · obtain ⟨hle, hm, hfresh⟩ := h.unsafeStart_spec hhold ht hk hg
    have hs : Cut (scanner U (r.buffer ++ x ++ rest)) 0 (cutOf U r (r.buffer ++ x))
        (unsafeStart U r.hold (r.buffer ++ x)) := by
      rw [cutOf, if_neg (Nat.ne_of_gt hg)]
      exact (emitLoop_spec hle hm r.requireLuhn 0 0 (Nat.zero_le _) (Nat.le_refl 0)).1
    have hlen := congrArg List.length hb
    have hsle := hs.le
    rw [List.length_drop] at hlen
    refine ⟨by omega, by rw [feed_buffer hx, hb, List.drop_drop], (h.cut_shift (htc ▸ hs)).self, hfresh _ hs⟩

end Step

variable {chunks : List Text}

theorem HeldFrom.sound (hhold : (maxPatternLength : Int) ≤ r.hold) (h : HeldFrom U r t p c)
    (ht : t = p ++ chunks.flatten)
    (hk : ∀ k ≤ chunks.length, KeepsContext U t r.hold (p ++ (chunks.take k).flatten).length) :
    Sound U r chunks := by
  induction chunks generalizing r p c with
  | nil => trivial
  | cons x chunks ih =>
      rw [List.flatten_cons, ← List.append_assoc] at ht
      have hk1 : KeepsContext U t r.hold (p ++ x).length := by simpa using hk 1 (by simp)
      have hk2 : ∀ k ≤ chunks.length, KeepsContext U t r.hold (p ++ x ++ (chunks.take k).flatten).length :=
        fun k hk' => by simpa using hk (k + 1) (by simpa using hk')
      refine ⟨fun _ => h.stepSound hhold ht hk1, ?_⟩
      by_cases hx : x = []
      · rw [hx, feed_nil]
        rw [hx, List.append_nil] at ht hk2
        exact ih hhold h ht hk2
      · obtain ⟨c', h'⟩ := h.feed hhold ht hk1 hx
        refine ih ?_ h' ht ?_
        · rwa [feed_settings.1]
        · rwa [feed_settings.1]

theorem sound_of_keepsContext (hhold : (maxPatternLength : Int) ≤ hold)
    (hk : ∀ k ≤ chunks.length, KeepsContext U chunks.flatten hold (chunks.take k).flatten.length) :
    Sound U (.init (some hold) luhn) chunks := by
  have h : HeldFrom U (.init (some hold) luhn) chunks.flatten [] 0 := ⟨Nat.le_refl 0, rfl, Cut.here 0, Fresh.zero _⟩
  refine h.sound hhold (List.nil_append _).symm fun k hk' => ?_
  rw [List.nil_append]
  exact hk k hk'

/-- A hold of the size of a match is enough for every run that keeps the
context of its cuts. -/
theorem stream_of_keepsContext (U : Unicode) (hold : Int) (luhn : Bool) (chunks : List Text)
    (hhold : (maxPatternLength : Int) ≤ hold)
    (hk : ∀ k ≤ chunks.length, KeepsContext U chunks.flatten hold (chunks.take k).flatten.length) :
    (StreamingRedactor.init (some hold) luhn).stream U chunks = (substitute U luhn chunks.flatten).1 := by
  rw [(sound_of_keepsContext hhold hk).stream_eq]
  rfl

theorem stream_of_keepsContext_email :
    (StreamingRedactor.init (some 409) false).stream .ascii [str "ask jo@ex.", [], str "org, ok"] =
      str "ask [REDACTED], ok" := by
  have htail : ∀ k ≤ 3, (eligibleTail .ascii ((str "ask jo@ex.org, ok").take
      (([str "ask jo@ex.", [], str "org, ok"].take k).flatten.length)) : Int) ≤ 409 := by
    decide +kernel
  rw [stream_of_keepsContext .ascii 409 false [str "ask jo@ex.", [], str "org, ok"] (by decide)
    fun k hk => Or.inl (htail k hk)]
  decide +kernel

/-- Thirty digits, no card number for their length, in front of a run of the
default hold. -/
def longRun : Text := List.replicate 30 (chr '1') ++ List.replicate 392 (chr '@')

/-- The floor cuts the digits and the last 17 of them are redacted. -/
theorem stream_longRun :
    (StreamingRedactor.init none false).stream .ascii [longRun] ≠ (substitute .ascii false longRun).1 := by
  decide +kernel

end LlmGateway.Redactor
