import LlmGateway.Splitting
import LlmGateway.Utf8

namespace LlmGateway.Sse

open Utf8 Splitting

/-- What can end a stream early. httpError is a failure of the upstream
connection, the others are Python's own. -/
inductive Raised
  | malformedStream (reason : String)
  | httpError
  | typeError
  | valueError
  | keyError
  | indexError
  | unicodeEncodeError
  | recursionError
  deriving DecidableEq, Repr

def lf : CodePoint := chr '\n'

def maxLineBytes : Nat := 1 <<< 20

/-- The while loop of iter_lines: the lines it yields and what stays pending. -/
def drain : Nat → Text → List Text × Text
  | 0, pending => ([], pending)
  | n + 1, pending =>
    if pending.contains lf then
      let (line, pending) := partition pending lf
      let (lines, pending) := drain n pending
      (line :: lines, pending)
    else ([], pending)

/-- The lines that are yielded and the exception, if one is raised. ending is
what the iteration over the chunks itself ends with. -/
def iterLoop (ending : Option Raised) : Text → List Bytes → List Text × Option Raised
  | pending, [] =>
    match ending with
    | some exc => ([], some exc)
    | none => (if pending = [] then [] else [pending], none)
  | pending, chunk :: chunks =>
    let pending := pending ++ decodeReplace chunk
    if pending.length > maxLineBytes then
      ([], some (.malformedStream "upstream line exceeded the size cap"))
    else
      let (lines, pending) := drain pending.length pending
      let (more, exc) := iterLoop ending pending chunks
      (lines ++ more, exc)

def iterLines (ending : Option Raised) (chunks : List Bytes) : List Text × Option Raised :=
  iterLoop ending [] chunks

/-- A text split at LF, the unterminated last line only if it is not empty. -/
def linesOf (t : Text) : List Text := records lf t

theorem partition_append {l : Text} (h : lf ∉ l) (t : Text) : partition (l ++ lf :: t) lf = (l, t) := by
  have hl : ∀ c ∈ l, (c != lf) = true := fun c hc => bne_iff_ne.mpr fun heq => h (heq ▸ hc)
  rw [partition, List.takeWhile_append_of_pos hl, List.dropWhile_append_of_pos hl]
  simp

theorem drain_eq (n : Nat) (t : Text) (hn : t.length ≤ n) : drain n t = (pieces lf t, rest lf t) := by
  induction t using inductionOn lf generalizing n with
  | last t h =>
      rw [(of_not_mem h).1, (of_not_mem h).2]
      cases n with
      | zero => rfl
      | succ n => rw [drain, if_neg (by simpa using h)]
  | first l t hl ih =>
      rw [List.length_append, List.length_cons] at hn
      obtain ⟨n, rfl⟩ : ∃ m, n = m + 1 := ⟨n - 1, by omega⟩
      rw [drain, if_pos (by simp), partition_append hl, (append_cons hl t).1, (append_cons hl t).2]
      simp only [ih n (by omega)]

variable {chunks : List Bytes} {pending p : Text}

/-- The text that the loop has seen: the chunks decoded one by one. -/
def seen (chunks : List Bytes) : Text := (chunks.map decodeReplace).flatten

theorem seen_cons (chunk : Bytes) (chunks : List Bytes) :
    seen (chunk :: chunks) = decodeReplace chunk ++ seen chunks := rfl

/-- No chunk makes the buffer exceed the cap, when p came before them. -/
def WithinCap (p : Text) (chunks : List Bytes) : Prop :=
  ∀ pre chunk post, chunks = pre ++ chunk :: post →
    (rest lf (p ++ seen pre)).length + (decodeReplace chunk).length ≤ maxLineBytes

theorem withinCap_cons {chunk : Bytes} : WithinCap p (chunk :: chunks) ↔
    (rest lf p).length + (decodeReplace chunk).length ≤ maxLineBytes ∧
      WithinCap (p ++ decodeReplace chunk) chunks := by
  constructor
  · intro h
    refine ⟨by simpa [seen] using h [] chunk chunks rfl, fun pre c post hc => ?_⟩
    have := h (chunk :: pre) c post (by rw [hc, List.cons_append])
    rwa [seen_cons, ← List.append_assoc] at this
  · rintro ⟨h1, h2⟩ pre c post hc
    cases pre with
    | nil =>
        obtain ⟨rfl, -⟩ := List.cons_eq_cons.mp hc
        simpa [seen] using h1
    | cons x pre =>
        obtain ⟨rfl, rfl⟩ := List.cons_eq_cons.mp hc
        rw [seen_cons, ← List.append_assoc]
        exact h2 pre c post rfl

theorem iterLoop_none (ending : Option Raised) (p : Text) (chunks : List Bytes) :
    (iterLoop ending (rest lf p) chunks).2 = none ↔ ending = none ∧ WithinCap p chunks := by
  induction chunks generalizing p with
  | nil =>
      have hfit : WithinCap p [] := fun pre c post h => absurd h (by simp)
      rw [and_iff_left hfit]
      cases ending with
      | none => exact iff_of_true rfl rfl
      | some exc => exact iff_of_false (by simp [iterLoop]) (by simp)
  | cons chunk chunks ih =>
      rw [withinCap_cons, iterLoop]
      simp only [List.length_append]
      split
      · next h => exact iff_of_false (by simp) fun hw => by omega
      · next h =>
          rw [drain_eq _ _ (Nat.le_of_eq List.length_append), ← rest_append, ih]
          exact ⟨fun hw => ⟨hw.1, by omega, hw.2⟩, fun hw => ⟨hw.1, hw.2.2⟩⟩

/-- Within the cap the cuts between the chunks are not seen, once decoded. -/
theorem iterLoop_lines (p : Text) (chunks : List Bytes) (h : WithinCap p chunks) :
    pieces lf p ++ (iterLoop none (rest lf p) chunks).1 = linesOf (p ++ seen chunks) := by
  induction chunks generalizing p with
  | nil =>
      rw [seen, List.map_nil, List.flatten_nil, List.append_nil]
      rfl
  | cons chunk chunks ih =>
      obtain ⟨hcap, hrest⟩ := withinCap_cons.mp h
      rw [iterLoop]
      simp only [List.length_append]
      rw [if_neg (by omega), drain_eq _ _ (Nat.le_of_eq List.length_append), ← rest_append]
      simp only
      rw [← List.append_assoc, ← pieces_append, ih _ hrest, seen_cons, List.append_assoc]

theorem pieces_nil : pieces lf [] = [] := (of_not_mem List.not_mem_nil).1

theorem rest_nil : rest lf [] = [] := (of_not_mem List.not_mem_nil).2

/-- The chunks that come before the first one to exceed the cap. -/
def underCap (p : Text) : List Bytes → List Bytes
  | [] => []
  | chunk :: chunks =>
    if (rest lf p).length + (decodeReplace chunk).length > maxLineBytes then []
    else chunk :: underCap (p ++ decodeReplace chunk) chunks

theorem underCap_of_withinCap (h : WithinCap p chunks) : underCap p chunks = chunks := by
  induction chunks generalizing p with
  | nil => rfl
  | cons chunk chunks ih =>
      obtain ⟨hcap, hrest⟩ := withinCap_cons.mp h
      rw [underCap, if_neg (by omega), ih hrest]

theorem underCap_isPrefix (p : Text) (chunks : List Bytes) : underCap p chunks <+: chunks := by
  induction chunks generalizing p with
  | nil => exact List.prefix_rfl
  | cons chunk chunks ih =>
      rw [underCap]
      split
      · exact List.nil_prefix
      · exact (List.prefix_cons_inj chunk).mpr (ih _)

theorem seen_append (a b : List Bytes) : seen (a ++ b) = seen a ++ seen b := by
  rw [seen, List.map_append, List.flatten_append]
  rfl

theorem exceeds_of_not_withinCap (h : ¬ WithinCap p chunks) : ∃ chunk post, chunks = underCap p chunks ++ chunk :: post ∧
    maxLineBytes < (rest lf (p ++ seen (underCap p chunks))).length + (decodeReplace chunk).length := by
  induction chunks generalizing p with
  | nil => exact absurd (fun pre c post hc => absurd hc (by simp)) h
  | cons chunk chunks ih =>
      rw [withinCap_cons, not_and] at h
      rw [underCap]
      split
      · next hcap => exact ⟨chunk, chunks, rfl, by simpa [seen] using hcap⟩
      · next hcap =>
          obtain ⟨chunk', post, hchunks, hlt⟩ := ih (h (by omega))
          refine ⟨chunk', post, congrArg (chunk :: ·) hchunks, ?_⟩
          rwa [seen_cons, ← List.append_assoc]

/-- A chunk that exceeds the cap leaves more than the cap unread. -/
theorem unread_of_not_withinCap (h : ¬ WithinCap [] chunks) :
    ∃ tail, pieces lf (seen chunks) = pieces lf (seen (underCap [] chunks)) ++ tail ∧
      maxLineBytes < (tail.flatMap (· ++ [lf]) ++ rest lf (seen chunks)).length := by
  obtain ⟨chunk, post, hchunks, hlt⟩ := exceeds_of_not_withinCap h
  have hseen : seen chunks = seen (underCap [] chunks) ++ (decodeReplace chunk ++ seen post) := by
    conv_lhs => rw [hchunks]
    rw [seen_append, seen_cons]
  refine ⟨pieces lf (rest lf (seen (underCap [] chunks)) ++ (decodeReplace chunk ++ seen post)), ?_, ?_⟩
  · rw [hseen, pieces_append]
  · rw [hseen, rest_append, flatMap_pieces, List.length_append, List.length_append]
    rw [List.nil_append] at hlt
    omega

/-- The lines before an exception are the whole lines of the chunks before it. -/
theorem iterLoop_raised {ending : Option Raised} {exc : Raised} (p : Text) (chunks : List Bytes)
    (h : (iterLoop ending (rest lf p) chunks).2 = some exc) :
    pieces lf p ++ (iterLoop ending (rest lf p) chunks).1 = pieces lf (p ++ seen (underCap p chunks)) := by
  induction chunks generalizing p with
  | nil =>
      rw [underCap, seen, List.map_nil, List.flatten_nil, List.append_nil]
      cases ending with
      | none => cases h
      | some exc => exact List.append_nil _
  | cons chunk chunks ih =>
      rw [iterLoop] at h ⊢
      simp only [List.length_append] at h ⊢
      by_cases hcap : (rest lf p).length + (decodeReplace chunk).length > maxLineBytes
      · rw [if_pos hcap, underCap, if_pos hcap, seen, List.map_nil, List.flatten_nil, List.append_nil, List.append_nil]
      · rw [if_neg hcap, drain_eq _ _ (Nat.le_of_eq List.length_append), ← rest_append] at h ⊢
        rw [← List.append_assoc, ← pieces_append, underCap, if_neg hcap, seen_cons, ← List.append_assoc p]
        exact ih _ h

theorem iterLines_raised {ending : Option Raised} {exc : Raised} (h : (iterLines ending chunks).2 = some exc) :
    iterLines ending chunks = (pieces lf (seen (underCap [] chunks)), some exc) := by
  have hnil := rest_nil
  have hraised : (iterLoop ending (rest lf []) chunks).2 = some exc := by rwa [hnil]
  have hlines := iterLoop_raised [] chunks hraised
  rw [pieces_nil, hnil, List.nil_append, List.nil_append] at hlines
  exact Prod.ext hlines h

theorem iterLines_none_iff (ending : Option Raised) :
    (iterLines ending chunks).2 = none ↔ ending = none ∧ WithinCap [] chunks := by
  have hnone := iterLoop_none ending [] chunks
  rw [rest_nil] at hnone
  exact hnone

theorem iterLines_ended (h : WithinCap [] chunks) : iterLines none chunks = (linesOf (seen chunks), none) := by
  have hlines := iterLoop_lines [] chunks h
  rw [pieces_nil, rest_nil, List.nil_append, List.nil_append] at hlines
  exact Prod.ext hlines ((iterLines_none_iff none).mpr ⟨rfl, h⟩)

theorem scalar_of_subset {t u : Text} (h : scalar u) (hs : ∀ c ∈ t, c ∈ u) : scalar t :=
  List.all_eq_true.mpr fun c hc => List.all_eq_true.mp h c (hs c hc)

theorem iterLoop_scalar (ending : Option Raised) (pending : Text) (chunks : List Bytes) (hp : scalar pending) :
    ∀ l ∈ (iterLoop ending pending chunks).1, scalar l := by
  induction chunks generalizing pending with
  | nil =>
      intro l hl
      cases ending with
      | some exc => exact absurd hl List.not_mem_nil
      | none =>
          simp only [iterLoop] at hl
          split at hl
          · exact absurd hl List.not_mem_nil
          · exact List.mem_singleton.mp hl ▸ hp
  | cons chunk chunks ih =>
      have happ : scalar (pending ++ decodeReplace chunk) := by
        have hd := scalar_decodeReplace chunk
        rw [scalar] at hp hd ⊢
        rw [List.all_append, hp, hd]
        rfl
      rw [iterLoop]
      simp only
      split
      · exact fun l hl => absurd hl List.not_mem_nil
      · rw [drain_eq _ _ (Nat.le_refl _)]
        intro l hl
        rcases List.mem_append.mp hl with hl | hl
        · exact scalar_of_subset happ fun c hc => mem_of_mem_pieces hl hc
        · exact ih _ (scalar_of_subset happ fun c hc => mem_of_mem_rest hc) l hl

theorem iterLines_scalar (ending : Option Raised) (chunks : List Bytes) :
    ∀ l ∈ (iterLines ending chunks).1, scalar l := iterLoop_scalar ending [] chunks rfl

theorem iterLines_eq_iff : iterLines none chunks = (linesOf (decodeReplace chunks.flatten), none) ↔
    WithinCap [] chunks ∧ linesOf (seen chunks) = linesOf (decodeReplace chunks.flatten) := by
  constructor
  · intro h
    have hfit : WithinCap [] chunks := ((iterLines_none_iff none).mp (by rw [h])).2
    rw [iterLines_ended hfit] at h
    exact ⟨hfit, congrArg Prod.fst h⟩
  · rintro ⟨hfit, hlines⟩
    rw [iterLines_ended hfit, hlines]

section Decoding

theorem lf_val : lf.val < 0x80 := by decide

theorem count_lf_seen (chunks : List Bytes) :
    (seen chunks).count lf = (decodeReplace chunks.flatten).count lf := by
  rw [count_ascii lf_val, List.countP_flatten, seen, List.count_flatten, List.map_map]
  congr 1
  exact List.map_congr_left fun x _ => count_ascii lf_val x

theorem length_seen_cons (x : Bytes) (chunks : List Bytes) :
    (seen (x :: chunks)).length = (units x).length + (seen chunks).length := by
  rw [seen_cons, List.length_append, decodeReplace, List.length_map]

theorem starts_le_length_seen (chunks : List Bytes) : starts chunks.flatten ≤ (seen chunks).length := by
  induction chunks with
  | nil => exact Nat.le_refl 0
  | cons x chunks ih =>
      rw [List.flatten_cons, starts_append, length_seen_cons]
      exact Nat.add_le_add (starts_le_length x) ih

/-- A text decoded in parts is as long as the whole only if every part begins
with a character. -/
theorem fresh_of_length_seen (h : (seen chunks).length = starts chunks.flatten) :
    ∀ x ∈ chunks, Fresh x := by
  induction chunks with
  | nil => exact fun x hx => absurd hx List.not_mem_nil
  | cons x chunks ih =>
      have hx := starts_le_length x
      have hchunks := starts_le_length_seen chunks
      rw [List.flatten_cons, starts_append, length_seen_cons] at h
      refine List.forall_mem_cons.mpr ⟨?_, ih (by omega)⟩
      by_contra hf
      have hlt := starts_lt_length hf
      omega

theorem fresh_flatten (h : ∀ x ∈ chunks, Fresh x) : Fresh chunks.flatten := by
  induction chunks with
  | nil => trivial
  | cons x chunks ih =>
      obtain ⟨hx, hchunks⟩ := List.forall_mem_cons.mp h
      cases x with
      | nil => exact ih hchunks
      | cons b x => exact hx

theorem valid_of_fresh (hv : Valid chunks.flatten) (h : ∀ x ∈ chunks, Fresh x) : ∀ x ∈ chunks, Valid x := by
  induction chunks with
  | nil => exact fun x hx => absurd hx List.not_mem_nil
  | cons x chunks ih =>
      obtain ⟨-, hchunks⟩ := List.forall_mem_cons.mp h
      obtain ⟨hx, hrest⟩ := (valid_append (fresh_flatten hchunks)).mp hv
      exact List.forall_mem_cons.mpr ⟨hx, ih hrest hchunks⟩

theorem seen_of_valid (h : ∀ x ∈ chunks, Valid x) : seen chunks = decodeReplace chunks.flatten :=
  (valid_flatten h).2.symm

theorem linesOf_seen_iff (hv : Valid chunks.flatten) :
    linesOf (seen chunks) = linesOf (decodeReplace chunks.flatten) ↔ ∀ x ∈ chunks, Valid x := by
  constructor
  · intro h
    have heq := eq_of_records_eq (count_lf_seen chunks) h
    refine valid_of_fresh hv (fresh_of_length_seen ?_)
    rw [heq, hv.starts_eq, decodeReplace, List.length_map]
  · intro h
    rw [seen_of_valid h]

end Decoding

/-- At no chunk do the unterminated end of the text before it and the chunk
itself have more than maxLineBytes characters. -/
def ChunksFit (chunks : List Bytes) : Prop :=
  ∀ pre chunk post, chunks = pre ++ chunk :: post →
    (rest lf (decodeReplace pre.flatten)).length + (decodeReplace chunk).length ≤ maxLineBytes

theorem withinCap_iff (h : ∀ x ∈ chunks, Valid x) : WithinCap [] chunks ↔ ChunksFit chunks := by
  have hpre : ∀ pre chunk post, chunks = pre ++ chunk :: post → seen pre = decodeReplace pre.flatten := by
    rintro pre chunk post rfl
    exact seen_of_valid fun x hx => h x (List.mem_append_left _ hx)
  simp only [WithinCap, ChunksFit, List.nil_append]
  refine forall₄_congr fun pre chunk post hc => ?_
  rw [hpre pre chunk post hc]

/-- The lines are those of the whole text exactly for the cuttings between
characters into chunks that fit under the cap. -/
theorem iterLines_eq_linesOf_iff (chunks : List Bytes) (hv : Valid chunks.flatten) :
    iterLines none chunks = (linesOf (decodeReplace chunks.flatten), none) ↔
      (∀ x ∈ chunks, Valid x) ∧ ChunksFit chunks := by
  rw [iterLines_eq_iff, linesOf_seen_iff hv, and_comm]
  exact and_congr_right fun h => withinCap_iff h

theorem iterLines_eq_linesOf_between_characters :
    (∀ x ∈ [[0xC3, 0xA9], [0x0A, 0x62]], Valid x) ∧ ChunksFit [[0xC3, 0xA9], [0x0A, 0x62]] :=
  (iterLines_eq_linesOf_iff [[0xC3, 0xA9], [0x0A, 0x62]] (by decide +kernel)).mp (by decide +kernel)

theorem iterLines_split_character :
    Valid [[0xC3], [0xA9]].flatten ∧
      (∀ l ∈ linesOf (decodeReplace [[0xC3], [0xA9]].flatten), l.length ≤ maxLineBytes) ∧
      iterLines none [[0xC3], [0xA9]] ≠ (linesOf (decodeReplace [[0xC3], [0xA9]].flatten), none) := by
  decide +kernel

end LlmGateway.Sse
