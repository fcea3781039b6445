import LlmGateway.JsonRoundTrip

namespace LlmGateway.Json

section Joined

variable {c d : CodePoint} {s t k : Text}

/-- No pair of surrogates stands in the text. -/
def Plain (t : Text) : Prop := joined t = t

theorem joined_cons (h : isHigh c = false) (t : Text) : joined (c :: t) = c :: joined t := by
  cases t with
  | nil => rfl
  | cons d t => rw [joined, if_neg (by simp [h])]

theorem combine_val (hc : isHigh c) (hd : isLow d) : 0x10000 ≤ (combine c d).val := by
  have hc' := isHigh_iff.mp hc
  have hd' := isLow_iff.mp hd
  simp only [combine, ofCode]
  omega

/-- A character below the surrogates comes from itself. -/
theorem joined_eq_cons (hc : c.val < 0xD800) (h : joined s = c :: t) : ∃ s', s = c :: s' ∧ t = joined s' := by
  cases s with
  | nil => cases h
  | cons a s =>
      cases s with
      | nil =>
          cases h
          exact ⟨[], rfl, rfl⟩
      | cons b s =>
          rw [joined] at h
          split at h
          · next hpair =>
              exfalso
              rw [Bool.and_eq_true] at hpair
              have hval := combine_val hpair.1 hpair.2
              rw [(List.cons_eq_cons.mp h).1] at hval
              omega
          · obtain ⟨rfl, rfl⟩ := List.cons_eq_cons.mp h
            exact ⟨b :: s, rfl, rfl⟩

/-- All characters stand below the surrogates. -/
def Low (t : Text) : Prop := ∀ c ∈ t, c.val < 0xD800

theorem Low.of_ascii {t : Text} (h : t.all isAscii) : Low t := by
  intro c hc
  have hascii := List.all_eq_true.mp h c hc
  rw [isAscii, decide_eq_true_eq] at hascii
  omega

theorem Low.not_high (h : c.val < 0xD800) : isHigh c = false := by
  rw [Bool.eq_false_iff]
  intro hc
  have := isHigh_iff.mp hc
  omega

theorem joined_append (h : Low s) (t : Text) : joined (s ++ t) = s ++ joined t := by
  induction s with
  | nil => rfl
  | cons c s ih =>
      obtain ⟨hc, hs⟩ := List.forall_mem_cons.mp h
      rw [List.cons_append, joined_cons (Low.not_high hc), ih hs, List.cons_append]

theorem Low.plain (h : Low t) : Plain t := by
  have := joined_append h []
  rwa [List.append_nil, show joined [] = [] from rfl, List.append_nil] at this

theorem prefix_joined_iff (hk : Low k) : k <+: joined s ↔ k <+: s := by
  constructor
  · intro h
    induction k generalizing s with
    | nil => exact List.nil_prefix
    | cons c k ih =>
        obtain ⟨hc, hk⟩ := List.forall_mem_cons.mp hk
        obtain ⟨u, hu⟩ := h
        obtain ⟨s', rfl, hs'⟩ := joined_eq_cons hc hu.symm
        exact List.cons_prefix_cons.mpr ⟨rfl, ih hk ⟨u, hs'⟩⟩
  · rintro ⟨u, rfl⟩
    exact ⟨joined u, (joined_append hk u).symm⟩

theorem joined_eq_nil_iff : joined s = [] ↔ s = [] := by
  constructor
  · intro h
    cases s with
    | nil => rfl
    | cons c s =>
        cases s with
        | nil => cases h
        | cons d s =>
            rw [joined] at h
            split at h <;> cases h
  · rintro rfl
    rfl

theorem joined_eq_iff (hk : Low k) : joined s = k ↔ s = k := by
  constructor
  · intro h
    have hpre : k <+: joined s := ⟨[], by rw [h, List.append_nil]⟩
    obtain ⟨u, rfl⟩ := (prefix_joined_iff hk).mp hpre
    rw [joined_append hk, List.append_right_eq_self, joined_eq_nil_iff] at h
    rw [h, List.append_nil]
  · rintro rfl
    exact hk.plain

theorem joined_head (d : CodePoint) (t : Text) : ∃ e u, joined (d :: t) = e :: u ∧ (e = d ∨ isLow e = false) := by
  cases t with
  | nil => exact ⟨d, [], rfl, Or.inl rfl⟩
  | cons b t =>
      rw [joined]
      split
      · next hpair =>
          refine ⟨_, _, rfl, Or.inr ?_⟩
          rw [Bool.and_eq_true] at hpair
          have hval := combine_val hpair.1 hpair.2
          rw [Bool.eq_false_iff]
          intro h
          have := isLow_iff.mp h
          omega
      · exact ⟨d, _, rfl, Or.inl rfl⟩

/-- Pairs are joined once and for all. -/
theorem plain_joined (t : Text) : Plain (joined t) := by
  induction t using joined.induct with
  | case1 => rfl
  | case2 c => rfl
  | case3 c d t hpair ih =>
      have hsurrogates := Bool.and_eq_true_iff.mp hpair
      have hval := combine_val hsurrogates.1 hsurrogates.2
      have hhigh : isHigh (combine c d) = false := by
        rw [Bool.eq_false_iff]
        intro h
        have := isHigh_iff.mp h
        omega
      rw [joined, if_pos hpair, Plain, joined_cons hhigh, ih]
  | case4 c d t hpair ih =>
      obtain ⟨e, u, hu, he⟩ := joined_head d t
      have hnot : ¬ (isHigh c && isLow e) = true := by
        rcases he with rfl | he
        · exact hpair
        · simp [he]
      rw [joined, if_neg hpair, hu, Plain, joined, if_neg hnot, ← hu, ih]

theorem plain_of_scalar (h : Utf8.scalar t) : Plain t := by
  induction t with
  | nil => rfl
  | cons c t ih =>
      rw [Utf8.scalar, List.all_cons, Bool.and_eq_true] at h
      have hhigh : isHigh c = false := by
        rw [Bool.eq_false_iff]
        intro hc
        have hhigh := isHigh_iff.mp hc
        have hsurrogate := h.1
        simp only [isSurrogate, Bool.not_eq_true', Bool.and_eq_false_iff, decide_eq_false_iff_not] at hsurrogate
        omega
      rw [Plain, joined_cons hhigh, ih h.2]

end Joined

section Members

variable {key : Text} {ms init : Members}

theorem get?_cons_of_ne {m : Text × Json} (h : m.1 ≠ key) (ms : Members) :
    Members.get? (m :: ms) key = Members.get? ms key := by
  rw [Members.get?, List.find?_cons_of_neg (by simpa using h)]
  rfl

theorem get?_cons_self (v : Json) (ms : Members) : Members.get? ((key, v) :: ms) key = some v := by
  rw [Members.get?, List.find?_cons_of_pos (by simp)]
  rfl

theorem get?_foldl_of_not_mem (h : key ∉ Members.keys ms) : (ms.foldl (Duplicates.add .last) init).get? key = init.get? key := by
  induction ms generalizing init with
  | nil => rfl
  | cons m ms ih =>
      rw [Members.keys_cons, List.mem_cons, not_or] at h
      rw [List.foldl_cons, ih h.2, Duplicates.add, Members.get?_set_of_ne _ h.1]

/-- A member whose name occurs once is found in the object. -/
theorem get?_ofPairs (hnodup : ms.keys.count key ≤ 1) : (ofPairs .last ms).get? key = ms.get? key := by
  have hgo (init : Members) (hinit : init.get? key = none) :
      (ms.foldl (Duplicates.add .last) init).get? key = ms.get? key := by
    induction ms generalizing init with
    | nil => exact hinit
    | cons m ms ih =>
        obtain ⟨k, v⟩ := m
        rw [Members.keys_cons, List.count_cons] at hnodup
        rw [List.foldl_cons, Duplicates.add]
        by_cases hk : k = key
        · have hnot : key ∉ Members.keys ms := by
            rw [if_pos (by simpa using hk)] at hnodup
            exact List.count_eq_zero.mp (by omega)
          rw [get?_foldl_of_not_mem hnot, hk, Members.get?_set_self, get?_cons_self]
        · rw [if_neg (by simpa using hk)] at hnodup
          rw [ih hnodup _ (by rw [Members.get?_set_of_ne _ (Ne.symm hk), hinit]), get?_cons_of_ne hk]
  exact hgo [] rfl

theorem get?_eq_none_iff {ms : Members} : ms.get? key = none ↔ key ∉ ms.keys := by
  induction ms with
  | nil => exact iff_of_true rfl List.not_mem_nil
  | cons m ms ih =>
      rw [Members.keys_cons, List.mem_cons, not_or]
      by_cases hm : m.1 = key
      · rw [← hm, get?_cons_self]
        exact iff_of_false (by simp) fun h => h.1 rfl
      · rw [get?_cons_of_ne hm, ih]
        exact ⟨fun h => ⟨Ne.symm hm, h⟩, fun h => h.2⟩

/-- What is read for a value that was written. -/
def reread (v : Json) : Json := resolve .last (mapText joined v)

theorem keys_reread (ms : Members) : (resolveMembers .last (mapTextMembers joined ms)).keys = ms.keys.map joined := by
  induction ms with
  | nil => rfl
  | cons m ms ih =>
      obtain ⟨k, v⟩ := m
      rw [mapTextMembers, resolveMembers, Members.keys_cons, ih]
      rfl

theorem get?_reread_pairs (hkey : Low key) (ms : Members) :
    Members.get? (resolveMembers .last (mapTextMembers joined ms)) key = (ms.get? key).map reread := by
  induction ms with
  | nil => rfl
  | cons m ms ih =>
      obtain ⟨k, v⟩ := m
      rw [mapTextMembers, resolveMembers]
      by_cases hk : k = key
      · rw [hk, hkey.plain, get?_cons_self, get?_cons_self]
        rfl
      · rw [get?_cons_of_ne (fun h => hk ((joined_eq_iff hkey).mp h)), get?_cons_of_ne hk, ih]

/-- Names that two texts share after joining are none of those below the
surrogates, so that what is found under such a name is what was written there. -/
theorem get?_reread (hkey : Low key) (hnodup : ms.keys.Nodup) :
    ∃ ms' : Members, reread (.dict ms) = .dict ms' ∧ ms'.get? key = (ms.get? key).map reread := by
  refine ⟨ofPairs .last (resolveMembers .last (mapTextMembers joined ms)), ?_, ?_⟩
  · rw [reread, mapText, resolve]
  · rw [get?_ofPairs, get?_reread_pairs hkey]
    rw [keys_reread]
    have hcount : (ms.keys.map joined).count key = ms.keys.count key := by
      simp only [List.count, List.countP_map]
      apply List.countP_congr
      intro k _
      simp only [Function.comp, beq_iff_eq]
      exact joined_eq_iff hkey
    rw [hcount]
    exact List.nodup_iff_count_le_one.mp hnodup key

end Members

section Floats

variable {toFloat : Text → FloatRepr}

theorem every_scanConstant (h : ∀ t, Reads toFloat (toFloat t)) {r : Json × Text} {t : Text} (hr : scanConstant toFloat t = some r) :
    r.1.every (Reads toFloat) (fun _ => true) := by
  obtain ⟨m, hm, rfl⟩ := Option.map_eq_some_iff.mp hr
  have hall : ∀ m ∈ constants toFloat, m.2.every (Reads toFloat) (fun _ => true) := by
    simp only [constants, List.map_cons, List.map_nil, List.cons_append, List.nil_append, List.forall_mem_cons, every]
    exact ⟨trivial, trivial, trivial, h _, h _, h _, fun _ hm => absurd hm List.not_mem_nil⟩
  exact hall m (List.mem_of_find?_eq_some hm)

theorem every_scanNumber (h : ∀ t, Reads toFloat (toFloat t)) {r : Json × Text} {t : Text} (hr : scanNumber toFloat t = some r) :
    r.1.every (Reads toFloat) (fun _ => true) := by
  rw [scanNumber] at hr
  cases hi : scanInteger t with
  | none =>
      rw [hi] at hr
      cases hr
  | some p =>
      simp only [hi, Option.some.injEq] at hr
      rw [← hr]
      dsimp only
      split
      · rfl
      · rw [every]
        exact h _

/-- All floats of what is read are the results of float(). -/
theorem every_scan (h : ∀ t, Reads toFloat (toFloat t)) (n : Nat) :
    (∀ t r, scanOnce toFloat n t = some r → r.1.every (Reads toFloat) (fun _ => true)) ∧
      (∀ t r, scanItems toFloat n t = some r → everyItem (Reads toFloat) (fun _ => true) r.1) ∧
      ∀ t r, scanMembers toFloat n t = some r → everyMember (Reads toFloat) (fun _ => true) r.1 := by
  induction n with
  | zero =>
      refine ⟨fun t r hr => ?_, fun t r hr => ?_, fun t r hr => ?_⟩
      · rw [scanOnce] at hr
        cases hr
      · rw [scanItems] at hr
        cases hr
      · rw [scanMembers] at hr
        cases hr
  | succ n ih =>
      obtain ⟨honce, hitems, hmembers⟩ := ih
      refine ⟨fun t r hr => ?_, fun t r hr => ?_, fun t r hr => ?_⟩
      · cases t with
        | nil => cases hr
        | cons c t =>
            rw [scanOnce] at hr
            split at hr
            · obtain ⟨s, -, rfl⟩ := Option.map_eq_some_iff.mp hr
              rfl
            split at hr
            · split at hr
              · cases hr
              · split at hr
                · cases hr
                  rfl
                · obtain ⟨ms, hms, rfl⟩ := Option.map_eq_some_iff.mp hr
                  exact hmembers _ _ hms
            split at hr
            · split at hr
              · cases hr
              · split at hr
                · cases hr
                  rfl
                · obtain ⟨vs, hvs, rfl⟩ := Option.map_eq_some_iff.mp hr
                  exact hitems _ _ hvs
            · rcases Option.or_eq_some_iff.mp hr with hconstant | ⟨-, hnumber⟩
              · exact every_scanConstant h hconstant
              · exact every_scanNumber h hnumber
      · rw [scanItems] at hr
        cases hv : scanOnce toFloat n t with
        | none =>
            rw [hv] at hr
            cases hr
        | some p =>
            simp only [hv] at hr
            split at hr
            · cases hr
            · split at hr
              · cases hr
                rw [everyItem, Bool.and_eq_true]
                exact ⟨honce _ _ hv, rfl⟩
              split at hr
              · obtain ⟨vs, hvs, rfl⟩ := Option.map_eq_some_iff.mp hr
                rw [everyItem, Bool.and_eq_true]
                exact ⟨honce _ _ hv, hitems _ _ hvs⟩
              · cases hr
      · cases t with
        | nil => cases hr
        | cons c t =>
            rw [scanMembers] at hr
            split at hr
            · cases hr
            split at hr
            · cases hr
            split at hr
            · cases hr
            split at hr
            · cases hr
            split at hr
            · cases hr
            · next hv =>
                split at hr
                · cases hr
                split at hr
                · cases hr
                  rw [everyMember, Bool.and_eq_true, Bool.and_eq_true]
                  exact ⟨⟨rfl, honce _ _ hv⟩, rfl⟩
                split at hr
                · obtain ⟨ms, hms, rfl⟩ := Option.map_eq_some_iff.mp hr
                  rw [everyMember, Bool.and_eq_true, Bool.and_eq_true]
                  exact ⟨⟨rfl, honce _ _ hv⟩, hmembers _ _ hms⟩
                · cases hr

mutual

theorem every_resolve {okFloat : FloatRepr → Bool} {rule : Duplicates} : ∀ v : Json, v.every okFloat (fun _ => true) →
    (resolve rule v).every okFloat (fun _ => true)
  | .null, _ => by rw [resolve]; rfl
  | .bool _, _ => by rw [resolve]; rfl
  | .int _, _ => by rw [resolve]; rfl
  | .float _, h => by rw [resolve]; exact h
  | .str _, _ => by rw [resolve]; rfl
  | .list items, h => by
      rw [every] at h
      rw [resolve, every]
      exact every_resolveItems items h
  | .dict members, h => by
      rw [every] at h
      rw [resolve, every, everyMember_iff]
      intro m hm
      exact everyMember_iff.mp (every_resolveMembers members h) m ((mem_foldl_add rule hm).resolve_left List.not_mem_nil)

theorem every_resolveItems {okFloat : FloatRepr → Bool} {rule : Duplicates} : ∀ vs : List Json,
    everyItem okFloat (fun _ => true) vs → everyItem okFloat (fun _ => true) (resolveItems rule vs)
  | [], _ => rfl
  | v :: vs, h => by
      rw [everyItem, Bool.and_eq_true] at h
      rw [resolveItems, everyItem, Bool.and_eq_true]
      exact ⟨every_resolve v h.1, every_resolveItems vs h.2⟩

theorem every_resolveMembers {okFloat : FloatRepr → Bool} {rule : Duplicates} : ∀ ms : Members,
    everyMember okFloat (fun _ => true) ms → everyMember okFloat (fun _ => true) (resolveMembers rule ms)
  | [], _ => rfl
  | (k, v) :: ms, h => by
      rw [everyMember, Bool.and_eq_true, Bool.and_eq_true] at h
      rw [resolveMembers, everyMember, Bool.and_eq_true, Bool.and_eq_true]
      exact ⟨⟨rfl, every_resolve v h.1.2⟩, every_resolveMembers ms h.2⟩

end

end Floats

section Reader

/-- The reading half of the json module. toFloat is repr(float(text)), which
float() reads as the same number. Bytes are decoded first; those of a printed
text are UTF-8 for the detection of the encoding. -/
structure Reader where
  toFloat : Text → FloatRepr
  reads : ∀ t, Reads toFloat (toFloat t)
  integral : FloatRepr → Option Int
  decode : Bytes → Except LoadError Text
  decode_printed : ∀ t x, Printed t → Utf8.encode t = some x → decode x = .ok t

variable (reader : Reader)

def Reader.decoder : Decoder where
  parse := parse reader.toFloat
  parseBytes x :=
    match reader.decode x with
    | .error e => .error e
    | .ok t => parse reader.toFloat t
  integral := reader.integral

/-- The floats of a value are written as the reader reads them. -/
def Reader.Knows (v : Json) : Prop := v.every (Reads reader.toFloat) (fun _ => true)

variable {reader} {seps : Separators} {v : Json} {t : Text} {x : Bytes}

theorem Reader.knows_parse (h : parse reader.toFloat t = .ok v) : reader.Knows v := by
  rw [parse] at h
  cases hscan : scanOnce reader.toFloat (t.length + 1) (skip t) with
  | none =>
      rw [hscan] at h
      cases h
  | some r =>
      simp only [hscan] at h
      split at h
      · cases h
        exact (every_scan reader.reads _).1 _ _ hscan
      · cases h

theorem Reader.knows_loads (h : reader.decoder.loads t = .ok v) : reader.Knows v := by
  rw [Decoder.loads] at h
  cases hparse : reader.decoder.parse t with
  | error e =>
      rw [hparse] at h
      cases h
  | ok source =>
      rw [hparse] at h
      cases h
      exact every_resolve source (Reader.knows_parse hparse)

theorem Reader.knows_loadsBytes (h : reader.decoder.loadsBytes x = .ok v) : reader.Knows v := by
  rw [Decoder.loadsBytes, Reader.decoder] at h
  cases hdecode : reader.decode x with
  | error e =>
      simp only [hdecode] at h
      cases h
  | ok t =>
      simp only [hdecode] at h
      exact Reader.knows_loads h

theorem Reader.loads_dumps (h : seps.Spaced) (hv : reader.Knows v) :
    reader.decoder.loads (dumps seps v) = .ok (reread v) := by
  have hparse : reader.decoder.parse (dumps seps v) = .ok (mapText joined v) := parse_dumps h hv
  rw [Decoder.loads, hparse]
  rfl

theorem Reader.loadsBytes_dumps (hseps : seps.Spaced) (hprinted : seps.Printed) (hv : reader.Knows v)
    (hx : Utf8.encode (dumps seps v) = some x) : reader.decoder.loadsBytes x = .ok (reread v) := by
  have hparse : reader.decoder.parseBytes x = .ok (mapText joined v) := by
    rw [Reader.decoder]
    dsimp only
    rw [reader.decode_printed _ _ (printed_dumps hprinted v) hx]
    exact parse_dumps hseps hv
  rw [Decoder.loadsBytes, hparse]
  rfl

theorem encode_printed {t : Text} (h : Printed t) : Utf8.encode t = some (Utf8.asciiBytes t) :=
  Utf8.encode_ascii (ascii_of_printed h)

theorem map_asciiBytes {t : Text} (h : t.all isAscii) : (Utf8.asciiBytes t).map (fun b => ofCode b.val) = t := by
  rw [Utf8.asciiBytes, List.map_map]
  refine (List.map_congr_left fun c hc => ?_).trans (List.map_id t)
  have hascii := List.all_eq_true.mp h c hc
  simp only [isAscii, decide_eq_true_eq] at hascii
  apply Fin.ext
  simp only [Function.comp, Utf8.byteOf, Fin.ofNat, ofCode, id]
  omega

/-- A reader for texts without floats. -/
def Reader.integers : Reader where
  toFloat _ := ⟨LlmGateway.str "NaN", by decide⟩
  reads _ := by decide
  integral _ := none
  decode x := .ok (x.map fun b => ofCode b.val)
  decode_printed t x ht hx := by
    rw [encode_printed ht] at hx
    rw [← Option.some.inj hx, map_asciiBytes (ascii_of_printed ht)]

end Reader

end LlmGateway.Json
