import LlmGateway.JsonScan

namespace LlmGateway.Json

section Texts

variable (f : Text → Text)

mutual

/-- A value with f of all its texts. -/
def mapText : Json → Json
  | .null => .null
  | .bool b => .bool b
  | .int n => .int n
  | .float repr => .float repr
  | .str s => .str (f s)
  | .list items => .list (mapTextItems items)
  | .dict members => .dict (mapTextMembers members)

def mapTextItems : List Json → List Json
  | [] => []
  | v :: vs => mapText v :: mapTextItems vs

def mapTextMembers : Members → Members
  | [] => []
  | (k, v) :: ms => (f k, mapText v) :: mapTextMembers ms

end

end Texts

section Values

/-- The separators are a comma and a colon with white space after them. -/
structure Separators.Spaced (seps : Separators) : Prop where
  item : ∃ w : Text, seps.item = chr ',' :: w ∧ w.all isSpace
  key : ∃ w : Text, seps.key = chr ':' :: w ∧ w.all isSpace

theorem spaced_default : defaultSeparators.Spaced :=
  ⟨⟨LlmGateway.str " ", rfl, by decide⟩, LlmGateway.str " ", rfl, by decide⟩

theorem spaced_compact : compactSeparators.Spaced := ⟨⟨[], rfl, rfl⟩, [], rfl, rfl⟩

theorem skip_space {w : Text} (h : w.all isSpace) (t : Text) : skip (w ++ t) = skip t :=
  List.dropWhile_append_of_pos (List.all_eq_true.mp h)

theorem skip_cons {c : CodePoint} (h : isSpace c = false) (t : Text) : skip (c :: t) = c :: t :=
  List.dropWhile_cons_of_neg (by simp [h])

/-- The first character of a value. -/
structure Starts (c : CodePoint) : Prop where
  space : isSpace c = false
  bracket : c ≠ chr ']'
  brace : c ≠ chr '\x7d'

variable {toFloat : Text → FloatRepr} {seps : Separators} {t rest : Text}

theorem starts_of_digit {c : CodePoint} (h : asciiDigit c) : Starts c := by
  refine ⟨?_, ?_, ?_⟩
  · simp only [isSpace, Bool.or_eq_false_iff, decide_eq_false_iff_not]
    refine ⟨⟨⟨?_, ?_⟩, ?_⟩, ?_⟩ <;> (rintro rfl; cases h)
  · rintro rfl
    cases h
  · rintro rfl
    cases h

/-- How a number starts. -/
inductive NumberStart : Text → Prop
  | digit {c : CodePoint} (t : Text) (h : asciiDigit c) : NumberStart (c :: t)
  | minus {c : CodePoint} (t : Text) (h : asciiDigit c) : NumberStart (chr '-' :: c :: t)

theorem digit_of_scanDigits {sign : Text} {c : CodePoint} {r : Text × Text} (h : scanDigits sign (c :: t) = some r) : asciiDigit c := by
  rw [scanDigits] at h
  split at h
  · next hc =>
      rw [hc]
      rfl
  · split at h
    · assumption
    · cases h

theorem numberStart_of_scanInteger {r : Text × Text} (h : scanInteger t = some r) : NumberStart t := by
  rw [scanInteger] at h
  cases t with
  | nil => cases h
  | cons c t =>
      simp only [List.head?_cons, Option.some.injEq, List.tail_cons] at h
      by_cases hc : c = chr '-'
      · rw [if_pos hc] at h
        cases t with
        | nil => cases h
        | cons d t =>
            rw [hc]
            exact .minus t (digit_of_scanDigits h)
      · rw [if_neg hc] at h
        exact .digit t (digit_of_scanDigits h)

theorem NumberStart.append (h : NumberStart t) : NumberStart (t ++ rest) := by
  cases h with
  | digit t h => exact .digit (t ++ rest) h
  | minus t h => exact .minus (t ++ rest) h

theorem NumberStart.starts (h : NumberStart t) : ∃ c u, t = c :: u ∧ Starts c := by
  cases h with
  | digit t h => exact ⟨_, t, rfl, starts_of_digit h⟩
  | minus t h => exact ⟨_, _, rfl, by decide, by decide, by decide⟩

theorem isPrefixOf_of_ne {c : CodePoint} {k : Text} (hk : k ≠ []) (h : k.head? ≠ some c) :
    k.isPrefixOf (c :: t) = false := by
  cases k with
  | nil => exact absurd rfl hk
  | cons d k =>
      have hd : (d == c) = false := by simpa using h
      rw [List.isPrefixOf_cons_cons, hd, Bool.false_and]

theorem scanConstant_eq_none (h : ∀ k ∈ (constants toFloat).keys, k.isPrefixOf t = false) :
    scanConstant toFloat t = none := by
  rw [scanConstant, Option.map_eq_none_iff, List.find?_eq_none]
  intro m hm hpre
  rw [h m.1 (List.mem_map.mpr ⟨m, hm, rfl⟩)] at hpre
  cases hpre

theorem keys_constants : (constants toFloat).keys = [LlmGateway.str "null", LlmGateway.str "true",
    LlmGateway.str "false", LlmGateway.str "NaN", LlmGateway.str "Infinity", LlmGateway.str "-Infinity"] := rfl

/-- A number is neither a string nor a collection nor a constant. -/
theorem NumberStart.scanOnce (h : NumberStart t) (n : Nat) : scanOnce toFloat (n + 1) t = scanNumber toFloat t := by
  have hne {c d : CodePoint} (hc : asciiDigit c) (hd : asciiDigit d = false) : c ≠ d := by
    rintro rfl
    rw [hc] at hd
    cases hd
  cases h with
  | @digit c t h =>
      have hconstant : scanConstant toFloat (c :: t) = none := by
        have hdigit : ∀ k ∈ (constants toFloat).keys, k ≠ [] ∧ k.head?.all (fun d => !asciiDigit d) := by
          rw [keys_constants]
          decide
        apply scanConstant_eq_none
        intro k hk
        apply isPrefixOf_of_ne (hdigit k hk).1
        intro heq
        have hall := (hdigit k hk).2
        rw [heq, Option.all_some, h] at hall
        cases hall
      rw [Json.scanOnce, if_neg (hne h rfl), if_neg (hne h rfl), if_neg (hne h rfl), hconstant]
      rfl
  | @minus c t h =>
      have hconstant : scanConstant toFloat (chr '-' :: c :: t) = none := by
        apply scanConstant_eq_none
        rw [keys_constants]
        simp only [List.forall_mem_cons]
        refine ⟨?_, ?_, ?_, ?_, ?_, ?_, fun _ hm => absurd hm List.not_mem_nil⟩
        · exact isPrefixOf_of_ne (by decide) (by decide)
        · exact isPrefixOf_of_ne (by decide) (by decide)
        · exact isPrefixOf_of_ne (by decide) (by decide)
        · exact isPrefixOf_of_ne (by decide) (by decide)
        · exact isPrefixOf_of_ne (by decide) (by decide)
        · have hname : LlmGateway.str "-Infinity" = chr '-' :: LlmGateway.str "Infinity" := rfl
          rw [hname, List.isPrefixOf_cons_cons, isPrefixOf_of_ne (by decide), Bool.and_false]
          intro heq
          exact hne h (d := chr 'I') rfl (Option.some.inj heq).symm
      rw [Json.scanOnce, if_neg (by decide), if_neg (by decide), if_neg (by decide), hconstant]
      rfl

theorem numberStart_of_float (h : isFloatNumber t) : NumberStart t := by
  rw [isFloatNumber] at h
  cases hi : scanInteger t with
  | none =>
      rw [hi] at h
      cases h
  | some r => exact numberStart_of_scanInteger hi

theorem numberStart_integerText (n : Int) : NumberStart (integerText n) := by
  cases n with
  | ofNat n =>
      obtain ⟨c, t, hn, hc, -, -⟩ := naturalText_spec n
      rw [integerText, hn]
      exact .digit t hc
  | negSucc n =>
      obtain ⟨c, t, hn, hc, -, -⟩ := naturalText_spec (n + 1)
      rw [integerText, hn]
      exact .minus t hc

theorem dumps_starts (seps : Separators) (v : Json) (h : v.every (Reads toFloat) (fun _ => true)) :
    ∃ c t, dumps seps v = c :: t ∧ Starts c := by
  cases v with
  | null => exact ⟨chr 'n', LlmGateway.str "ull", by rw [dumps]; rfl, by decide, by decide, by decide⟩
  | bool b =>
      cases b with
      | true => exact ⟨chr 't', LlmGateway.str "rue", by rw [dumps]; rfl, by decide, by decide, by decide⟩
      | false => exact ⟨chr 'f', LlmGateway.str "alse", by rw [dumps]; rfl, by decide, by decide, by decide⟩
  | int n =>
      rw [dumps]
      exact (numberStart_integerText n).starts
  | float repr =>
      rw [every, Reads, Bool.and_eq_true, Bool.or_eq_true] at h
      rw [dumps]
      rcases h.1 with hnumber | hspecial
      · exact (numberStart_of_float hnumber).starts
      · have hall : ∀ t ∈ specialFloats, ∃ c u, t = c :: u ∧ Starts c := by
          simp only [specialFloats, List.forall_mem_cons]
          exact ⟨⟨_, _, rfl, by decide, by decide, by decide⟩, ⟨_, _, rfl, by decide, by decide, by decide⟩,
            ⟨_, _, rfl, by decide, by decide, by decide⟩, fun _ hm => absurd hm List.not_mem_nil⟩
        exact hall _ (List.contains_iff_mem.mp hspecial)
  | str s => exact ⟨chr '"', _, by rw [dumps, quoted]; rfl, by decide, by decide, by decide⟩
  | list items => exact ⟨chr '[', _, by rw [dumps]; rfl, by decide, by decide, by decide⟩
  | dict members => exact ⟨chr '\x7b', _, by rw [dumps]; rfl, by decide, by decide, by decide⟩

theorem dumpsItems_starts (seps : Separators) {v : Json} {vs : List Json} (h : everyItem (Reads toFloat) (fun _ => true) (v :: vs)) :
    ∃ c t, dumpsItems seps (v :: vs) = c :: t ∧ Starts c := by
  rw [everyItem, Bool.and_eq_true] at h
  obtain ⟨c, t, hstart, hc⟩ := dumps_starts seps v h.1
  rw [dumpsItems, hstart]
  by_cases hvs : vs = []
  · exact ⟨c, t, if_pos hvs, hc⟩
  · exact ⟨c, t ++ seps.item ++ dumpsItems seps vs, if_neg hvs, hc⟩

theorem length_escaped (s : Text) : s.length ≤ (s.flatMap escapeChar).length := by
  induction s with
  | nil => exact Nat.le_refl 0
  | cons c s ih =>
      have hpos : 0 < (escapeChar c).length := by
        have hcases := escaped_escapeChar c
        generalize escapeChar c = x at hcases
        cases hcases with
        | plain => exact Nat.one_pos
        | short => exact Nat.two_pos
        | code => exact Nat.succ_pos _
        | pair => exact Nat.succ_pos _
      rw [List.flatMap_cons, List.length_append, List.length_cons]
      omega

/-- A written text, after its opening quote. -/
theorem scanString_written (s rest : Text) :
    scanString (s.flatMap escapeChar ++ chr '"' :: rest).length (s.flatMap escapeChar ++ chr '"' :: rest) =
      some (joined s, rest) := by
  apply scanString_quoted
  have h := length_escaped s
  rw [List.length_append, List.length_cons]
  omega

theorem scanOnce_float {repr : FloatRepr} (h : Reads toFloat repr) {n : Nat} (hrest : Stops rest) :
    scanOnce toFloat (n + 1) (repr.text ++ rest) = some (.float repr, rest) := by
  rw [Reads, Bool.and_eq_true, Bool.or_eq_true, decide_eq_true_eq] at h
  rcases h.1 with hnumber | hspecial
  · rw [(numberStart_of_float hnumber).append.scanOnce, scanNumber_float hrest hnumber, h.2]
  · have hname : ∀ t ∈ specialFloats, scanOnce toFloat (n + 1) (t ++ rest) = some (.float (toFloat t), rest) := by
      simp only [specialFloats, List.forall_mem_cons]
      exact ⟨rfl, rfl, rfl, fun _ hm => absurd hm List.not_mem_nil⟩
    rw [hname _ (List.contains_iff_mem.mp hspecial), h.2]

/-- What stands after a value in a collection. -/
theorem stops_after {c : CodePoint} (h : c = chr ',' ∨ c = chr ']' ∨ c = chr '\x7d') (t : Text) : Stops (c :: t) := by
  apply stops_cons
  rcases h with rfl | rfl | rfl <;> rfl

mutual

/-- A written value is read back with the surrogates in its texts joined. -/
theorem scanOnce_dumps (h : seps.Spaced) : ∀ (v : Json) (n : Nat) (rest : Text), v.every (Reads toFloat) (fun _ => true) →
    (dumps seps v).length ≤ n → Stops rest →
    scanOnce toFloat n (dumps seps v ++ rest) = some (mapText joined v, rest)
  | .null, n, rest, _, hn, _ => by
      rw [dumps] at hn ⊢
      obtain ⟨n, rfl⟩ := Nat.exists_eq_add_of_le' (Nat.le_trans (by decide : 1 ≤ 4) hn)
      rw [mapText]
      rfl
  | .bool b, n, rest, _, hn, _ => by
      rw [dumps] at hn ⊢
      cases b with
      | true =>
          obtain ⟨n, rfl⟩ := Nat.exists_eq_add_of_le' (Nat.le_trans (by decide : 1 ≤ 4) hn)
          rw [mapText]
          rfl
      | false =>
          obtain ⟨n, rfl⟩ := Nat.exists_eq_add_of_le' (Nat.le_trans (by decide : 1 ≤ 5) hn)
          rw [mapText]
          rfl
  | .int i, n, rest, _, hn, hrest => by
      rw [dumps] at hn ⊢
      obtain ⟨c, t, hstart, -⟩ := (numberStart_integerText i).starts
      rw [hstart, List.length_cons] at hn
      obtain ⟨n, rfl⟩ := Nat.exists_eq_add_of_le' (Nat.le_trans (Nat.le_add_left 1 _) hn)
      rw [(numberStart_integerText i).append.scanOnce, scanNumber_integer i hrest, mapText]
  | .float repr, n, rest, hv, hn, hrest => by
      obtain ⟨c, t, hstart, -⟩ := dumps_starts seps (.float repr) hv
      rw [hstart, List.length_cons] at hn
      obtain ⟨n, rfl⟩ := Nat.exists_eq_add_of_le' (Nat.le_trans (Nat.le_add_left 1 _) hn)
      rw [every] at hv
      rw [dumps, scanOnce_float hv hrest, mapText]
  | .str s, n, rest, _, hn, _ => by
      rw [dumps, quoted] at hn ⊢
      obtain ⟨n, rfl⟩ := Nat.exists_eq_add_of_le' (Nat.le_trans (Nat.le_add_left 1 _) hn)
      rw [List.cons_append, List.cons_append, List.append_assoc, List.singleton_append, Json.scanOnce, if_pos rfl,
        scanString_written, mapText]
      rfl
  | .list [], n, rest, _, hn, _ => by
      rw [dumps, dumpsItems] at hn ⊢
      obtain ⟨n, rfl⟩ := Nat.exists_eq_add_of_le' (Nat.le_trans (by decide : 1 ≤ 2) hn)
      rw [mapText]
      rfl
  | .list (v :: vs), n, rest, hv, hn, _ => by
      rw [every] at hv
      rw [dumps] at hn ⊢
      rw [List.length_append, List.length_cons, List.length_singleton] at hn
      obtain ⟨n, rfl⟩ := Nat.exists_eq_add_of_le' (Nat.le_trans (Nat.le_add_left 1 _) hn)
      obtain ⟨c, t, hstart, hc⟩ := dumpsItems_starts seps hv
      have hitems := scanItems_dumps h v vs n rest hv (by omega)
      rw [List.cons_append, List.cons_append, List.append_assoc, List.singleton_append, Json.scanOnce,
        if_neg (by decide), if_neg (by decide), if_pos rfl]
      rw [hstart, List.cons_append] at hitems ⊢
      rw [skip_cons hc.space]
      dsimp only
      rw [if_neg hc.bracket, hitems, mapText]
      rfl
  | .dict [], n, rest, _, hn, _ => by
      rw [dumps, dumpsMembers] at hn ⊢
      obtain ⟨n, rfl⟩ := Nat.exists_eq_add_of_le' (Nat.le_trans (by decide : 1 ≤ 2) hn)
      rw [mapText]
      rfl
  | .dict (m :: ms), n, rest, hv, hn, _ => by
      rw [every] at hv
      rw [dumps] at hn ⊢
      rw [List.length_append, List.length_cons, List.length_singleton] at hn
      obtain ⟨n, rfl⟩ := Nat.exists_eq_add_of_le' (Nat.le_trans (Nat.le_add_left 1 _) hn)
      have hmembers := scanMembers_dumps h m ms n rest hv (by omega)
      have hstart : ∃ t, dumpsMembers seps (m :: ms) = chr '"' :: t := by
        rw [dumpsMembers, quoted]
        exact ⟨_, rfl⟩
      obtain ⟨t, hstart⟩ := hstart
      rw [List.cons_append, List.cons_append, List.append_assoc, List.singleton_append, Json.scanOnce,
        if_neg (by decide), if_pos rfl]
      rw [hstart, List.cons_append] at hmembers ⊢
      rw [skip_cons (by decide)]
      dsimp only
      rw [if_neg (by decide), hmembers, mapText]
      rfl

theorem scanItems_dumps (h : seps.Spaced) : ∀ (v : Json) (vs : List Json) (n : Nat) (rest : Text),
    everyItem (Reads toFloat) (fun _ => true) (v :: vs) → (dumpsItems seps (v :: vs)).length + 1 ≤ n →
    scanItems toFloat n (dumpsItems seps (v :: vs) ++ chr ']' :: rest) = some (mapTextItems joined (v :: vs), rest)
  | v, [], n, rest, hv, hn => by
      rw [everyItem, Bool.and_eq_true] at hv
      rw [dumpsItems, if_pos rfl] at hn ⊢
      obtain ⟨n, rfl⟩ := Nat.exists_eq_add_of_le' (Nat.le_trans (Nat.le_add_left 1 _) hn)
      have hvalue := scanOnce_dumps h v n (chr ']' :: rest) hv.1 (by omega) (stops_after (by decide) rest)
      rw [scanItems, hvalue]
      dsimp only
      rw [skip_cons (by decide)]
      dsimp only
      rw [if_pos rfl, mapTextItems, mapTextItems]
  | v, w :: ws, n, rest, hv, hn => by
      rw [everyItem, Bool.and_eq_true] at hv
      obtain ⟨sep, hsep, hspace⟩ := h.item
      obtain ⟨c, t, hstart, hc⟩ := dumpsItems_starts seps hv.2
      obtain ⟨d, u, hfirst, -⟩ := dumps_starts seps v hv.1
      have hlength := congrArg List.length hfirst
      rw [dumpsItems, if_neg (List.cons_ne_nil w ws), hsep] at hn ⊢
      rw [List.length_append, List.length_append, List.length_cons] at hn
      rw [List.length_cons] at hlength
      obtain ⟨n, rfl⟩ := Nat.exists_eq_add_of_le' (Nat.le_trans (Nat.le_add_left 1 _) hn)
      have hvalue := scanOnce_dumps h v n (chr ',' :: (sep ++ (dumpsItems seps (w :: ws) ++ chr ']' :: rest))) hv.1
        (by omega) (stops_after (by decide) _)
      have hitems := scanItems_dumps h w ws n rest hv.2 (by omega)
      rw [List.append_assoc, List.append_assoc, List.cons_append, scanItems, hvalue]
      dsimp only
      rw [skip_cons (by decide)]
      dsimp only
      rw [if_neg (by decide), if_pos rfl, skip_space hspace]
      rw [hstart, List.cons_append] at hitems ⊢
      rw [skip_cons hc.space, hitems, mapTextItems]
      rfl

theorem scanMembers_dumps (h : seps.Spaced) : ∀ (m : Text × Json) (ms : Members) (n : Nat) (rest : Text),
    everyMember (Reads toFloat) (fun _ => true) (m :: ms) → (dumpsMembers seps (m :: ms)).length + 1 ≤ n →
    scanMembers toFloat n (dumpsMembers seps (m :: ms) ++ chr '\x7d' :: rest) =
      some (mapTextMembers joined (m :: ms), rest)
  | (k, v), ms, n, rest, hv, hn => by
      rw [everyMember, Bool.and_eq_true, Bool.and_eq_true] at hv
      obtain ⟨sep, hsep, hspace⟩ := h.key
      obtain ⟨c, t, hfirst, hc⟩ := dumps_starts seps v hv.1.2
      have hquoted : quoted k ++ seps.key = chr '"' :: (k.flatMap escapeChar ++ chr '"' :: chr ':' :: sep) := by
        rw [quoted, hsep, List.cons_append, List.cons_append, List.append_assoc, List.singleton_append]
      have hlength : (dumps seps v).length ≤ (dumpsMembers seps ((k, v) :: ms)).length - 1 := by
        rw [dumpsMembers, hquoted]
        simp only [List.length_append, List.length_cons]
        omega
      have hmore : ms ≠ [] → (dumpsMembers seps ms).length + 1 < (dumpsMembers seps ((k, v) :: ms)).length := by
        intro hms
        rw [dumpsMembers, hquoted, if_neg hms]
        simp only [List.length_append, List.length_cons]
        omega
      obtain ⟨n, rfl⟩ := Nat.exists_eq_add_of_le' (Nat.le_trans (Nat.le_add_left 1 _) hn)
      -- the key, the colon and the value are read whatever closes or follows them
      have hread (tail : Text) (htail : Stops tail) : ∃ t, quoted k ++ seps.key ++ dumps seps v ++ tail = chr '"' :: t ∧
          scanString t.length t = some (joined k, chr ':' :: (sep ++ (dumps seps v ++ tail))) ∧
          skip (sep ++ (dumps seps v ++ tail)) = dumps seps v ++ tail ∧
          scanOnce toFloat n (dumps seps v ++ tail) = some (mapText joined v, tail) := by
        refine ⟨k.flatMap escapeChar ++ chr '"' :: chr ':' :: (sep ++ (dumps seps v ++ tail)), ?_, ?_, ?_, ?_⟩
        · rw [hquoted]
          simp only [List.cons_append, List.append_assoc]
        · exact scanString_written k _
        · rw [skip_space hspace, hfirst, List.cons_append, skip_cons hc.space]
        · exact scanOnce_dumps h v n tail hv.1.2 (by omega) htail
      by_cases hms : ms = []
      · obtain ⟨t, ht, hkey, hskip, hvalue⟩ := hread (chr '\x7d' :: rest) (stops_after (by decide) rest)
        rw [dumpsMembers, if_pos hms, List.append_nil, ht, scanMembers, if_neg (by decide), hkey]
        dsimp only
        rw [skip_cons (by decide)]
        dsimp only
        rw [if_neg (by decide), hskip, hvalue]
        dsimp only
        rw [skip_cons (by decide)]
        dsimp only
        rw [if_pos rfl, hms, mapTextMembers, mapTextMembers]
      · obtain ⟨m, ms', rfl⟩ := List.exists_cons_of_ne_nil hms
        obtain ⟨item, hitem, hitemspace⟩ := h.item
        have hmembers := scanMembers_dumps h m ms' n rest hv.2 (by have := hmore hms; omega)
        obtain ⟨u, hstart⟩ : ∃ u, dumpsMembers seps (m :: ms') = chr '"' :: u := by
          rw [dumpsMembers, quoted]
          exact ⟨_, rfl⟩
        obtain ⟨t, ht, hkey, hskip, hvalue⟩ := hread (chr ',' :: (item ++ (dumpsMembers seps (m :: ms') ++ chr '\x7d' :: rest)))
          (stops_after (by decide) _)
        rw [dumpsMembers, if_neg hms, hitem, List.append_assoc (_ ++ _ ++ _), List.cons_append, List.cons_append,
          List.append_assoc item, ht, scanMembers, if_neg (by decide), hkey]
        dsimp only
        rw [skip_cons (by decide)]
        dsimp only
        rw [if_neg (by decide), hskip, hvalue]
        dsimp only
        rw [skip_cons (by decide)]
        dsimp only
        rw [if_neg (by decide), if_pos rfl, skip_space hitemspace]
        rw [hstart, List.cons_append] at hmembers ⊢
        rw [skip_cons (by decide), hmembers, mapTextMembers]
        rfl

end

theorem parse_dumps (h : seps.Spaced) {v : Json} (hv : v.every (Reads toFloat) (fun _ => true)) :
    parse toFloat (dumps seps v) = .ok (mapText joined v) := by
  obtain ⟨c, t, hstart, hc⟩ := dumps_starts seps v hv
  have hscan := scanOnce_dumps h v ((dumps seps v).length + 1) [] hv (Nat.le_succ _) stops_nil
  have hskip : skip (dumps seps v) = dumps seps v := by rw [hstart, skip_cons hc.space]
  rw [List.append_nil] at hscan
  rw [parse, hskip, hscan]
  rfl

end Values

end LlmGateway.Json
