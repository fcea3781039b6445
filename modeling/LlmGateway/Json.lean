import LlmGateway.Utf8
import Mathlib.Data.List.Nodup

namespace LlmGateway

namespace Json

def printed (c : CodePoint) : Bool := 0x20 ≤ c.val && c.val < 0x7F

end Json

/-- What json.dumps writes for a float. -/
structure FloatRepr where
  text : Text
  printed : text.all Json.printed = true
  deriving DecidableEq

/-- The values of the json module, and its source texts with every member of an
object in the order of the text. -/
inductive Json
  | null
  | bool (b : Bool)
  | int (n : Int)
  | float (repr : FloatRepr)
  | str (s : Text)
  | list (items : List Json)
  | dict (members : List (Text × Json))

namespace Json

abbrev Members := List (Text × Json)

namespace Members

def keys (ms : Members) : List Text := ms.map Prod.fst

/-- dict.get -/
def get? (ms : Members) (key : Text) : Option Json := (ms.find? fun m => m.1 = key).map Prod.snd

/-- d[key] = value: an old key keeps its place. -/
def set : Members → Text → Json → Members
  | [], key, value => [(key, value)]
  | (k, v) :: ms, key, value => if k = key then (k, value) :: ms else (k, v) :: set ms key value

def setDefault (ms : Members) (key : Text) (value : Json) : Members :=
  if key ∈ ms.keys then ms else ms ++ [(key, value)]

@[simp] theorem keys_cons (m : Text × Json) (ms : Members) : keys (m :: ms) = m.1 :: keys ms := rfl

theorem keys_set_of_mem {ms : Members} {key : Text} (value : Json) (h : key ∈ ms.keys) :
    (ms.set key value).keys = ms.keys := by
  induction ms with
  | nil => cases h
  | cons m ms ih =>
      obtain ⟨k, v⟩ := m
      rw [set]
      split
      · rfl
      · next hk => rw [keys_cons, keys_cons, ih ((List.mem_cons.mp h).resolve_left fun heq => hk heq.symm)]

theorem set_of_not_mem {ms : Members} {key : Text} (value : Json) (h : key ∉ ms.keys) :
    ms.set key value = ms ++ [(key, value)] := by
  induction ms with
  | nil => rfl
  | cons m ms ih =>
      obtain ⟨k, v⟩ := m
      rw [keys, List.map_cons, List.mem_cons, not_or] at h
      rw [set, if_neg (fun hk => h.1 hk.symm), ih h.2, List.cons_append]

theorem mem_set {ms : Members} {key : Text} {value : Json} {m : Text × Json}
    (h : m ∈ ms.set key value) : m ∈ ms ∨ m = (key, value) := by
  induction ms with
  | nil => exact Or.inr (List.mem_singleton.mp h)
  | cons m' ms ih =>
      obtain ⟨k, v⟩ := m'
      rw [set] at h
      split at h
      · next hk =>
          rcases List.mem_cons.mp h with rfl | h
          · exact Or.inr (by rw [hk])
          · exact Or.inl (List.mem_cons_of_mem _ h)
      · rcases List.mem_cons.mp h with rfl | h
        · exact Or.inl List.mem_cons_self
        · exact (ih h).imp_left (List.mem_cons_of_mem _)

theorem mem_set_iff {ms : Members} {key : Text} (value : Json) (hnodup : ms.keys.Nodup) (hkey : key ∈ ms.keys)
    {m : Text × Json} : m ∈ ms.set key value ↔ m ∈ ms ∧ m.1 ≠ key ∨ m = (key, value) := by
  induction ms with
  | nil => cases hkey
  | cons m' ms ih =>
      obtain ⟨k, v⟩ := m'
      obtain ⟨hk, hnodup⟩ := List.nodup_cons.mp hnodup
      rw [set]
      split
      · next heq =>
          subst heq
          have hne (hm : m ∈ ms) : m.1 ≠ k := fun h => hk (List.mem_map.mpr ⟨m, hm, h⟩)
          simp only [List.mem_cons]
          constructor
          · rintro (rfl | hm)
            · exact Or.inr rfl
            · exact Or.inl ⟨Or.inr hm, hne hm⟩
          · rintro (⟨rfl | hm, h⟩ | rfl)
            · exact absurd rfl h
            · exact Or.inr hm
            · exact Or.inl rfl
      · next hne =>
          have hmem : key ∈ keys ms := (List.mem_cons.mp hkey).resolve_left fun h => hne h.symm
          rw [List.mem_cons, List.mem_cons, ih hnodup hmem]
          constructor
          · rintro (rfl | ⟨hm, h⟩ | rfl)
            · exact Or.inl ⟨Or.inl rfl, hne⟩
            · exact Or.inl ⟨Or.inr hm, h⟩
            · exact Or.inr rfl
          · rintro (⟨rfl | hm, h⟩ | rfl)
            · exact Or.inl rfl
            · exact Or.inr (Or.inl ⟨hm, h⟩)
            · exact Or.inr (Or.inr rfl)

theorem mem_setDefault {ms : Members} {key : Text} {value : Json} {m : Text × Json}
    (h : m ∈ ms.setDefault key value) : m ∈ ms ∨ m = (key, value) := by
  rw [setDefault] at h
  split at h
  · exact Or.inl h
  · simpa using h

theorem get?_set_self (ms : Members) (key : Text) (value : Json) :
    (ms.set key value).get? key = some value := by
  induction ms with
  | nil => simp [set, get?]
  | cons m ms ih =>
      obtain ⟨k, v⟩ := m
      by_cases hk : k = key
      · simp [set, get?, hk]
      · rw [set, if_neg hk]
        simpa [get?, hk] using ih

theorem get?_set_of_ne {ms : Members} {key other : Text} (value : Json) (h : other ≠ key) :
    (ms.set key value).get? other = ms.get? other := by
  induction ms with
  | nil => simp [set, get?, Ne.symm h]
  | cons m ms ih =>
      obtain ⟨k, v⟩ := m
      by_cases hk : k = key
      · simp [set, get?, hk, Ne.symm h]
      · rw [set, if_neg hk]
        by_cases ho : k = other
        · simp [get?, ho]
        · simpa [get?, ho] using ih

theorem mem_of_get? {ms : Members} {key : Text} {value : Json} (h : ms.get? key = some value) : (key, value) ∈ ms := by
  rw [get?, Option.map_eq_some_iff] at h
  obtain ⟨m, hfind, rfl⟩ := h
  have hkey : m.1 = key := by simpa using List.find?_some hfind
  rw [← hkey]
  exact List.mem_of_find?_eq_some hfind

theorem mem_keys_of_get? {ms : Members} {key : Text} {value : Json} (h : ms.get? key = some value) : key ∈ ms.keys :=
  List.mem_map.mpr ⟨(key, value), mem_of_get? h, rfl⟩

end Members

/-- What is made of a member that is written twice. -/
inductive Duplicates
  | first | last
  deriving DecidableEq, Repr

def Duplicates.add : Duplicates → Members → Text × Json → Members
  | first, ms, m => ms.setDefault m.1 m.2
  | last, ms, m => ms.set m.1 m.2

def ofPairs (rule : Duplicates) (pairs : Members) : Members := pairs.foldl rule.add []

section Resolve

variable (rule : Duplicates)

mutual

/-- The value of a source text under a rule for duplicate members. -/
def resolve : Json → Json
  | .null => .null
  | .bool b => .bool b
  | .int n => .int n
  | .float repr => .float repr
  | .str s => .str s
  | .list items => .list (resolveItems items)
  | .dict members => .dict (ofPairs rule (resolveMembers members))

def resolveItems : List Json → List Json
  | [] => []
  | v :: vs => resolve v :: resolveItems vs

def resolveMembers : Members → Members
  | [] => []
  | (k, v) :: ms => (k, resolve v) :: resolveMembers ms

end

mutual

/-- No object has two members of one name. -/
def Distinct : Json → Prop
  | .list items => DistinctItems items
  | .dict members => (Members.keys members).Nodup ∧ DistinctMembers members
  | _ => True

def DistinctItems : List Json → Prop
  | [] => True
  | v :: vs => Distinct v ∧ DistinctItems vs

def DistinctMembers : Members → Prop
  | [] => True
  | (_, v) :: ms => Distinct v ∧ DistinctMembers ms

end

theorem keys_add_of_mem {ms : Members} {m : Text × Json} (h : m.1 ∈ ms.keys) : (rule.add ms m).keys = ms.keys := by
  cases rule with
  | first => exact congrArg Members.keys (if_pos h)
  | last => exact Members.keys_set_of_mem m.2 h

theorem add_of_not_mem {ms : Members} {m : Text × Json} (h : m.1 ∉ ms.keys) : rule.add ms m = ms ++ [m] := by
  cases rule with
  | first => exact if_neg h
  | last => exact Members.set_of_not_mem m.2 h

theorem mem_add {ms : Members} {m m' : Text × Json} (h : m' ∈ rule.add ms m) : m' ∈ ms ∨ m' = m := by
  cases rule with
  | first => exact Members.mem_setDefault h
  | last => exact Members.mem_set h

theorem nodup_foldl_add (pairs ms : Members) (h : ms.keys.Nodup) : (pairs.foldl rule.add ms).keys.Nodup := by
  induction pairs generalizing ms with
  | nil => exact h
  | cons m pairs ih =>
      refine ih _ ?_
      by_cases hm : m.1 ∈ ms.keys
      · rwa [keys_add_of_mem rule hm]
      · rw [add_of_not_mem rule hm, Members.keys, List.map_append, List.nodup_append]
        exact ⟨h, List.nodup_singleton _, fun a ha b hb => by rintro rfl; exact hm (List.mem_singleton.mp hb ▸ ha)⟩

theorem mem_foldl_add {pairs ms : Members} {m : Text × Json} (h : m ∈ pairs.foldl rule.add ms) :
    m ∈ ms ∨ m ∈ pairs := by
  induction pairs generalizing ms with
  | nil => exact Or.inl h
  | cons m' pairs ih =>
      rcases ih h with h | h
      · exact (mem_add rule h).imp_right fun h => List.mem_cons.mpr (Or.inl h)
      · exact Or.inr (List.mem_cons_of_mem _ h)

theorem foldl_add_of_nodup (pairs ms : Members) (h : (ms ++ pairs).keys.Nodup) :
    pairs.foldl rule.add ms = ms ++ pairs := by
  induction pairs generalizing ms with
  | nil => exact (List.append_nil ms).symm
  | cons m pairs ih =>
      have hm : m.1 ∉ ms.keys := fun hm => by
        rw [Members.keys, List.map_append, List.map_cons, List.nodup_append] at h
        exact h.2.2 _ hm _ List.mem_cons_self rfl
      rw [List.foldl_cons, add_of_not_mem rule hm, ih, List.append_assoc]
      · rfl
      · rwa [List.append_assoc]

theorem ofPairs_of_nodup {pairs : Members} (h : pairs.keys.Nodup) : ofPairs rule pairs = pairs :=
  foldl_add_of_nodup rule pairs [] h

theorem distinctMembers_iff {ms : Members} : DistinctMembers ms ↔ ∀ m ∈ ms, Distinct m.2 := by
  induction ms with
  | nil => exact iff_of_true trivial fun m hm => absurd hm List.not_mem_nil
  | cons m ms ih => rw [DistinctMembers, ih, List.forall_mem_cons]

mutual

theorem distinct_resolve : ∀ v, Distinct (resolve rule v)
  | .null | .bool _ | .int _ | .float _ | .str _ => by simp [resolve, Distinct]
  | .list items => by
      rw [resolve, Distinct]
      exact distinct_resolveItems items
  | .dict members => by
      rw [resolve, Distinct]
      refine ⟨nodup_foldl_add rule _ [] List.nodup_nil, distinctMembers_iff.mpr fun m hm => ?_⟩
      have hmem := (mem_foldl_add rule hm).resolve_left List.not_mem_nil
      exact distinctMembers_iff.mp (distinct_resolveMembers members) m hmem

theorem distinct_resolveItems : ∀ vs, DistinctItems (resolveItems rule vs)
  | [] => trivial
  | v :: vs => ⟨distinct_resolve v, distinct_resolveItems vs⟩

theorem distinct_resolveMembers : ∀ ms, DistinctMembers (resolveMembers rule ms)
  | [] => trivial
  | (_, v) :: ms => ⟨distinct_resolve v, distinct_resolveMembers ms⟩

end

mutual

theorem resolve_of_distinct : ∀ v, Distinct v → resolve rule v = v
  | .null, _ | .bool _, _ | .int _, _ | .float _, _ | .str _, _ => by simp [resolve]
  | .list items, h => by
      rw [resolve, resolveItems_of_distinct items h]
  | .dict members, h => by
      rw [Distinct] at h
      rw [resolve, resolveMembers_of_distinct members h.2, ofPairs_of_nodup rule h.1]

theorem resolveItems_of_distinct : ∀ vs, DistinctItems vs → resolveItems rule vs = vs
  | [], _ => rfl
  | v :: vs, h => by
      rw [resolveItems, resolve_of_distinct v h.1, resolveItems_of_distinct vs h.2]

theorem resolveMembers_of_distinct : ∀ ms, DistinctMembers ms → resolveMembers rule ms = ms
  | [], _ => rfl
  | (_, v) :: ms, h => by
      rw [resolveMembers, resolve_of_distinct v h.1, resolveMembers_of_distinct ms h.2]

end

end Resolve

section Dumps

/-- The separators argument of json.dumps. -/
structure Separators where
  item : Text
  key : Text

def defaultSeparators : Separators := ⟨LlmGateway.str ", ", LlmGateway.str ": "⟩

def compactSeparators : Separators := ⟨LlmGateway.str ",", LlmGateway.str ":"⟩

def hexDigit (n : Nat) : CodePoint := chr (Nat.digitChar (n % 16))

def unicodeEscape (n : Nat) : Text :=
  LlmGateway.str "\\u" ++ [hexDigit (n / 4096), hexDigit (n / 256), hexDigit (n / 16), hexDigit n]

/-- The escapes of ensure_ascii. -/
def escapeChar (c : CodePoint) : Text :=
  if c = chr '"' then LlmGateway.str "\\\""
  else if c = chr '\\' then LlmGateway.str "\\\\"
  else if c = chr '\n' then LlmGateway.str "\\n"
  else if c = chr '\r' then LlmGateway.str "\\r"
  else if c = chr '\t' then LlmGateway.str "\\t"
  else if c.val = 0x0C then LlmGateway.str "\\f"
  else if c.val = 0x08 then LlmGateway.str "\\b"
  else if printed c then [c]
  else if c.val < 0x10000 then unicodeEscape c.val
  else unicodeEscape (0xD800 + (c.val - 0x10000) / 0x400) ++ unicodeEscape (0xDC00 + c.val % 0x400)

def quoted (s : Text) : Text := chr '"' :: s.flatMap escapeChar ++ [chr '"']

def naturalText (n : Nat) : Text := (Nat.toDigits 10 n).map chr

def integerText : Int → Text
  | .ofNat n => naturalText n
  | .negSucc n => chr '-' :: naturalText (n + 1)

variable (seps : Separators)

mutual

/-- json.dumps -/
def dumps : Json → Text
  | .null => LlmGateway.str "null"
  | .bool b => LlmGateway.str (if b then "true" else "false")
  | .int n => integerText n
  | .float repr => repr.text
  | .str s => quoted s
  | .list items => chr '[' :: dumpsItems items ++ [chr ']']
  | .dict members => chr '\x7b' :: dumpsMembers members ++ [chr '\x7d']

def dumpsItems : List Json → Text
  | [] => []
  | v :: vs => (if vs = [] then dumps v else dumps v ++ seps.item ++ dumpsItems vs)

def dumpsMembers : Members → Text
  | [] => []
  | (k, v) :: ms => quoted k ++ seps.key ++ dumps v ++ (if ms = [] then [] else seps.item ++ dumpsMembers ms)

end

abbrev Printed (t : Text) : Prop := t.all printed

structure Separators.Printed (seps : Separators) : Prop where
  item : Json.Printed seps.item
  key : Json.Printed seps.key

theorem printed_default : defaultSeparators.Printed := ⟨by decide, by decide⟩

theorem printed_compact : compactSeparators.Printed := ⟨by decide, by decide⟩

theorem printed_append {t u : Text} : Printed (t ++ u) ↔ Printed t ∧ Printed u := by
  simp [Printed]

theorem printed_cons {c : CodePoint} {t : Text} : Printed (c :: t) ↔ printed c ∧ Printed t := by
  simp [Printed]

theorem scalar_of_printed {t : Text} (h : Printed t) : Utf8.scalar t := by
  rw [Utf8.scalar, List.all_eq_true]
  intro c hc
  have hp := List.all_eq_true.mp h c hc
  simp only [printed, isSurrogate, Bool.and_eq_true, decide_eq_true_eq, Bool.not_eq_true',
    Bool.and_eq_false_iff, decide_eq_false_iff_not] at hp ⊢
  omega

theorem ascii_of_printed {t : Text} (h : Printed t) : t.all isAscii := by
  rw [List.all_eq_true]
  intro c hc
  have hprinted := List.all_eq_true.mp h c hc
  simp only [printed, Bool.and_eq_true, decide_eq_true_eq, isAscii] at hprinted ⊢
  omega

theorem printed_hexDigit (n : Nat) : printed (hexDigit n) := by
  have hdigits : ∀ m < 16, printed (chr (Nat.digitChar m)) := by decide
  exact hdigits _ (Nat.mod_lt n (by decide))

theorem printed_unicodeEscape (n : Nat) : Printed (unicodeEscape n) := by
  rw [unicodeEscape, printed_append]
  refine ⟨by decide, ?_⟩
  simp only [printed_cons, printed_hexDigit, true_and]
  rfl

theorem printed_escapeChar (c : CodePoint) : Printed (escapeChar c) := by
  rw [escapeChar]
  split; · decide
  split; · decide
  split; · decide
  split; · decide
  split; · decide
  split; · decide
  split; · decide
  split
  · next h => exact printed_cons.mpr ⟨h, rfl⟩
  split
  · exact printed_unicodeEscape _
  · exact printed_append.mpr ⟨printed_unicodeEscape _, printed_unicodeEscape _⟩

theorem printed_quoted (s : Text) : Printed (quoted s) := by
  rw [quoted, printed_append, printed_cons]
  refine ⟨⟨by decide, ?_⟩, by decide⟩
  induction s with
  | nil => rfl
  | cons c s ih => exact printed_append.mpr ⟨printed_escapeChar c, ih⟩

theorem printed_naturalText (n : Nat) : Printed (naturalText n) := by
  rw [Printed, naturalText, List.all_map, List.all_eq_true]
  intro c hc
  have hd := Nat.isDigit_of_mem_toDigits (by decide) (by decide) hc
  rw [Char.isDigit_iff_toNat] at hd
  have h0 : '0'.toNat = 48 := rfl
  have h9 : '9'.toNat = 57 := rfl
  have hval : (chr c).val = c.toNat := rfl
  simp only [Function.comp, printed, hval, Bool.and_eq_true, decide_eq_true_eq]
  omega

theorem printed_integerText (n : Int) : Printed (integerText n) := by
  cases n with
  | ofNat n => exact printed_naturalText n
  | negSucc n => exact printed_cons.mpr ⟨by decide, printed_naturalText (n + 1)⟩

variable {seps}

mutual

theorem printed_dumps (h : seps.Printed) : ∀ v, Printed (dumps seps v)
  | .null => by rw [dumps]; decide
  | .bool b => by rw [dumps]; cases b <;> decide
  | .int n => by rw [dumps]; exact printed_integerText n
  | .float repr => by rw [dumps]; exact repr.printed
  | .str s => by rw [dumps]; exact printed_quoted s
  | .list items => by
      rw [dumps, printed_append, printed_cons]
      exact ⟨⟨by decide, printed_dumpsItems h items⟩, by decide⟩
  | .dict members => by
      rw [dumps, printed_append, printed_cons]
      exact ⟨⟨by decide, printed_dumpsMembers h members⟩, by decide⟩

theorem printed_dumpsItems (h : seps.Printed) : ∀ vs, Printed (dumpsItems seps vs)
  | [] => by rfl
  | v :: vs => by
      rw [dumpsItems]
      split
      · exact printed_dumps h v
      · exact printed_append.mpr ⟨printed_append.mpr ⟨printed_dumps h v, h.item⟩, printed_dumpsItems h vs⟩

theorem printed_dumpsMembers (h : seps.Printed) : ∀ ms, Printed (dumpsMembers seps ms)
  | [] => by rfl
  | (k, v) :: ms => by
      rw [dumpsMembers]
      refine printed_append.mpr ⟨printed_append.mpr ⟨printed_append.mpr ⟨printed_quoted k, h.key⟩,
        printed_dumps h v⟩, ?_⟩
      split
      · rfl
      · exact printed_append.mpr ⟨h.item, printed_dumpsMembers h ms⟩

end

end Dumps

section Every

variable (okFloat : FloatRepr → Bool) (okText : Text → Bool)

mutual

/-- Whether all floats and all texts of a value pass a test. -/
def every : Json → Bool
  | .null | .bool _ | .int _ => true
  | .float repr => okFloat repr
  | .str s => okText s
  | .list items => everyItem items
  | .dict members => everyMember members

def everyItem : List Json → Bool
  | [] => true
  | v :: vs => every v && everyItem vs

def everyMember : Members → Bool
  | [] => true
  | (k, v) :: ms => okText k && every v && everyMember ms

end

variable {okFloat okText} {ms : Members} {key : Text} {v : Json}

theorem everyItem_iff {vs : List Json} : everyItem okFloat okText vs ↔ ∀ v ∈ vs, every okFloat okText v := by
  induction vs with
  | nil => exact iff_of_true rfl fun v hv => absurd hv List.not_mem_nil
  | cons v vs ih => rw [everyItem, Bool.and_eq_true, ih, List.forall_mem_cons]

theorem everyMember_iff : everyMember okFloat okText ms ↔ ∀ m ∈ ms, okText m.1 ∧ every okFloat okText m.2 := by
  induction ms with
  | nil => exact iff_of_true rfl fun m hm => absurd hm List.not_mem_nil
  | cons m ms ih => rw [everyMember, Bool.and_eq_true, Bool.and_eq_true, ih, List.forall_mem_cons]

theorem every_of_get? (h : everyMember okFloat okText ms) (hg : ms.get? key = some v) : every okFloat okText v :=
  (everyMember_iff.mp h _ (Members.mem_of_get? hg)).2

theorem everyMember_set (h : everyMember okFloat okText ms) (hk : okText key) (hv : every okFloat okText v) :
    everyMember okFloat okText (ms.set key v) := by
  refine everyMember_iff.mpr fun m hm => ?_
  rcases Members.mem_set hm with hm | rfl
  · exact everyMember_iff.mp h m hm
  · exact ⟨hk, hv⟩

end Every

/-- The exceptions of json.loads. -/
inductive LoadError
  | jsonDecodeError | unicodeDecodeError | valueError | recursionError
  deriving DecidableEq, Repr

/-- isinstance(exc, ValueError) -/
def LoadError.isValueError : LoadError → Bool
  | jsonDecodeError | unicodeDecodeError | valueError => true
  | recursionError => false

/-- The reading half of the json module, and the int that a float equals. -/
structure Decoder where
  parse : Text → Except LoadError Json
  parseBytes : Bytes → Except LoadError Json
  integral : FloatRepr → Option Int

namespace Decoder

variable (json : Decoder)

/-- json.loads of a str: the last of two members of one name counts. -/
def loads (t : Text) : Except LoadError Json := (json.parse t).map (resolve .last)

/-- json.loads of bytes. -/
def loadsBytes (x : Bytes) : Except LoadError Json := (json.parseBytes x).map (resolve .last)

end Decoder

end Json

end LlmGateway
