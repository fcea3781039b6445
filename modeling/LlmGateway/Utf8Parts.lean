import LlmGateway.Utf8

namespace LlmGateway.Utf8

section Garbled

/-- The second text has replacement characters in place of some characters of
the first, none of them ASCII. -/
inductive Garbled : Text → Text → Prop
  | nil : Garbled [] []
  | kept {t u : Text} (c : CodePoint) (h : Garbled t u) : Garbled (c :: t) (c :: u)
  | lost {t u : Text} (c : CodePoint) (n : Nat) (hc : isAscii c = false) (h : Garbled t u) :
      Garbled (c :: t) (List.replicate n replacement ++ u)

namespace Garbled

variable {t u v a b : Text}

theorem refl (t : Text) : Garbled t t := by
  induction t with
  | nil => exact .nil
  | cons c t ih => exact .kept c ih

theorem append (h : Garbled t u) (h' : Garbled a b) : Garbled (t ++ a) (u ++ b) := by
  induction h with
  | nil => exact h'
  | kept c h ih => exact .kept c ih
  | lost c n hc h ih =>
      rw [List.append_assoc]
      exact .lost c n hc ih

theorem of_append (h : Garbled (t ++ a) v) : ∃ u b, v = u ++ b ∧ Garbled t u ∧ Garbled a b := by
  induction t generalizing v with
  | nil => exact ⟨[], v, rfl, .nil, h⟩
  | cons c t ih =>
      cases h with
      | kept c h =>
          obtain ⟨u, b, rfl, hu, hb⟩ := ih h
          exact ⟨c :: u, b, rfl, .kept c hu, hb⟩
      | lost c n hc h =>
          obtain ⟨u, b, rfl, hu, hb⟩ := ih h
          exact ⟨List.replicate n replacement ++ u, b, (List.append_assoc _ _ _).symm, .lost c n hc hu, hb⟩

theorem of_replicate {n : Nat} (h : Garbled (List.replicate n replacement) u) : ∃ m, u = List.replicate m replacement := by
  induction n generalizing u with
  | zero =>
      cases h
      exact ⟨0, rfl⟩
  | succ n ih =>
      cases h with
      | kept c h =>
          obtain ⟨m, rfl⟩ := ih h
          exact ⟨m + 1, rfl⟩
      | lost c k hc h =>
          obtain ⟨m, rfl⟩ := ih h
          exact ⟨k + m, List.replicate_append_replicate⟩

theorem trans (h : Garbled t u) (h' : Garbled u v) : Garbled t v := by
  induction h generalizing v with
  | nil => exact h'
  | kept c h ih =>
      cases h' with
      | kept c h' => exact .kept c (ih h')
      | lost c n hc h' => exact .lost c n hc (ih h')
  | lost c n hc h ih =>
      obtain ⟨x, y, rfl, hx, hy⟩ := of_append h'
      obtain ⟨m, rfl⟩ := of_replicate hx
      exact .lost c m hc (ih hy)

/-- What is ASCII stays. -/
theorem eq_of_ascii (ht : t.all isAscii) (h : Garbled t u) : u = t := by
  induction h with
  | nil => rfl
  | kept c h ih =>
      rw [List.all_cons, Bool.and_eq_true] at ht
      rw [ih ht.2]
  | lost c n hc h ih =>
      rw [List.all_cons, hc] at ht
      cases ht

theorem mem_of_ascii {c : CodePoint} (h : Garbled t u) (hc : isAscii c) (hm : c ∈ u) : c ∈ t := by
  induction h with
  | nil => exact hm
  | kept a h ih =>
      rcases List.mem_cons.mp hm with rfl | hm
      · exact List.mem_cons_self
      · exact List.mem_cons_of_mem a (ih hm)
  | lost a n ha h ih =>
      rcases List.mem_append.mp hm with hm | hm
      · rw [List.eq_of_mem_replicate hm] at hc
        cases hc
      · exact List.mem_cons_of_mem a (ih hm)

end Garbled

end Garbled

section Parts

/-- A step either does not look past the end of its bytes or takes them all,
with some that come after them. -/
theorem takeContinuation_cut (n bits : Nat) (x y : Bytes) :
    takeContinuation n bits (x ++ y) = ((takeContinuation n bits x).1, (takeContinuation n bits x).2 ++ y) ∨
      takeContinuation n bits x = (none, []) ∧
        ∃ cs, y = cs ++ (takeContinuation n bits (x ++ y)).2 ∧ ∀ c ∈ cs, isContinuation c := by
  induction n generalizing bits x with
  | zero => exact Or.inl rfl
  | succ n ih =>
      cases x with
      | nil => exact Or.inr ⟨rfl, takeContinuation_spec (n + 1) bits y⟩
      | cons c x =>
          rw [List.cons_append, takeContinuation, takeContinuation]
          split
          · exact ih (shiftIn bits c) x
          · exact Or.inl rfl

theorem decodeStep_cut (b : Byte) (x y : Bytes) :
    decodeStep b (x ++ y) = ((decodeStep b x).1, (decodeStep b x).2 ++ y) ∨
      decodeStep b x = (none, []) ∧ 0x80 ≤ b.val ∧
        ∃ cs, y = cs ++ (decodeStep b (x ++ y)).2 ∧ ∀ c ∈ cs, isContinuation c := by
  cases ht : trailing b with
  | none =>
      left
      simp only [decodeStep, ht]
  | some n =>
      cases n with
      | zero =>
          left
          simp only [decodeStep, ht]
      | succ n =>
          have hb : 0x80 ≤ b.val := by
            have := trailing_succ ht
            omega
          cases x with
          | nil =>
              refine Or.inr ⟨?_, hb, decodeStep_spec b y⟩
              simp only [decodeStep, ht]
          | cons c x =>
              simp only [decodeStep, ht, List.cons_append]
              split
              · rcases takeContinuation_cut n (shiftIn (leadBits b n) c) x y with hcut | ⟨hx, hy⟩
                · exact Or.inl hcut
                · exact Or.inr ⟨hx, hb, hy⟩
              · exact Or.inl rfl

theorem decodeReplace_cons (b : Byte) (x : Bytes) :
    decodeReplace (b :: x) = (decodeStep b x).1.getD replacement :: decodeReplace (decodeStep b x).2 := by
  rw [decodeReplace, units_cons, List.map_cons]
  rfl

theorem decodeReplace_continuation {cs : Bytes} (h : ∀ c ∈ cs, isContinuation c) (x : Bytes) :
    decodeReplace (cs ++ x) = List.replicate cs.length replacement ++ decodeReplace x := by
  induction cs with
  | nil => rfl
  | cons c cs ih =>
      obtain ⟨hc, hcs⟩ := List.forall_mem_cons.mp h
      have hstep : decodeStep c (cs ++ x) = (none, cs ++ x) := by
        simp only [decodeStep, trailing_of_isContinuation hc]
      rw [List.cons_append, decodeReplace_cons, hstep, ih hcs]
      rfl

theorem decodeStep_nonascii {b : Byte} (hb : 0x80 ≤ b.val) (x : Bytes) :
    isAscii ((decodeStep b x).1.getD replacement) = false := by
  cases h : (decodeStep b x).1 with
  | none => rfl
  | some c =>
      rw [Option.getD_some, isAscii, decide_eq_false_iff_not]
      intro hc
      have := (decodeStep_ascii x hc).mp h
      omega

/-- A cut inside a character replaces it. -/
theorem garbled_append (x y : Bytes) : Garbled (decodeReplace (x ++ y)) (decodeReplace x ++ decodeReplace y) := by
  induction hn : x.length using Nat.strongRecOn generalizing x with
  | ind n ih =>
      cases x with
      | nil => exact .refl _
      | cons b x =>
          rw [List.length_cons] at hn
          rw [List.cons_append, decodeReplace_cons, decodeReplace_cons b x, List.cons_append]
          rcases decodeStep_cut b x y with hcut | ⟨hx, hb, cs, hy, hcs⟩
          · have hlen := decodeStep_length b x
            rw [hcut]
            exact .kept _ (ih _ (by omega) _ rfl)
          · have hc := decodeStep_nonascii hb (x ++ y)
            have hlost := Garbled.lost _ (cs.length + 1) hc (.refl (decodeReplace (decodeStep b (x ++ y)).2))
            rw [List.replicate_succ, List.cons_append, ← decodeReplace_continuation hcs, ← hy] at hlost
            rwa [hx]

/-- A text decoded in parts. -/
theorem garbled_parts (parts : List Bytes) : Garbled (decodeReplace parts.flatten) (parts.map decodeReplace).flatten := by
  induction parts with
  | nil => exact .refl _
  | cons x parts ih =>
      rw [List.flatten_cons, List.map_cons, List.flatten_cons]
      exact (garbled_append x parts.flatten).trans ((Garbled.refl _).append ih)

end Parts

end LlmGateway.Utf8
