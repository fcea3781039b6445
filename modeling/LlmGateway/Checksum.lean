import Mathlib.Data.Nat.ModEq

namespace LlmGateway.Checksum

variable {α : Type} {w : Nat → α → Nat} {m i : Nat} {x y : α}

/-- The sum of the values of a list, each weighed by its position. -/
def weigh (w : Nat → α → Nat) : Nat → List α → Nat
  | _, [] => 0
  | i, v :: vs => w i v + weigh w (i + 1) vs

theorem weigh_append (i : Nat) (a b : List α) : weigh w i (a ++ b) = weigh w i a + weigh w (i + a.length) b := by
  induction a generalizing i with
  | nil => exact (Nat.zero_add _).symm
  | cons v a ih =>
      have hlength : i + (v :: a).length = i + 1 + a.length := by
        rw [List.length_cons]
        omega
      rw [List.cons_append, weigh, weigh, ih, hlength]
      exact (Nat.add_assoc _ _ _).symm

/-- A part of a list is replaced unseen only by one that weighs the same in its place. -/
theorem weigh_middle_iff {u v : List α} (h : u.length = v.length) (a b : List α) :
    weigh w i (a ++ (u ++ b)) ≡ weigh w i (a ++ (v ++ b)) [MOD m] ↔
      weigh w (i + a.length) u ≡ weigh w (i + a.length) v [MOD m] := by
  simp only [weigh_append, h]
  constructor
  · intro h
    exact (Nat.ModEq.add_left_cancel' _ h).add_right_cancel' _
  · intro h
    exact (h.add_right _).add_left _

theorem weigh_replace_iff (a b : List α) : weigh w i (a ++ x :: b) ≡ weigh w i (a ++ y :: b) [MOD m] ↔
    w (i + a.length) x ≡ w (i + a.length) y [MOD m] := weigh_middle_iff (u := [x]) (v := [y]) rfl a b

theorem weigh_swap_iff (a b : List α) : weigh w i (a ++ x :: y :: b) ≡ weigh w i (a ++ y :: x :: b) [MOD m] ↔
    w (i + a.length) x + w (i + a.length + 1) y ≡ w (i + a.length) y + w (i + a.length + 1) x [MOD m] :=
  weigh_middle_iff (u := [x, y]) (v := [y, x]) rfl a b

end LlmGateway.Checksum
