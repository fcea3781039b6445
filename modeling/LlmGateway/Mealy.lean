import Mathlib.Data.List.Basic

namespace LlmGateway.Mealy

variable {σ ι ω M : Type} {step : σ → ι → ω × σ} {xs : List ι}

variable (step) in
/-- The inputs of a machine with what it answers to each, and its last state. -/
def run : σ → List ι → List (ι × ω) × σ
  | s, [] => ([], s)
  | s, x :: xs => ((x, (step s x).1) :: (run (step s x).2 xs).1, (run (step s x).2 xs).2)

theorem run_cons (s : σ) (x : ι) (xs : List ι) :
    run step s (x :: xs) = ((x, (step s x).1) :: (run step (step s x).2 xs).1, (run step (step s x).2 xs).2) := rfl

theorem run_length (s : σ) (xs : List ι) : (run step s xs).1.length = xs.length := by
  induction xs generalizing s with
  | nil => rfl
  | cons x xs ih => rw [run_cons, List.length_cons, List.length_cons, ih]

/-- Every answer is given in the state that the inputs before it have led to. -/
theorem run_getElem? (s : σ) {n : Nat} {x : ι} (h : xs[n]? = some x) :
    (run step s xs).1[n]? = some (x, (step (run step s (xs.take n)).2 x).1) ∧
      (run step s (xs.take (n + 1))).2 = (step (run step s (xs.take n)).2 x).2 := by
  induction xs generalizing s n with
  | nil => cases h
  | cons y xs ih =>
      cases n with
      | zero =>
          cases h
          exact ⟨rfl, rfl⟩
      | succ n =>
          rw [List.getElem?_cons_succ] at h
          rw [List.take_succ_cons, List.take_succ_cons, run_cons, run_cons, run_cons]
          exact ih _ h

section Trace

variable {trace : σ → List M} {adds : ι × ω → List M} {P : ι × ω → Prop}

/-- What every step adds to a trace of the state a run adds in turn. -/
theorem run_flatMap {s : σ} (hstep : ∀ s, ∀ x ∈ xs, P (x, (step s x).1) →
      trace (step s x).2 = trace s ++ adds (x, (step s x).1)) (hrun : ∀ e ∈ (run step s xs).1, P e) :
    trace (run step s xs).2 = trace s ++ (run step s xs).1.flatMap adds := by
  induction xs generalizing s with
  | nil => exact (List.append_nil _).symm
  | cons x xs ih =>
      rw [run_cons] at hrun ⊢
      rw [List.flatMap_cons, ← List.append_assoc, ← hstep s x List.mem_cons_self (hrun _ List.mem_cons_self)]
      exact ih (fun s y hy => hstep s y (List.mem_cons_of_mem _ hy)) fun e he => hrun e (List.mem_cons_of_mem _ he)

end Trace

section Purge

variable {mine : ι → Bool} {R : List ι → σ → σ → Prop}

variable (step) in
/-- Two states that a party cannot tell apart with these inputs still to come
stay so when the second machine skips the inputs of others. -/
structure Unwinding (mine : ι → Bool) (R : List ι → σ → σ → Prop) : Prop where
  skip : ∀ {x xs s s'}, R (x :: xs) s s' → mine x = false → R xs (step s x).2 s'
  answer : ∀ {x xs s s'}, R (x :: xs) s s' → mine x = true → (step s' x).1 = (step s x).1
  advance : ∀ {x xs s s'}, R (x :: xs) s s' → mine x = true → R xs (step s x).2 (step s' x).2

/-- A party is answered as if it were alone. -/
theorem Unwinding.run_filter (h : Unwinding step mine R) {s s' : σ} (hR : R xs s s') :
    (run step s' (xs.filter mine)).1 = (run step s xs).1.filter (fun e => mine e.1) ∧
      R [] (run step s xs).2 (run step s' (xs.filter mine)).2 := by
  induction xs generalizing s s' with
  | nil => exact ⟨rfl, hR⟩
  | cons x xs ih =>
      rw [run_cons]
      cases hx : mine x with
      | false =>
          rw [List.filter_cons_of_neg (by simp [hx]), List.filter_cons_of_neg (by simp [hx])]
          exact ih (h.skip hR hx)
      | true =>
          obtain ⟨hanswers, hlast⟩ := ih (h.advance hR hx)
          rw [List.filter_cons_of_pos hx, List.filter_cons_of_pos (by simpa using hx), run_cons, h.answer hR hx, hanswers]
          exact ⟨rfl, hlast⟩

end Purge

end LlmGateway.Mealy
