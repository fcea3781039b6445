import Mathlib.Algebra.Order.BigOperators.Group.List
import Mathlib.Algebra.Order.Group.Unbundled.Basic
import Mathlib.Data.List.Induction
import Mathlib.Logic.Function.Basic

namespace LlmGateway.SlidingWindow

variable {κ T M : Type}

/-- What has become of a reservation. -/
inductive Settlement (M : Type)
  | unsettled
  | reconciled (actual : M)
  | released
  deriving DecidableEq

namespace Settlement

/-- What a released reservation has given back it does not take again. -/
def reconcile (actual : M) : Settlement M → Settlement M
  | released => released
  | _ => reconciled actual

def release : Settlement M → Settlement M := fun _ => released

end Settlement

/-- A line of a complete log: a reservation under the number it was given. -/
structure Entry (T M : Type) where
  number : Nat
  time : T
  estimate : M
  settlement : Settlement M
  deriving DecidableEq

namespace Entry

def settle (f : Settlement M → Settlement M) (number : Nat) (e : Entry T M) : Entry T M :=
  if e.number = number then { e with settlement := f e.settlement } else e

@[simp] theorem settle_number (f : Settlement M → Settlement M) (n : Nat) (e : Entry T M) :
    (e.settle f n).number = e.number := by
  rw [settle]
  split <;> rfl

@[simp] theorem settle_time (f : Settlement M → Settlement M) (n : Nat) (e : Entry T M) :
    (e.settle f n).time = e.time := by
  rw [settle]
  split <;> rfl

theorem settle_of_ne {f : Settlement M → Settlement M} {n : Nat} {e : Entry T M} (h : e.number ≠ n) :
    e.settle f n = e := if_neg h

variable [AddCommGroup M] [LinearOrder M]

def charge (e : Entry T M) : M :=
  match e.settlement with
  | .unsettled => e.estimate
  | .reconciled actual => actual
  | .released => 0

/-- What a settlement takes beyond the estimate. -/
def overrun (e : Entry T M) : M :=
  match e.settlement with
  | .reconciled actual => max 0 (actual - e.estimate)
  | _ => 0

/-- The part of the charge that the estimate covers. -/
def covered (e : Entry T M) : M :=
  match e.settlement with
  | .unsettled => e.estimate
  | .reconciled actual => min actual e.estimate
  | .released => 0

/-- Neither the estimate nor the amount it is reconciled to is negative. -/
def Nonneg (e : Entry T M) : Prop :=
  0 ≤ e.estimate ∧ ∀ actual, e.settlement = .reconciled actual → 0 ≤ actual

theorem Nonneg.covered_nonneg {e : Entry T M} (h : e.Nonneg) : 0 ≤ e.covered := by
  cases hs : e.settlement with
  | unsettled => simpa [covered, hs] using h.1
  | released => simp [covered, hs]
  | reconciled actual => simpa [covered, hs] using ⟨h.2 actual hs, h.1⟩

theorem covered_settle_le {e : Entry T M} (f : Settlement M → Settlement M) (n : Nat) (he : 0 ≤ e.estimate)
    (hu : e.number = n → e.settlement = .unsettled) : (e.settle f n).covered ≤ e.covered := by
  rw [settle]
  split
  · next hn =>
      simp only [covered, hu hn]
      cases f .unsettled with
      | unsettled => exact le_refl _
      | released => exact he
      | reconciled actual => exact min_le_right _ _
  · exact le_refl _

variable [IsOrderedAddMonoid M]

theorem covered_add_overrun (e : Entry T M) : e.covered + e.overrun = e.charge := by
  cases hs : e.settlement with
  | unsettled => simp [covered, overrun, charge, hs]
  | released => simp [covered, overrun, charge, hs]
  | reconciled actual =>
      simp only [covered, overrun, charge, hs]
      rcases le_total actual e.estimate with h | h
      · rw [min_eq_left h, max_eq_left (sub_nonpos.mpr h), add_zero]
      · rw [min_eq_right h, max_eq_right (sub_nonneg.mpr h), add_sub_cancel]

theorem covered_le_charge (e : Entry T M) : e.covered ≤ e.charge := by
  have h : 0 ≤ e.overrun := by
    cases hs : e.settlement <;> simp [overrun, hs]
  rw [← covered_add_overrun]
  exact le_add_of_nonneg_right h

end Entry

open Entry

section Log

variable [LinearOrder T] [AddCommGroup M]

/-- What the log charges from a point in time on. -/
def used (log : List (Entry T M)) (cutoff : T) : M :=
  ((log.filter fun e => cutoff ≤ e.time).map charge).sum

def within (log : List (Entry T M)) (a b : T) : List (Entry T M) :=
  log.filter fun e => a ≤ e.time ∧ e.time ≤ b

end Log

/-- A limit on what may be charged between the cutoff of a time and that time. -/
structure Policy (T M : Type) where
  limit : M
  cutoff : T → T

section Bound

variable [AddCommGroup M] [LinearOrder M] [IsOrderedAddMonoid M] {log : List (Entry T M)}

theorem sum_covered_le {p q : Entry T M → Bool} (hlog : ∀ e ∈ log, e.Nonneg) (h : ∀ e ∈ log, p e → q e) :
    ((log.filter p).map covered).sum ≤ ((log.filter q).map covered).sum := by
  have hsub : (log.filter p).Sublist (log.filter q) := by
    rw [← List.filter_congr (p := fun e => p e && q e) fun e he => ?_, ← List.filter_filter]
    · exact List.filter_sublist
    · cases hp : p e with
      | false => rfl
      | true => exact h e he hp
  refine List.Sublist.sum_le_sum (hsub.map covered) fun x hx => ?_
  obtain ⟨e, he, rfl⟩ := List.mem_map.mp hx
  exact (hlog e (List.mem_of_mem_filter he)).covered_nonneg

theorem mem_of_mem_init {α : Type} {x e : α} {pre post : List α} (h : x ∈ pre ++ [e]) : x ∈ pre ++ e :: post := by
  rw [← List.singleton_append, ← List.append_assoc]
  exact List.mem_append_left post h

variable [LinearOrder T] {P : Policy T M}

/-- What the estimates cover is within the limit in the window that ends at
any entry. -/
def Bounded (P : Policy T M) (log : List (Entry T M)) : Prop :=
  ∀ pre e post, log = pre ++ e :: post →
    (((pre ++ [e]).filter fun x => P.cutoff e.time ≤ x.time).map covered).sum ≤ P.limit

theorem Bounded.accept (h : Bounded P log) {number : Nat} {now : T} {estimate : M} (he : 0 ≤ estimate)
    (hfits : used log (P.cutoff now) + estimate ≤ P.limit) :
    Bounded P (log ++ [⟨number, now, estimate, .unsettled⟩]) := by
  intro pre e post heq
  rcases List.eq_nil_or_concat post with rfl | ⟨post', last, rfl⟩
  · obtain ⟨rfl, hlast⟩ := List.append_inj' heq rfl
    obtain rfl := (List.cons.inj hlast).1
    refine le_trans ?_ hfits
    rw [List.filter_append, List.map_append, List.sum_append, used]
    refine add_le_add (List.sum_le_sum fun e _ => covered_le_charge e) ?_
    simp only [List.filter_cons, List.filter_nil]
    split
    · simp [covered]
    · simpa using he
  · rw [List.concat_eq_append, ← List.cons_append, ← List.append_assoc] at heq
    exact h pre e post' (List.append_inj' heq rfl).1

theorem Bounded.settle (h : Bounded P log) (hlog : ∀ e ∈ log, e.Nonneg) (f : Settlement M → Settlement M)
    (n : Nat) (hu : ∀ e ∈ log, e.number = n → e.settlement = .unsettled) :
    Bounded P (log.map (Entry.settle f n)) := by
  intro pre' e' post' heq
  obtain ⟨pre, tail, rfl, rfl, htail⟩ := List.map_eq_append_iff.mp heq
  obtain ⟨e, post, rfl, rfl, -⟩ := List.map_eq_cons_iff.mp htail
  refine le_trans ?_ (h pre e post rfl)
  have hmap : pre.map (Entry.settle f n) ++ [e.settle f n] = (pre ++ [e]).map (Entry.settle f n) := by simp
  rw [hmap, List.filter_map, List.map_map]
  simp only [Function.comp_def, settle_time]
  refine List.sum_le_sum fun x hx => ?_
  have hx' : x ∈ pre ++ e :: post := mem_of_mem_init (List.mem_of_mem_filter hx)
  exact covered_settle_le f n (hlog x hx').1 (hu x hx')

/-- Up to the last element that satisfies p nothing that does is left out. -/
theorem exists_last {α : Type} {p : α → Bool} {l : List α} (h : l.filter p ≠ []) :
    ∃ pre x post, l = pre ++ x :: post ∧ p x ∧ l.filter p = (pre ++ [x]).filter p := by
  induction l using List.reverseRecOn with
  | nil => exact absurd rfl h
  | append_singleton l x ih =>
      cases hx : p x with
      | true => exact ⟨l, x, [], rfl, hx, rfl⟩
      | false =>
          rw [List.filter_append, List.filter_cons_of_neg (by simp [hx]), List.filter_nil, List.append_nil] at h ⊢
          obtain ⟨pre, y, post, rfl, hy, heq⟩ := ih h
          exact ⟨pre, y, post ++ [x], by simp, hy, heq⟩

/-- No entry of the log in the window from a to b is before the cutoff of another. -/
def Fits (P : Policy T M) (log : List (Entry T M)) (a b : T) : Prop :=
  ∀ x ∈ log, ∀ e ∈ log, a ≤ x.time → e.time ≤ b → P.cutoff e.time ≤ x.time

/-- No window, wherever it is placed, carries more than the limit and what
the settlements of its entries overran. -/
theorem Bounded.within_le (h : Bounded P log) (hlog : ∀ e ∈ log, e.Nonneg) {a b : T} (hab : Fits P log a b)
    (hne : 0 ≤ P.limit ∨ within log a b ≠ []) :
    ((within log a b).map charge).sum ≤ P.limit + ((within log a b).map overrun).sum := by
  have hsplit : ((within log a b).map charge).sum =
      ((within log a b).map covered).sum + ((within log a b).map overrun).sum := by
    rw [← List.sum_map_add]
    simp only [covered_add_overrun]
  rw [hsplit]
  refine add_le_add_left ?_ _
  by_cases hnil : within log a b = []
  · rw [hnil]
    exact hne.resolve_right fun hn => hn hnil
  · obtain ⟨pre, e, post, rfl, he, heq⟩ := exists_last hnil
    have hpre : ∀ x ∈ pre ++ [e], x.Nonneg := fun x hx => hlog x (mem_of_mem_init hx)
    rw [within, heq]
    refine le_trans (sum_covered_le hpre fun x hxm hx => ?_) (h pre e post rfl)
    simp only [decide_eq_true_eq] at hx he ⊢
    exact hab x (mem_of_mem_init hxm) e (List.mem_append_right pre List.mem_cons_self) hx.1 he.2

end Bound

/-- One complete log for every key, and the keys in the order in which
their reservations were numbered. -/
structure Ledger (κ T M : Type) where
  logs : κ → List (Entry T M)
  issued : List κ

inductive Request (κ T M : Type)
  | reserve (key : κ) (now : T) (estimate : M)
  | reconcile (number : Nat) (actual : M)
  | release (number : Nat)
  deriving DecidableEq

inductive Decision (M : Type)
  | admitted
  | rejected (used : M)
  deriving DecidableEq

namespace Request

/-- The reservation that a request settles. -/
def settles : Request κ T M → Option Nat
  | reserve _ _ _ => none
  | reconcile number _ | release number => some number

def reading : Request κ T M → Option T
  | reserve _ now _ => some now
  | reconcile _ _ | release _ => none

def Nonneg [Zero M] [LE M] : Request κ T M → Prop
  | reserve _ _ estimate => 0 ≤ estimate
  | reconcile _ actual => 0 ≤ actual
  | release _ => True

end Request

namespace Ledger

variable [DecidableEq κ]

def init : Ledger κ T M := ⟨fun _ => [], []⟩

def settle (L : Ledger κ T M) (f : Settlement M → Settlement M) (number : Nat) : Ledger κ T M :=
  match L.issued[number]? with
  | none => L
  | some key => { L with logs := Function.update L.logs key ((L.logs key).map (Entry.settle f number)) }

variable [LinearOrder T] [AddCommGroup M] [LinearOrder M]

def step (P : Policy T M) (L : Ledger κ T M) : Request κ T M → Ledger κ T M × Option (Decision M)
  | .reserve key now estimate =>
    let used := used (L.logs key) (P.cutoff now)
    if used + estimate > P.limit then (L, some (.rejected used))
    else (⟨Function.update L.logs key (L.logs key ++ [⟨L.issued.length, now, estimate, .unsettled⟩]),
      L.issued ++ [key]⟩, some .admitted)
  | .reconcile number actual => (L.settle (Settlement.reconcile actual) number, none)
  | .release number => (L.settle Settlement.release number, none)

def run (P : Policy T M) : Ledger κ T M → List (Request κ T M) → Ledger κ T M × List (Decision M)
  | L, [] => (L, [])
  | L, r :: rs =>
    let (L', d) := L.step P r
    let (L'', ds) := L'.run P rs
    (L'', d.toList ++ ds)

theorem run_cons (P : Policy T M) (L : Ledger κ T M) (r : Request κ T M) (rs : List (Request κ T M)) :
    L.run P (r :: rs) =
      (((L.step P r).1.run P rs).1, (L.step P r).2.toList ++ ((L.step P r).1.run P rs).2) := rfl

/-- Every log is bounded, and what is not settled yet is unsettled. -/
structure Sound (P : Policy T M) (settled : List Nat) (L : Ledger κ T M) : Prop where
  bounded : ∀ key, Bounded P (L.logs key)
  nonneg : ∀ key, ∀ e ∈ L.logs key, e.Nonneg
  unsettled : ∀ key, ∀ e ∈ L.logs key, e.number ∉ settled → e.settlement = .unsettled

variable {P : Policy T M} {L : Ledger κ T M} {settled : List Nat}

omit [DecidableEq κ] in
theorem sound_init : (init : Ledger κ T M).Sound P [] :=
  ⟨fun _ pre e post h => by simp [init] at h, by simp [init], by simp [init]⟩

variable [IsOrderedAddMonoid M]

theorem Sound.accept (h : L.Sound P settled) {key : κ} {now : T} {estimate : M} {issued : List κ}
    (he : 0 ≤ estimate) (hfits : used (L.logs key) (P.cutoff now) + estimate ≤ P.limit) :
    Sound P settled ⟨Function.update L.logs key
      (L.logs key ++ [⟨L.issued.length, now, estimate, .unsettled⟩]), issued⟩ := by
  refine ⟨fun k => ?_, fun k => ?_, fun k => ?_⟩ <;> simp only [Function.update_apply] <;> split
  · exact (h.bounded key).accept he hfits
  · exact h.bounded k
  · rw [List.forall_mem_append, List.forall_mem_singleton]
    exact ⟨h.nonneg key, he, fun _ hr => by simp at hr⟩
  · exact h.nonneg k
  · rw [List.forall_mem_append, List.forall_mem_singleton]
    exact ⟨h.unsettled key, fun _ => rfl⟩
  · exact h.unsettled k

theorem Sound.settle (h : L.Sound P settled) {f : Settlement M → Settlement M} {n : Nat}
    (hf : ∀ actual, f .unsettled = .reconciled actual → 0 ≤ actual) (hn : n ∉ settled) :
    (L.settle f n).Sound P (n :: settled) := by
  have hopen (key : κ) : ∀ e ∈ L.logs key, e.number = n → e.settlement = .unsettled :=
    fun e he hen => h.unsettled key e he (hen ▸ hn)
  have hweak : L.Sound P (n :: settled) :=
    ⟨h.bounded, h.nonneg, fun key e he hs => h.unsettled key e he fun hm => hs (List.mem_cons_of_mem n hm)⟩
  rw [Ledger.settle]
  split
  · exact hweak
  · next key _ =>
      refine ⟨fun k => ?_, fun k => ?_, fun k => ?_⟩ <;> simp only [Function.update_apply] <;> split
      · exact (h.bounded key).settle (h.nonneg key) f n (hopen key)
      · exact h.bounded k
      · refine List.forall_mem_map.mpr fun e he => ?_
        rw [Entry.settle]
        split
        · next hen =>
            refine ⟨(h.nonneg key e he).1, fun actual ha => hf actual ?_⟩
            rw [← hopen key e he hen]
            exact ha
        · exact h.nonneg key e he
      · exact h.nonneg k
      · refine List.forall_mem_map.mpr fun e he hs => ?_
        rw [settle_number] at hs
        rw [settle_of_ne fun hen => hs (hen ▸ List.mem_cons_self)]
        exact hweak.unsettled key e he hs
      · exact hweak.unsettled k

theorem Sound.step (h : L.Sound P settled) (r : Request κ T M) (hr : r.Nonneg)
    (hs : ∀ n ∈ r.settles, n ∉ settled) : (L.step P r).1.Sound P (r.settles.toList ++ settled) := by
  cases r with
  | reserve key now estimate =>
      simp only [Ledger.step]
      split
      · exact h
      · next hfits => exact h.accept hr (not_lt.mp hfits)
  | reconcile number actual =>
      refine h.settle (fun a ha => ?_) (hs number rfl)
      obtain rfl := Settlement.reconciled.inj ha
      exact hr
  | release number => exact h.settle (fun a ha => by simp [Settlement.release] at ha) (hs number rfl)

theorem Sound.run (h : L.Sound P settled) {rs : List (Request κ T M)} (hr : ∀ r ∈ rs, r.Nonneg)
    (honce : (rs.filterMap Request.settles ++ settled).Nodup) : ∃ settled', (L.run P rs).1.Sound P settled' := by
  induction rs generalizing L settled with
  | nil => exact ⟨settled, h⟩
  | cons r rs ih =>
      obtain ⟨hr1, hr2⟩ := List.forall_mem_cons.mp hr
      have hperm : (rs.filterMap Request.settles ++ (r.settles.toList ++ settled)).Nodup := by
        rw [List.filterMap_cons] at honce
        cases hset : r.settles with
        | none => simpa [hset] using honce
        | some n =>
            simp only [hset, List.cons_append] at honce
            exact (List.perm_middle.nodup_iff).mpr honce
      refine ih (h.step r hr1 fun n hn => ?_) hr2 hperm
      have hd := (List.nodup_append.mp (List.nodup_append.mp hperm).2.1).2.2
      exact fun hm => hd n (Option.mem_toList.mpr hn) n hm rfl

theorem run_within_le (P : Policy T M) (rs : List (Request κ T M)) (hr : ∀ r ∈ rs, r.Nonneg)
    (honce : (rs.filterMap Request.settles).Nodup) (key : κ) {a b : T}
    (hab : Fits P ((init.run P rs).1.logs key) a b)
    (hne : 0 ≤ P.limit ∨ within ((init.run P rs).1.logs key) a b ≠ []) :
    ((within ((init.run P rs).1.logs key) a b).map charge).sum ≤
      P.limit + ((within ((init.run P rs).1.logs key) a b).map overrun).sum := by
  obtain ⟨settled, h⟩ := sound_init.run hr (by simpa using honce)
  exact (h.bounded key).within_le (h.nonneg key) hab hne

end Ledger

end LlmGateway.SlidingWindow
