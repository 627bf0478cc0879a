import Mathlib.Algebra.BigOperators.Intervals
import Mathlib.Tactic

/-! Weights on the places of a ring, and what it costs to reach them from one place: by the steps
around the ring in its direction, or by the distance of the place numbers. -/

namespace Xcache.HopCosts
open Finset

/-- The steps from place `t` to place `i`: `i - t` modulo `m`. -/
def hops (m t i : Nat) : Nat := (i + (m - t)) % m

def upto (c : Nat → Nat) (t : Nat) : Nat := ∑ i ∈ range t, c i

def around (c : Nat → Nat) (m t : Nat) : Nat := ∑ i ∈ range m, c i * hops m t i

/-- The distances of all places from `t` along the line, by weight. -/
def along (c : Nat → Nat) (m t : Nat) : Nat := ∑ i ∈ range m, c i * (i - t + (t - i))

/-- The place where the weight first reaches half of the whole. -/
def Median (c : Nat → Nat) (m t : Nat) : Prop :=
  t < m ∧ (t = 0 ∨ 2 * upto c t < upto c m) ∧ upto c m ≤ 2 * upto c (t + 1)

/-- The places from `t` on have at least their share of the weight, up to any other place `u`, and
the places from `u` on at most theirs, up to `t`. -/
def Share (c : Nat → Nat) (m t : Nat) : Prop :=
  ∀ u < m, m * upto c t + u * upto c m ≤ m * upto c u + t * upto c m

instance (c : Nat → Nat) (m t : Nat) : Decidable (Median c m t) :=
  inferInstanceAs (Decidable (t < m ∧ (t = 0 ∨ 2 * upto c t < upto c m) ∧
    upto c m ≤ 2 * upto c (t + 1)))

instance (c : Nat → Nat) (m t : Nat) : Decidable (Share c m t) :=
  inferInstanceAs (Decidable (∀ u < m, m * upto c t + u * upto c m ≤ m * upto c u + t * upto c m))

variable {c : Nat → Nat} {m t u : Nat}

theorem hops_eq {i : Nat} (lt : t < m) (index : i < m) :
    hops m t i = if t ≤ i then i - t else i + m - t := by
  unfold hops
  split_ifs with le
  · rw [show i + (m - t) = i - t + m by omega, Nat.add_mod_right, Nat.mod_eq_of_lt (by omega)]
  · rw [Nat.mod_eq_of_lt (by omega)]
    omega

theorem upto_succ (c : Nat → Nat) (t : Nat) : upto c (t + 1) = upto c t + c t := sum_range_succ c t

theorem upto_mono (c : Nat → Nat) (le : t ≤ u) : upto c t ≤ upto c u :=
  sum_le_sum_of_subset (range_subset_range.mpr le)

theorem upto_eq_sum_ite (c : Nat → Nat) (le : t ≤ m) :
    upto c t = ∑ i ∈ range m, if i < t then c i else 0 := by
  rw [← sum_filter]
  refine sum_congr (Finset.ext fun i => ?_) fun _ _ => rfl
  rw [mem_filter, mem_range, mem_range]
  omega

theorem along_succ (c : Nat → Nat) (lt : t < m) :
    along c m (t + 1) + upto c m = along c m t + 2 * upto c (t + 1) := by
  rw [upto_eq_sum_ite c lt, along, along, upto, mul_sum, ← sum_add_distrib, ← sum_add_distrib]
  refine sum_congr rfl fun i _ => ?_
  split_ifs with behind
  · rw [show i - (t + 1) + (t + 1 - i) = i - t + (t - i) + 1 by omega]
    ring
  · rw [show i - t + (t - i) = i - (t + 1) + (t + 1 - i) + 1 by omega]
    ring

theorem around_succ (c : Nat → Nat) (lt : t + 1 < m) :
    around c m (t + 1) + upto c m = around c m t + m * c t := by
  have here : m * c t = ∑ i ∈ range m, if i = t then m * c i else 0 := by
    rw [sum_ite_eq' (range m) t fun i => m * c i, if_pos (mem_range.mpr (by omega))]
  rw [here, around, around, upto, ← sum_add_distrib, ← sum_add_distrib]
  refine sum_congr rfl fun i mem => ?_
  have index := mem_range.mp mem
  rw [hops_eq lt index, hops_eq (by omega) index]
  by_cases at_ : i = t
  · subst at_
    rw [if_neg (by omega), if_pos le_rfl, if_pos rfl, show i + m - (i + 1) = m - 1 by omega,
      Nat.sub_self]
    obtain ⟨m, rfl⟩ := Nat.exists_eq_add_one_of_ne_zero (show m ≠ 0 by omega)
    rw [Nat.add_sub_cancel]
    ring
  · rw [if_neg at_]
    by_cases le : t ≤ i
    · rw [if_pos (by omega), if_pos le, show i - t = i - (t + 1) + 1 by omega]
      ring
    · rw [if_neg (by omega), if_neg le, show i + m - t = i + m - (t + 1) + 1 by omega]
      ring

theorem around_eq (c : Nat → Nat) (lt : t < m) :
    around c m t + t * upto c m = around c m 0 + m * upto c t := by
  induction t with
  | zero => simp [upto]
  | succ t ih =>
    have before := ih (by omega)
    have step := around_succ c lt
    rw [upto_succ, Nat.mul_add, Nat.succ_mul]
    omega

/-- The cheapest places of the ring. -/
theorem share_iff (lt : t < m) : Share c m t ↔ ∀ u < m, around c m t ≤ around c m u := by
  refine forall₂_congr fun u less => ?_
  have here := around_eq c lt
  have there := around_eq c less
  omega

theorem exists_median (c : Nat → Nat) (pos : 0 < m) : ∃ t, Median c m t := by
  have half : ∃ t, upto c m ≤ 2 * upto c (t + 1) := ⟨m - 1, by rw [Nat.sub_add_cancel pos]; omega⟩
  refine ⟨Nat.find half, ?_, ?_, Nat.find_spec half⟩
  · refine (Nat.find_min' half (m := m - 1) ?_).trans_lt (by omega)
    rw [Nat.sub_add_cancel pos]
    omega
  · cases at_ : Nat.find half with
    | zero => exact Or.inl rfl
    | succ t => exact Or.inr (not_le.mp (Nat.find_min half (by omega)))

/-- The median is the first of the places with the smallest distance from all. -/
theorem Median.along_lt (median : Median c m t) (lt : u < t) : along c m t < along c m u := by
  obtain ⟨less, half, _⟩ := median
  have down : ∀ d ≤ t, d ≠ 0 → along c m t < along c m (t - d) := by
    intro d le
    induction d with
    | zero => exact fun ne => absurd rfl ne
    | succ d ih =>
      intro _
      have step := along_succ c (show t - (d + 1) < m by omega)
      have mono := upto_mono c (show t - (d + 1) + 1 ≤ t by omega)
      rw [show t - (d + 1) + 1 = t - d by omega] at step mono
      by_cases first : d = 0
      · subst first
        rw [Nat.sub_zero] at step mono
        omega
      · have := ih (by omega) first
        omega
  have := down (t - u) (by omega) (by omega)
  rwa [show t - (t - u) = u by omega] at this

theorem Median.along_le (median : Median c m t) (less : u < m) : along c m t ≤ along c m u := by
  rcases Nat.lt_or_ge u t with lt | ge
  · exact (median.along_lt lt).le
  · induction u, ge using Nat.le_induction with
    | base => exact le_rfl
    | succ u ge ih =>
      have before := ih (by omega)
      have step := along_succ c (show u < m by omega)
      have mono := upto_mono c (show t + 1 ≤ u + 1 by omega)
      have := median.2.2
      omega

theorem Median.unique (median : Median c m t) (less : u < m)
    (least : ∀ v < m, along c m u ≤ along c m v)
    (first : ∀ v < u, along c m u < along c m v) : u = t := by
  rcases Nat.lt_trichotomy u t with lt | eq | gt
  · exact absurd (median.along_lt lt) (not_lt.mpr (least t median.1))
  · exact eq
  · exact absurd (first t gt) (not_lt.mpr (median.along_le less))

end Xcache.HopCosts
