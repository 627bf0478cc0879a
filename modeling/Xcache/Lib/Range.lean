import Mathlib.Tactic

/-! Byte ranges of a flat memory, and arrays of words that are written into it. -/

namespace Xcache

/-- The bytes `start`, ..., `start + size - 1`. -/
structure Range where
  start : Nat
  size : Nat
  deriving DecidableEq

namespace Range

def Apart (r s : Range) : Prop := r.start + r.size ≤ s.start ∨ s.start + s.size ≤ r.start

def Inside (r s : Range) : Prop := s.start ≤ r.start ∧ r.start + r.size ≤ s.start + s.size

instance (r s : Range) : Decidable (r.Apart s) :=
  inferInstanceAs (Decidable (r.start + r.size ≤ s.start ∨ s.start + s.size ≤ r.start))

instance (r s : Range) : Decidable (r.Inside s) :=
  inferInstanceAs (Decidable (s.start ≤ r.start ∧ r.start + r.size ≤ s.start + s.size))

theorem Apart.symm {r s : Range} (apart : r.Apart s) : s.Apart r := Or.symm apart

theorem Apart.of_inside {r s t : Range} (apart : r.Apart s) (inside : t.Inside r) : t.Apart s :=
  apart.imp (fun le => inside.2.trans le) fun le => le.trans inside.1

/-- Two elements of an array with elements of size `n` are apart unless they are the same one. -/
theorem apart_of_stride {base n i j k l : Nat} (ne : i ≠ j) (first : k ≤ n) (second : l ≤ n) :
    (Range.mk (base + n * i) k).Apart ⟨base + n * j, l⟩ := by
  unfold Apart
  rcases Nat.lt_or_gt_of_ne ne with lt | lt
  · left
    have := Nat.mul_le_mul_left n lt
    rw [Nat.mul_succ] at this
    dsimp only
    omega
  · right
    have := Nat.mul_le_mul_left n lt
    rw [Nat.mul_succ] at this
    dsimp only
    omega

theorem inside_of_stride {base n i m k : Nat} (lt : i < m) (le : k ≤ n) :
    (Range.mk (base + n * i) k).Inside ⟨base, n * m⟩ := by
  have := Nat.mul_le_mul_left n (Nat.succ_le_of_lt lt)
  rw [Nat.mul_succ] at this
  unfold Inside
  dsimp only
  omega

end Range

theorem toNat_add_ofNat {w n : Nat} {a : BitVec w} (lt : a.toNat + n < 2 ^ w) :
    (a + BitVec.ofNat w n).toNat = a.toNat + n := by
  rw [BitVec.toNat_add, BitVec.toNat_ofNat, Nat.add_mod_mod, Nat.mod_eq_of_lt lt]

end Xcache
