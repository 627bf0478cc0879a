import Mathlib.Tactic

/-! A complete binary tree of a given height in an array, level by level from the widest one. The
node above position `x` of the widest level is at `x / 2 ^ i` of level `i`. -/

namespace Xcache

def levelStart (height i : Nat) : Nat := 2 ^ height - 2 ^ (height - i)

/-- The index of the node of level `i` above position `x`. -/
def treeNode (height x i : Nat) : Nat := x / 2 ^ i + levelStart height i

section
variable {height i j x y : Nat}

theorem treeNode_zero : treeNode height x 0 = x := by
  unfold treeNode levelStart
  rw [pow_zero, Nat.div_one, Nat.sub_zero, Nat.sub_self, Nat.add_zero]

theorem levelStart_mono (le : i ≤ j) : levelStart height i ≤ levelStart height j :=
  Nat.sub_le_sub_left (Nat.pow_le_pow_right (by decide) (Nat.sub_le_sub_left le height)) _

theorem treeNode_lt (level : i < height) (lt : x < 2 ^ (height - 1)) :
    treeNode height x i < levelStart height (i + 1) := by
  have width : x / 2 ^ i < 2 ^ (height - (i + 1)) := by
    refine Nat.div_lt_of_lt_mul ?_
    rwa [← pow_add, show i + (height - (i + 1)) = height - 1 by omega]
  have twice : 2 ^ (height - i) = 2 * 2 ^ (height - (i + 1)) := by
    rw [← pow_succ', show height - (i + 1) + 1 = height - i by omega]
  have le : 2 ^ (height - i) ≤ 2 ^ height := Nat.pow_le_pow_right (by decide) (Nat.sub_le _ _)
  unfold treeNode levelStart
  omega

theorem level_le_of_treeNode_le (level : j < height) (lt : y < 2 ^ (height - 1))
    (le : treeNode height x i ≤ treeNode height y j) :
    i ≤ j := by
  by_contra more
  have last := treeNode_lt level lt
  have start : levelStart height (j + 1) ≤ levelStart height i := levelStart_mono (by omega)
  have here : levelStart height i ≤ treeNode height x i := Nat.le_add_left _ _
  omega

theorem treeNode_inj (level : i < height) (level' : j < height) (lt : x < 2 ^ (height - 1))
    (lt' : y < 2 ^ (height - 1)) (eq : treeNode height x i = treeNode height y j) :
    i = j ∧ x / 2 ^ i = y / 2 ^ i := by
  obtain rfl : i = j :=
    le_antisymm (level_le_of_treeNode_le level' lt' eq.le) (level_le_of_treeNode_le level lt eq.ge)
  exact ⟨rfl, Nat.add_right_cancel eq⟩

theorem mod_div_of_div_eq (m : Nat) (eq : x / 2 ^ i = y / 2 ^ i) :
    x % 2 ^ m / 2 ^ i = y % 2 ^ m / 2 ^ i := by
  by_cases le : i ≤ m
  · have split : 2 ^ m = 2 ^ i * 2 ^ (m - i) := by rw [← pow_add, Nat.add_sub_cancel' le]
    rw [split, Nat.mod_mul_right_div_self, Nat.mod_mul_right_div_self, eq]
  · have small : ∀ z, z % 2 ^ m / 2 ^ i = 0 := fun z =>
      Nat.div_eq_of_lt ((Nat.mod_lt z (by positivity)).trans_le
        (Nat.pow_le_pow_right (by decide) (by omega)))
    rw [small, small]

theorem add_div_of_div_eq {m : Nat} (hx : x < 2 ^ m) (hy : y < 2 ^ m) (eq : x / 2 ^ i = y / 2 ^ i) :
    (x + 2 ^ m) / 2 ^ i = (y + 2 ^ m) / 2 ^ i := by
  by_cases le : i ≤ m
  · have split : 2 ^ m = 2 ^ i * 2 ^ (m - i) := by rw [← pow_add, Nat.add_sub_cancel' le]
    rw [split, Nat.add_mul_div_left _ _ (by positivity),
      Nat.add_mul_div_left _ _ (by positivity), eq]
  · have twice : 2 ^ (m + 1) ≤ 2 ^ i := Nat.pow_le_pow_right (by decide) (by omega)
    have double : 2 ^ (m + 1) = 2 ^ m + 2 ^ m := by rw [pow_succ]; omega
    rw [Nat.div_eq_of_lt (by omega), Nat.div_eq_of_lt (by omega)]

/-- Nodes over the two halves of the widest level are different below the root. -/
theorem treeNode_ne (level : i + 2 ≤ height) (left : x < 2 ^ (height - 2))
    (right : 2 ^ (height - 2) ≤ y) :
    treeNode height x i ≠ treeNode height y i := by
  have split : 2 ^ (height - 2) = 2 ^ i * 2 ^ (height - 2 - i) := by
    rw [← pow_add, Nat.add_sub_cancel' (by omega)]
  have first : x / 2 ^ i < 2 ^ (height - 2 - i) := Nat.div_lt_of_lt_mul (split ▸ left)
  have second : 2 ^ (height - 2 - i) ≤ y / 2 ^ i := by
    rw [Nat.le_div_iff_mul_le (by positivity), Nat.mul_comm, ← split]
    exact right
  unfold treeNode
  omega

theorem treeNode_mono (le : x ≤ y) : treeNode height x i ≤ treeNode height y i :=
  Nat.add_le_add_right (Nat.div_le_div_right le) _

end

end Xcache
