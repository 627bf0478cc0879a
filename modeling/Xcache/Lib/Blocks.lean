import Mathlib.Tactic

/-! Directories indexed by the leading bits of a word: prefixes, tables written entry
by entry, and tables in which every value owns one aligned block. -/

namespace Blocks

/-- The `n` leading bits of a word of width `w`. -/
def top (w n x : Nat) : Nat := x / 2 ^ (w - n)

theorem top_lt {w n x : Nat} (hx : x < 2 ^ w) (hn : n ≤ w) : top w n x < 2 ^ n := by
  apply Nat.div_lt_of_lt_mul
  rwa [← pow_add, Nat.sub_add_cancel hn]

theorem top_div {w m n x : Nat} (hm : m ≤ n) (hn : n ≤ w) :
    top w n x / 2 ^ (n - m) = top w m x := by
  rw [top, Nat.div_div_eq_div_mul, ← pow_add, top]
  congr 2
  omega

theorem top_succ {w n x : Nat} (hn : n < w) :
    top w (n + 1) x = 2 * top w n x + x / 2 ^ (w - n - 1) % 2 := by
  have half : top w (n + 1) x / 2 = top w n x := by
    have parent := top_div (w := w) (x := x) (Nat.le_succ n) hn
    rwa [Nat.succ_eq_add_one, Nat.add_sub_cancel_left, pow_one] at parent
  rw [← half, show x / 2 ^ (w - n - 1) = top w (n + 1) x from rfl]
  exact (Nat.div_add_mod _ 2).symm

section Tables
variable {α : Type*}

/-- A table after a sequence of single stores. -/
def writeAll (entry : Nat → α) (stores : List (Nat × α)) : Nat → α :=
  stores.foldl (fun e p => Function.update e p.1 p.2) entry

@[simp] theorem writeAll_nil (entry : Nat → α) : writeAll entry [] = entry := rfl

@[simp] theorem writeAll_cons (entry : Nat → α) (p : Nat × α) (stores : List (Nat × α)) :
    writeAll entry (p :: stores) = writeAll (Function.update entry p.1 p.2) stores := rfl

/-- Stores that agree with one function leave that function where they went. -/
theorem writeAll_apply {f : Nat → α} {stores : List (Nat × α)} (agree : ∀ p ∈ stores, p.2 = f p.1)
    (entry : Nat → α) (j : Nat) :
    writeAll entry stores j = if j ∈ stores.map Prod.fst then f j else entry j := by
  induction stores generalizing entry with
  | nil => simp
  | cons p stores ih =>
    rw [writeAll_cons, ih (fun q hq => agree q (List.mem_cons_of_mem p hq))]
    by_cases later : j ∈ stores.map Prod.fst
    · simp [later]
    · by_cases now : j = p.1
      · simp [now, agree p]
      · simp [later, now]

/-- Every value in the table owns exactly the aligned block of its level. -/
structure Owned (depth : Nat) (level : α → Nat) (entry : Nat → α) : Prop where
  level_le : ∀ i < 2 ^ depth, level (entry i) ≤ depth
  block : ∀ i < 2 ^ depth, ∀ j < 2 ^ depth,
    entry j = entry i ↔ j / 2 ^ (depth - level (entry i)) = i / 2 ^ (depth - level (entry i))

theorem Owned.congr {depth : Nat} {level : α → Nat} {entry entry' : Nat → α}
    (owned : Owned depth level entry) (eq : ∀ i < 2 ^ depth, entry' i = entry i) :
    Owned depth level entry' := by
  constructor
  · intro i hi
    rw [eq i hi]
    exact owned.level_le i hi
  · intro i hi j hj
    rw [eq i hi, eq j hj]
    exact owned.block i hi j hj

theorem Owned.level_congr {depth : Nat} {level level' : α → Nat} {entry : Nat → α}
    (owned : Owned depth level entry) (same : ∀ i < 2 ^ depth, level' (entry i) = level (entry i)) :
    Owned depth level' entry := by
  constructor
  · intro i hi
    rw [same i hi]
    exact owned.level_le i hi
  · intro i hi j hj
    rw [same i hi]
    exact owned.block i hi j hj

section
variable {depth i j : Nat} {level : α → Nat} {entry : Nat → α}

theorem Owned.entry_eq (owned : Owned depth level entry)
    (start : i % 2 ^ (depth - level (entry i)) = 0) (le : i ≤ j)
    (lt : j < i + 2 ^ (depth - level (entry i))) (hj : j < 2 ^ depth) : entry j = entry i := by
  rw [owned.block i (le.trans_lt hj) j hj]
  have width : 0 < 2 ^ (depth - level (entry i)) := by positivity
  obtain ⟨q, eq⟩ := Nat.dvd_of_mod_eq_zero start
  generalize 2 ^ (depth - level (entry i)) = w at width lt eq
  subst eq
  rw [Nat.mul_div_cancel_left q width]
  exact Nat.div_eq_of_lt_le (by rwa [Nat.mul_comm]) (by rw [Nat.succ_mul, Nat.mul_comm]; exact lt)

theorem Owned.end_le (start : i % 2 ^ (depth - level (entry i)) = 0) (hi : i < 2 ^ depth) :
    i + 2 ^ (depth - level (entry i)) ≤ 2 ^ depth := by
  obtain ⟨q, eq⟩ := Nat.dvd_of_mod_eq_zero start
  obtain ⟨r, whole⟩ : 2 ^ (depth - level (entry i)) ∣ 2 ^ depth := pow_dvd_pow 2 (Nat.sub_le _ _)
  generalize 2 ^ (depth - level (entry i)) = w at eq whole
  rw [whole] at hi ⊢
  subst eq
  have lt : q < r := Nat.lt_of_mul_lt_mul_left hi
  calc w * q + w = w * (q + 1) := (Nat.mul_succ w q).symm
    _ ≤ w * r := Nat.mul_le_mul_left w lt

theorem Owned.entry_ne (owned : Owned depth level entry)
    (le : i + 2 ^ (depth - level (entry i)) ≤ j) (hj : j < 2 ^ depth) :
    entry j ≠ entry i := by
  have width : 0 < 2 ^ (depth - level (entry i)) := by positivity
  rw [Ne, owned.block i (by omega) j hj]
  have next := Nat.div_le_div_right (c := 2 ^ (depth - level (entry i))) le
  rw [Nat.add_div_right _ width] at next
  omega

theorem div_pred {j w : Nat} (width : 0 < w) (inside : j % w ≠ 0) : (j - 1) / w = j / w := by
  have split := Nat.div_add_mod j w
  have rest := Nat.mod_lt j width
  refine Nat.div_eq_of_lt_le ?_ ?_
  · rw [Nat.mul_comm]
    omega
  · rw [Nat.succ_mul, Nat.mul_comm]
    omega

theorem Owned.next_start (owned : Owned depth level entry)
    (start : i % 2 ^ (depth - level (entry i)) = 0) (eq : j = i + 2 ^ (depth - level (entry i)))
    (hj : j < 2 ^ depth) : j % 2 ^ (depth - level (entry j)) = 0 := by
  have width : 0 < 2 ^ (depth - level (entry i)) := by positivity
  have last : entry (j - 1) = entry i := owned.entry_eq start (by omega) (by omega) (by omega)
  by_contra inside
  have same : entry (j - 1) = entry j :=
    (owned.block j hj (j - 1) (by omega)).mpr (div_pred (by positivity) inside)
  exact owned.entry_ne eq.ge hj (same.symm.trans last)

end

/-- The table of twice the size in which entry `x` gave way to `a` and `b`. -/
def doubled (entry : Nat → α) (x : Nat) (a b : α) (j : Nat) : α :=
  if j / 2 = x then (if j % 2 = 0 then a else b) else entry (j / 2)

/-- The table in which the block of `2 ^ k` entries around `x` was halved. -/
def halved (entry : Nat → α) (k x : Nat) (a b : α) (j : Nat) : α :=
  if j / 2 ^ k = x / 2 ^ k then (if j / 2 ^ (k - 1) % 2 = 0 then a else b) else entry j

theorem div_two_pow_succ (j k : Nat) : j / 2 ^ (k + 1) = j / 2 ^ k / 2 := by
  rw [pow_succ, Nat.div_div_eq_div_mul]

/-- Two numbers with the same half agree when their parities do. -/
theorem eq_iff_half_parity (i j : Nat) : j = i ↔ j / 2 = i / 2 ∧ j % 2 = i % 2 := by omega

theorem Owned.halve {depth x : Nat} {level level' : α → Nat} {entry : Nat → α} {a b : α}
    (owned : Owned depth level entry) (hx : x < 2 ^ depth) (below : level (entry x) < depth)
    (freshA : ∀ i < 2 ^ depth, entry i ≠ a) (freshB : ∀ i < 2 ^ depth, entry i ≠ b) (hab : a ≠ b)
    (levelA : level' a = level (entry x) + 1) (levelB : level' b = level (entry x) + 1)
    (same : ∀ i < 2 ^ depth, level' (entry i) = level (entry i)) :
    Owned depth level' (halved entry (depth - level (entry x)) x a b) := by
  obtain ⟨k, hk⟩ : ∃ k, depth - level (entry x) = k + 1 := ⟨depth - level (entry x) - 1, by omega⟩
  have child : depth - (level (entry x) + 1) = k := by omega
  have outside : ∀ i < 2 ^ depth, i / 2 ^ (k + 1) ≠ x / 2 ^ (k + 1) → entry i ≠ entry x := by
    intro i hi away eq
    exact away (by simpa only [hk] using (owned.block x hx i hi).mp eq)
  have levels : ∀ i < 2 ^ depth, i / 2 ^ (k + 1) ≠ x / 2 ^ (k + 1) →
      level' (halved entry (k + 1) x a b i) = level (entry i) := by
    intro i hi away
    rw [halved, if_neg away, same i hi]
  have childLevel : ∀ i, i / 2 ^ (k + 1) = x / 2 ^ (k + 1) →
      level' (halved entry (k + 1) x a b i) = level (entry x) + 1 := by
    intro i inside
    rw [halved, if_pos inside]
    split
    · exact levelA
    · exact levelB
  rw [hk]
  constructor
  · intro i hi
    by_cases inside : i / 2 ^ (k + 1) = x / 2 ^ (k + 1)
    · rw [childLevel i inside]
      exact below
    · rw [levels i hi inside]
      exact owned.level_le i hi
  · intro i hi j hj
    by_cases inside : i / 2 ^ (k + 1) = x / 2 ^ (k + 1)
    · -- the block of a child is one half of the old block
      rw [childLevel i inside, child]
      have half : j / 2 ^ k = i / 2 ^ k ↔
          j / 2 ^ (k + 1) = x / 2 ^ (k + 1) ∧ j / 2 ^ k % 2 = i / 2 ^ k % 2 := by
        rw [eq_iff_half_parity, ← div_two_pow_succ, ← div_two_pow_succ, inside]
      rw [half, halved, halved, if_pos inside, Nat.add_sub_cancel]
      by_cases insideJ : j / 2 ^ (k + 1) = x / 2 ^ (k + 1)
      · rw [if_pos insideJ]
        have parityI := Nat.mod_two_eq_zero_or_one (i / 2 ^ k)
        have parityJ := Nat.mod_two_eq_zero_or_one (j / 2 ^ k)
        rcases parityI with pi | pi <;> rcases parityJ with pj | pj <;>
          simp [pi, pj, insideJ, hab, hab.symm]
      · rw [if_neg insideJ]
        constructor
        · intro eq
          split at eq
          · exact absurd eq (freshA j hj)
          · exact absurd eq (freshB j hj)
        · intro both
          exact absurd both.1 insideJ
    · rw [levels i hi inside, halved, halved, if_neg inside]
      by_cases insideJ : j / 2 ^ (k + 1) = x / 2 ^ (k + 1)
      · have differ : (if j / 2 ^ (k + 1 - 1) % 2 = 0 then a else b) ≠ entry i := by
          split
          · exact (freshA i hi).symm
          · exact (freshB i hi).symm
        rw [if_pos insideJ]
        refine iff_of_false differ fun eq => outside i hi inside ?_
        have owner := (owned.block i hi j hj).mpr eq
        have sibling := (owned.block x hx j hj).mpr (by rw [hk]; exact insideJ)
        exact owner.symm.trans sibling
      · rw [if_neg insideJ]
        exact owned.block i hi j hj

theorem Owned.double {depth x : Nat} {level level' : α → Nat} {entry : Nat → α} {a b : α}
    (owned : Owned depth level entry) (hx : x < 2 ^ depth) (full : level (entry x) = depth)
    (freshA : ∀ i < 2 ^ depth, entry i ≠ a) (freshB : ∀ i < 2 ^ depth, entry i ≠ b) (hab : a ≠ b)
    (levelA : level' a = depth + 1) (levelB : level' b = depth + 1)
    (same : ∀ i < 2 ^ depth, level' (entry i) = level (entry i)) :
    Owned (depth + 1) level' (doubled entry x a b) := by
  -- first every entry is written twice, which keeps the blocks, and then one block is halved
  have half : ∀ j, j < 2 ^ (depth + 1) → j / 2 < 2 ^ depth := by
    intro j hj
    rw [pow_succ] at hj
    omega
  have twice : Owned (depth + 1) level (fun j => entry (j / 2)) := by
    constructor
    · intro i hi
      exact Nat.le_succ_of_le (owned.level_le _ (half i hi))
    · intro i hi j hj
      have bound := owned.level_le _ (half i hi)
      have shift : depth + 1 - level (entry (i / 2)) = depth - level (entry (i / 2)) + 1 := by omega
      rw [shift, pow_succ', ← Nat.div_div_eq_div_mul, ← Nat.div_div_eq_div_mul]
      exact owned.block _ (half i hi) _ (half j hj)
  have at2x : 2 * x / 2 = x := Nat.mul_div_cancel_left x (by decide)
  have split : Owned (depth + 1) level'
      (halved (fun j => entry (j / 2)) (depth + 1 - level (entry (2 * x / 2))) (2 * x) a b) :=
    twice.halve (by rw [pow_succ]; omega) (by simp only [at2x]; omega)
      (fun i hi => freshA _ (half i hi))
      (fun i hi => freshB _ (half i hi)) hab (by simp only [at2x]; omega)
        (by simp only [at2x]; omega)
      (fun i hi => same _ (half i hi))
  have shape : halved (fun j => entry (j / 2)) (depth + 1 - level (entry (2 * x / 2))) (2 * x) a b
      = doubled entry x a b := by
    funext j
    simp only [at2x, full, Nat.add_sub_cancel_left, halved, doubled, pow_one, Nat.sub_self,
      pow_zero, Nat.div_one]
  rwa [shape] at split

end Tables

end Blocks
