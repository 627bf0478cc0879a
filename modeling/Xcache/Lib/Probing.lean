import Mathlib.Tactic

/-! Linear probing along the cells of a permutation: an item goes to the first free cell from its
home on. Which cells are taken depends only on how many items have their home where. -/

namespace Xcache.Probing
open Function

section
variable {σ : Type*} {next : Equiv.Perm σ} {home : σ → Option σ}

/-- Every item has come to its cell over taken ones. -/
def Reached (next : Equiv.Perm σ) (home : σ → Option σ) : Prop :=
  ∀ t p, home t = some p → ∃ m : Nat, (next ^ m) p = t ∧ ∀ i ≤ m, home ((next ^ i) p) ≠ none

theorem pow_add_apply (next : Equiv.Perm σ) (m n : Nat) (a : σ) :
    (next ^ (m + n)) a = (next ^ m) ((next ^ n) a) := by
  rw [pow_add, Equiv.Perm.mul_apply]

theorem pow_inv_apply (next : Equiv.Perm σ) {m n : Nat} (le : m ≤ n) (a : σ) :
    (next ^ m) ((next⁻¹ ^ n) a) = (next⁻¹ ^ (n - m)) a := by
  obtain ⟨k, rfl⟩ := Nat.exists_eq_add_of_le le
  rw [pow_add_apply, inv_pow, Nat.add_sub_cancel_left]
  exact Equiv.apply_symm_apply ..

theorem pow_inv_apply' (next : Equiv.Perm σ) {m n : Nat} (le : n ≤ m) (a : σ) :
    (next ^ m) ((next⁻¹ ^ n) a) = (next ^ (m - n)) a := by
  obtain ⟨k, rfl⟩ := Nat.exists_eq_add_of_le' le
  rw [pow_add_apply, inv_pow, Nat.add_sub_cancel]
  exact congrArg _ (Equiv.apply_symm_apply ..)

theorem Reached.insert [DecidableEq σ] (reached : Reached next home) {p : σ} {m : Nat}
    (before : ∀ i < m, home ((next ^ i) p) ≠ none) :
    Reached next (update home ((next ^ m) p) (some p)) := by
  have grown : ∀ t, home t ≠ none → update home ((next ^ m) p) (some p) t ≠ none := by
    intro t taken
    by_cases here : t = (next ^ m) p
    · simp [here]
    · rwa [update_of_ne here]
  intro t q eq
  by_cases here : t = (next ^ m) p
  · subst here
    rw [update_self] at eq
    cases eq
    refine ⟨m, rfl, ?_⟩
    intro i le
    rcases Nat.lt_or_eq_of_le le with lt | rfl
    · exact grown _ (before i lt)
    · rw [update_self]
      exact Option.some_ne_none _
  · rw [update_of_ne here] at eq
    obtain ⟨n, arrived, path⟩ := reached t q eq
    exact ⟨n, arrived, fun i le => grown _ (path i le)⟩

variable [Fintype σ] [DecidableEq σ]

/-- The number of items whose home is one of `len` cells. -/
def homesIn (next : Equiv.Perm σ) (home : σ → Option σ) (b : σ) (len : Nat) : Nat :=
  (Finset.univ.filter fun t => ∃ j < len, home t = some ((next ^ j) b)).card

theorem homesIn_le (reached : Reached next home) {b : σ} {len : Nat}
    (free : home ((next ^ len) b) = none) :
    homesIn next home b (len + 1) ≤ len := by
  have inside : (Finset.univ.filter fun t => ∃ j < len + 1, home t = some ((next ^ j) b)) ⊆
      (Finset.range len).image fun j => (next ^ j) b := by
    intro t mem
    obtain ⟨j, lt, eq⟩ := (Finset.mem_filter.mp mem).2
    obtain ⟨m, rfl, path⟩ := reached t _ eq
    have short : m < len - j := by
      by_contra long
      refine path (len - j) (by omega) ?_
      rwa [← pow_add_apply, Nat.sub_add_cancel (by omega)]
    rw [Finset.mem_image]
    exact ⟨m + j, Finset.mem_range.mpr (by omega), pow_add_apply ..⟩
  calc homesIn next home b (len + 1) ≤ ((Finset.range len).image fun j => (next ^ j) b).card :=
        Finset.card_le_card inside
    _ ≤ (Finset.range len).card := Finset.card_image_le
    _ = len := Finset.card_range len

/-- The items of a row of taken cells behind a free one have their homes there. -/
theorem le_homesIn (reached : Reached next home) {b : σ} {len : Nat} (free : home (next⁻¹ b) = none)
    (taken : ∀ j < len, home ((next ^ j) b) ≠ none) : len ≤ homesIn next home b len := by
  -- the row does not come back to its start, since it would pass the free cell
  have apart : ∀ i j, i < j → j < len → (next ^ i) b ≠ (next ^ j) b := by
    intro i j lt small eq
    have round : b = (next ^ (j - i)) b := by
      refine (next ^ i).injective ?_
      rw [← pow_add_apply, Nat.add_sub_cancel' lt.le, eq]
    have last : (next ^ (j - i - 1)) b = next⁻¹ b := by
      rw [Equiv.Perm.eq_inv_iff_eq, ← Equiv.Perm.mul_apply, ← pow_succ',
        Nat.sub_add_cancel (by omega)]
      exact round.symm
    exact taken (j - i - 1) (by omega) (last ▸ free)
  have injective : Set.InjOn (fun j => (next ^ j) b) (Finset.range len) := by
    intro i hi j hj eq
    have small := Finset.mem_range.mp hi
    have small' := Finset.mem_range.mp hj
    rcases Nat.lt_trichotomy i j with lt | same | gt
    · exact absurd eq (apart i j lt small')
    · exact same
    · exact absurd eq.symm (apart j i gt small)
  rw [← Finset.card_range len]
  refine Finset.card_le_card_of_injOn (fun j => (next ^ j) b) ?_ injective
  intro j mem
  have small := Finset.mem_range.mp mem
  obtain ⟨p, eq⟩ := Option.ne_none_iff_exists'.mp (taken j small)
  obtain ⟨m, arrived, path⟩ := reached _ p eq
  have short : m ≤ j := by
    by_contra long
    refine path (m - j - 1) (by omega) ?_
    have before : (next ^ (m - j - 1)) p = next⁻¹ b := by
      rw [Equiv.Perm.eq_inv_iff_eq, ← Equiv.Perm.mul_apply, ← pow_succ']
      refine (next ^ j).injective ?_
      rw [← pow_add_apply, ← arrived]
      congr 2
      omega
    rwa [before]
  have start : p = (next ^ (j - m)) b := by
    refine (next ^ m).injective ?_
    rw [arrived, ← pow_add_apply, Nat.add_sub_cancel' short]
  simp only [Finset.coe_filter, Finset.mem_univ, true_and, Set.mem_ofPred_eq]
  exact ⟨j - m, by rw [Finset.card_range]; omega, start ▸ eq⟩

/-- A row of `r` cells is full just when some longer row that ends like it is the home of at least
as many items as it has cells, from every one of its last cells on. -/
theorem full_iff (reached : Reached next home) {a : σ} (spare : ∃ d, home ((next⁻¹ ^ d) a) = none)
    (r : Nat) :
    (∀ k < r, home ((next ^ k) a) ≠ none) ↔
      ∃ d, ∀ k < r, d + k + 1 ≤ homesIn next home ((next⁻¹ ^ d) a) (d + k + 1) := by
  constructor
  · intro full
    rcases Nat.eq_zero_or_pos r with rfl | pos
    · exact ⟨0, fun k lt => absurd lt (Nat.not_lt_zero k)⟩
    · -- the row starts behind the last free cell before it
      have free := Nat.find_spec spare
      obtain ⟨d, eq⟩ : ∃ d, Nat.find spare = d + 1 := by
        refine Nat.exists_eq_succ_of_ne_zero fun zero => full 0 pos ?_
        rwa [zero] at free
      rw [eq] at free
      refine ⟨d, fun k lt => le_homesIn reached ?_ ?_⟩
      · rwa [← Equiv.Perm.mul_apply, ← pow_succ']
      · intro j small
        rcases Nat.lt_or_ge d j with after | before
        · rw [pow_inv_apply' next after.le]
          exact full (j - d) (by omega)
        · rw [pow_inv_apply next before]
          exact Nat.find_min spare (by omega)
  · rintro ⟨d, many⟩ k lt free
    have few : homesIn next home ((next⁻¹ ^ d) a) (d + k + 1) ≤ d + k := by
      refine homesIn_le reached ?_
      rwa [pow_inv_apply' next (by omega), Nat.add_sub_cancel_left]
    have := many k lt
    omega

theorem homesIn_update {t p b : σ} (free : home t = none) (len : Nat) :
    homesIn next (update home t (some p)) b len =
      homesIn next home b len + if ∃ j < len, p = (next ^ j) b then 1 else 0 := by
  have row : (Finset.univ.filter fun t' => ∃ j < len, update home t (some p) t' =
    some ((next ^ j) b)) = (if ∃ j < len, p = (next ^ j) b then {t} else ∅) ∪
        Finset.univ.filter fun t' => ∃ j < len, home t' = some ((next ^ j) b) := by
    ext t'
    by_cases here : t' = t
    · subst here
      by_cases inside : ∃ j < len, p = (next ^ j) b <;> simp [inside, free]
    · by_cases inside : ∃ j < len, p = (next ^ j) b <;> simp [inside, here]
  have apart : Disjoint (if ∃ j < len, p = (next ^ j) b then {t} else ∅)
      (Finset.univ.filter fun t' => ∃ j < len, home t' = some ((next ^ j) b)) := by
    split_ifs <;> simp [free]
  rw [homesIn, row, Finset.card_union_of_disjoint apart, Nat.add_comm, homesIn]
  split_ifs <;> rfl

end

end Xcache.Probing
