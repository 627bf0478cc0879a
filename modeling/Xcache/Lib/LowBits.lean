import Mathlib.Tactic

/-! Directories indexed by the low bits of a word: every value in the table owns the indices that
agree with one of its own on the low bits of its level. -/

namespace Xcache

theorem eq_bits (d h : Nat) : d = d / (h * 2) * (h * 2) + d / h % 2 * h + d % h := by
  have low := Nat.div_add_mod d h
  have middle := Nat.div_add_mod (d / h) 2
  rw [Nat.div_div_eq_div_mul] at middle
  calc d = h * (d / h) + d % h := low.symm
    _ = h * (2 * (d / (h * 2)) + d / h % 2) + d % h := by rw [middle]
    _ = d / (h * 2) * (h * 2) + d / h % 2 * h + d % h := by ring

theorem eq_iff_bits (d e h : Nat) :
    d = e ↔ d / (h * 2) = e / (h * 2) ∧ d / h % 2 = e / h % 2 ∧ d % h = e % h := by
  refine ⟨fun eq => by rw [eq]; exact ⟨rfl, rfl, rfl⟩, fun ⟨high, middle, low⟩ => ?_⟩
  rw [eq_bits d h, eq_bits e h, high, middle, low]

theorem mod_two_pow_succ_eq_iff (d e l : Nat) :
    d % 2 ^ (l + 1) = e % 2 ^ (l + 1) ↔ d % 2 ^ l = e % 2 ^ l ∧ d / 2 ^ l % 2 = e / 2 ^ l % 2 := by
  rw [Nat.mod_pow_succ, Nat.mod_pow_succ]
  constructor
  · intro eq
    have low : d % 2 ^ l = e % 2 ^ l := by
      have := congrArg (· % 2 ^ l) eq
      simpa only [Nat.add_mul_mod_self_left, Nat.mod_mod] using this
    rw [low] at eq
    exact ⟨low, Nat.eq_of_mul_eq_mul_left (by positivity) (Nat.add_left_cancel eq)⟩
  · rintro ⟨low, bit⟩
    rw [low, bit]

section
variable {α : Type*} {depth x : Nat} {level level' : α → Nat} {entry : Nat → α} {a b : α}

/-- Every value in the table owns the indices that agree on its level's low bits. -/
structure LowOwned (depth : Nat) (level : α → Nat) (entry : Nat → α) : Prop where
  level_le : ∀ d < 2 ^ depth, level (entry d) ≤ depth
  same_iff : ∀ d < 2 ^ depth, ∀ e < 2 ^ depth, entry e = entry d ↔
    e % 2 ^ level (entry d) = d % 2 ^ level (entry d)

/-- The table after the indices that agree with `x` on `l` low bits went to two new values by the
next bit. -/
def redirected (entry : Nat → α) (l x : Nat) (a b : α) (d : Nat) : α :=
  if d % 2 ^ l = x % 2 ^ l then if d / 2 ^ l % 2 = 0 then a else b else entry d

theorem redirected_of_eq {l d : Nat} (eq : d % 2 ^ l = x % 2 ^ l) :
    redirected entry l x a b d = if d / 2 ^ l % 2 = 0 then a else b := if_pos eq

theorem redirected_of_ne {l d : Nat} (ne : d % 2 ^ l ≠ x % 2 ^ l) :
    redirected entry l x a b d = entry d :=
  if_neg ne

theorem LowOwned.extend (owned : LowOwned depth level entry) :
    LowOwned (depth + 1) level fun d => entry (d % 2 ^ depth) := by
  have inside : ∀ d, d % 2 ^ depth < 2 ^ depth := fun d => Nat.mod_lt d (by positivity)
  refine ⟨fun d _ => (owned.level_le _ (inside d)).trans (Nat.le_succ depth), fun d _ e _ => ?_⟩
  have dvd : 2 ^ level (entry (d % 2 ^ depth)) ∣ 2 ^ depth :=
    Nat.pow_dvd_pow 2 (owned.level_le _ (inside d))
  rw [owned.same_iff _ (inside d) _ (inside e), Nat.mod_mod_of_dvd _ dvd, Nat.mod_mod_of_dvd _ dvd]

theorem LowOwned.congr {entry' : Nat → α} (owned : LowOwned depth level entry)
    (same : ∀ d < 2 ^ depth, entry' d = entry d) :
    LowOwned depth level entry' := by
  refine ⟨fun d less => ?_, fun d less e less' => ?_⟩
  · rw [same d less]
    exact owned.level_le d less
  · rw [same d less, same e less']
    exact owned.same_iff d less e less'

theorem LowOwned.redirect (owned : LowOwned depth level entry) (lt : x < 2 ^ depth)
    (below : level (entry x) < depth) (freshA : ∀ d < 2 ^ depth, entry d ≠ a)
    (freshB : ∀ d < 2 ^ depth, entry d ≠ b) (ne : a ≠ b) (levelA : level' a = level (entry x) + 1)
    (levelB : level' b = level (entry x) + 1)
    (kept : ∀ d < 2 ^ depth, level' (entry d) = level (entry d)) :
    LowOwned depth level' (redirected entry (level (entry x)) x a b) := by
  generalize same : level (entry x) = l at below levelA levelB ⊢
  have level_new : ∀ d, level' (if d / 2 ^ l % 2 = 0 then a else b) = l + 1 := by
    intro d
    by_cases bit : d / 2 ^ l % 2 = 0
    · rw [if_pos bit, levelA]
    · rw [if_neg bit, levelB]
  have away : ∀ d e, d < 2 ^ depth → entry d ≠ if e / 2 ^ l % 2 = 0 then a else b := by
    intro d e less
    by_cases bit : e / 2 ^ l % 2 = 0
    · rw [if_pos bit]
      exact freshA d less
    · rw [if_neg bit]
      exact freshB d less
  refine ⟨fun d less => ?_, fun d less e less' => ?_⟩
  · by_cases near : d % 2 ^ l = x % 2 ^ l
    · rw [redirected_of_eq near, level_new]
      exact below
    · rw [redirected_of_ne near, kept d less]
      exact owned.level_le d less
  · by_cases near : d % 2 ^ l = x % 2 ^ l
    · rw [redirected_of_eq near, level_new, mod_two_pow_succ_eq_iff, near]
      by_cases near' : e % 2 ^ l = x % 2 ^ l
      · rw [redirected_of_eq near']
        have bit := Nat.mod_two_eq_zero_or_one (d / 2 ^ l)
        have bit' := Nat.mod_two_eq_zero_or_one (e / 2 ^ l)
        rcases bit with bit | bit <;> rcases bit' with bit' | bit' <;>
          simp [bit, bit', near', ne, ne.symm]
      · rw [redirected_of_ne near']
        exact iff_of_false (away e d less') fun agree => near' agree.1
    · rw [redirected_of_ne near, kept d less]
      by_cases near' : e % 2 ^ l = x % 2 ^ l
      · rw [redirected_of_eq near']
        refine iff_of_false (fun eq => away d e less eq.symm) fun agree => near ?_
        -- `e` belongs to the value at `x`, and to the one at `d`
        have first : entry e = entry d := (owned.same_iff d less e less').mpr agree
        have second : entry e = entry x :=
          (owned.same_iff x lt e less').mpr (by rw [same]; exact near')
        have both := (owned.same_iff x lt d less).mp (first.symm.trans second)
        rwa [same] at both
      · rw [redirected_of_ne near']
        exact owned.same_iff d less e less'

end

end Xcache
