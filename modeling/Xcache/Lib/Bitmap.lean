import Mathlib.Data.Nat.Bitwise
import Mathlib.Tactic

/-! Bitmaps packed into words of 64 bits, the most significant bit first: bit `i` is bit
`63 - i % 64` of word `i / 64`. -/

namespace Bitmap

def mark (w : Nat → Nat) (i : Nat) : Nat → Nat :=
  Function.update w (i / 64) (w (i / 64) ||| 1 <<< (64 - 1 - i % 64))

def markAll (w : Nat → Nat) (l : List Nat) : Nat → Nat := l.foldl mark w

def marked (w : Nat → Nat) (i : Nat) : Bool := (w (i / 64) &&& 1 <<< (64 - 1 - i % 64)) != 0

theorem testBit_mark (w : Nat → Nat) (i j b : Nat) :
    (mark w i j).testBit b = ((w j).testBit b || decide (j = i / 64 ∧ 64 - 1 - i % 64 = b)) := by
  unfold mark
  by_cases here : j = i / 64
  · simp [here, Nat.testBit_or, Nat.one_shiftLeft, Nat.testBit_two_pow]
  · simp [here, Function.update_of_ne]

theorem testBit_markAll (w : Nat → Nat) (l : List Nat) (j b : Nat) :
    (markAll w l j).testBit b = true ↔
    (w j).testBit b = true ∨ ∃ i ∈ l, j = i / 64 ∧ 64 - 1 - i % 64 = b := by
  induction l generalizing w with
  | nil => simp [markAll]
  | cons a l ih =>
    have step : markAll w (a :: l) = markAll (mark w a) l := rfl
    rw [step, ih, testBit_mark, Bool.or_eq_true, decide_eq_true_iff,
      List.exists_mem_cons_iff, or_assoc]

theorem marked_eq_testBit (w : Nat → Nat) (i : Nat) :
    marked w i = (w (i / 64)).testBit (64 - 1 - i % 64) := by
  unfold marked
  rw [Nat.one_shiftLeft, Nat.and_two_pow]
  cases (w (i / 64)).testBit (64 - 1 - i % 64) <;> simp

theorem index_ext {i k : Nat} (word : i / 64 = k / 64)
    (bit : 64 - 1 - k % 64 = 64 - 1 - i % 64) : i = k := by
  omega

theorem marked_markAll (w : Nat → Nat) (l : List Nat) (i : Nat) :
    marked (markAll w l) i = true ↔ marked w i = true ∨ i ∈ l := by
  rw [marked_eq_testBit, marked_eq_testBit, testBit_markAll]
  refine or_congr_right ⟨?_, fun mem => ⟨i, mem, rfl, rfl⟩⟩
  rintro ⟨k, mem, word, bit⟩
  rwa [index_ext word bit]

theorem markAll_congr {w w' : Nat → Nat} {l l' : List Nat} {j : Nat}
    (same : ∀ b, ((w j).testBit b = true ∨ ∃ i ∈ l, j = i / 64 ∧ 64 - 1 - i % 64 = b) ↔
      ((w' j).testBit b = true ∨ ∃ i ∈ l', j = i / 64 ∧ 64 - 1 - i % 64 = b)) :
    markAll w l j = markAll w' l' j := by
  apply Nat.eq_of_testBit_eq
  intro b
  rw [Bool.eq_iff_iff, testBit_markAll, testBit_markAll]
  exact same b

/-- A word that was read before is written back with bit `i` set; nothing is lost if it still has
all bits. -/
theorem marked_store {w : Nat → Nat} {i word : Nat}
    (keeps : ∀ b, (w (i / 64)).testBit b = true → word.testBit b = true) :
    (∀ k, marked w k = true → marked (Function.update w (i / 64) (word ||| 1 <<< (64 - 1 - i % 64)))
      k = true) ∧
      marked (Function.update w (i / 64) (word ||| 1 <<< (64 - 1 - i % 64))) i = true := by
  refine ⟨fun k old => ?_, ?_⟩
  · rw [marked_eq_testBit] at old ⊢
    by_cases here : k / 64 = i / 64
    · rw [here, Function.update_self, Nat.testBit_or, Bool.or_eq_true]
      rw [here] at old
      exact Or.inl (keeps _ old)
    · rwa [Function.update_of_ne here]
  · rw [marked_eq_testBit, Function.update_self, Nat.testBit_or, Nat.one_shiftLeft,
      Nat.testBit_two_pow_self, Bool.or_true]

end Bitmap
