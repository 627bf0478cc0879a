import Xcache.Lib.Range

/-! Ranges cut into pieces from left to right, the multiples of a power of two at or below a
number, and the lowest set bit of a word. -/

namespace Xcache

namespace Range

/-- The range holds the number. -/
def Has (r : Range) (k : Nat) : Prop := r.start ≤ k ∧ k < r.start + r.size

instance (r : Range) (k : Nat) : Decidable (r.Has k) :=
  inferInstanceAs (Decidable (r.start ≤ k ∧ k < r.start + r.size))

theorem Apart.not_has {r s : Range} {k : Nat} (apart : r.Apart s) (here : r.Has k) : ¬ s.Has k := by
  unfold Apart at apart
  unfold Has at here ⊢
  omega

theorem Has.of_inside {r s : Range} {k : Nat} (here : r.Has k) (inside : r.Inside s) : s.Has k :=
  ⟨inside.1.trans here.1, here.2.trans_le inside.2⟩

/-- Nonempty pieces that follow one another and fill the range. -/
inductive Tiles : List Range → Range → Prop
  | nil (start : Nat) : Tiles [] ⟨start, 0⟩
  | cons {start n size : Nat} {rest : List Range} : 0 < n → Tiles rest ⟨start + n, size⟩ →
      Tiles (⟨start, n⟩ :: rest) ⟨start, n + size⟩

namespace Tiles
variable {ps : List Range} {p q r : Range} {k : Nat}

theorem inside (tiles : Tiles ps r) (mem : p ∈ ps) : p.Inside r := by
  induction tiles with
  | nil start => cases mem
  | cons pos tail ih =>
    rcases List.mem_cons.mp mem with rfl | later
    · exact ⟨le_rfl, by dsimp only; omega⟩
    · have := ih later
      unfold Inside at this ⊢
      dsimp only at this ⊢
      omega

theorem has_start (tiles : Tiles ps r) (mem : p ∈ ps) : p.Has p.start := by
  induction tiles with
  | nil start => cases mem
  | cons pos tail ih =>
    rcases List.mem_cons.mp mem with rfl | later
    · exact ⟨le_rfl, by dsimp only; omega⟩
    · exact ih later

theorem exists_has (tiles : Tiles ps r) (here : r.Has k) : ∃ p ∈ ps, p.Has k := by
  induction tiles with
  | nil start => exact absurd here (by unfold Has; dsimp only; omega)
  | @cons start n size rest pos tail ih =>
    by_cases first : k < start + n
    · exact ⟨_, List.mem_cons_self, here.1, first⟩
    · obtain ⟨p, mem, has⟩ := ih (by unfold Has at here ⊢; dsimp only at here ⊢; omega)
      exact ⟨p, List.mem_cons_of_mem _ mem, has⟩

/-- No number is in two pieces. -/
theorem eq_of_has (tiles : Tiles ps r) (hp : p ∈ ps) (hq : q ∈ ps) (inP : p.Has k)
    (inQ : q.Has k) : p = q := by
  induction tiles with
  | nil start => cases hp
  | cons pos tail ih =>
    rcases List.mem_cons.mp hp with rfl | laterP <;> rcases List.mem_cons.mp hq with rfl | laterQ
    · rfl
    · have := (tail.inside laterQ).1
      unfold Has at inP inQ
      dsimp only at this inP
      omega
    · have := (tail.inside laterP).1
      unfold Has at inP inQ
      dsimp only at this inQ
      omega
    · exact ih laterP laterQ

end Tiles

end Range

/-- The multiple of `2 ^ h` at or below `k`. -/
def alignDown (h k : Nat) : Nat := k - k % 2 ^ h

theorem alignDown_zero (k : Nat) : alignDown 0 k = k := by
  unfold alignDown
  rw [pow_zero, Nat.mod_one, Nat.sub_zero]

theorem dvd_alignDown (h k : Nat) : 2 ^ h ∣ alignDown h k := Nat.dvd_sub_mod k

theorem alignDown_le (h k : Nat) : alignDown h k ≤ k := Nat.sub_le _ _

theorem lt_alignDown_add (h k : Nat) : k < alignDown h k + 2 ^ h := by
  have := Nat.mod_lt k (Nat.two_pow_pos h)
  have := Nat.mod_le k (2 ^ h)
  unfold alignDown
  omega

theorem alignDown_eq_iff {h k s : Nat} :
    alignDown h k = s ↔ 2 ^ h ∣ s ∧ (Range.mk s (2 ^ h)).Has k := by
  constructor
  · rintro rfl
    exact ⟨dvd_alignDown h k, alignDown_le h k, lt_alignDown_add h k⟩
  · rintro ⟨⟨m, rfl⟩, le, lt⟩
    obtain ⟨d, rfl⟩ := Nat.exists_eq_add_of_le le
    unfold alignDown
    rw [Nat.mul_add_mod, Nat.mod_eq_of_lt (Nat.lt_of_add_lt_add_left lt), Nat.add_sub_cancel]

theorem le_alignDown {h k s : Nat} (dvd : 2 ^ h ∣ s) (le : s ≤ k) : s ≤ alignDown h k := by
  obtain ⟨m, rfl⟩ := dvd
  obtain ⟨q, eq⟩ := dvd_alignDown h k
  have lt := lt_alignDown_add h k
  rw [eq] at lt ⊢
  refine Nat.mul_le_mul_left _ (Nat.lt_succ_iff.mp ?_)
  refine Nat.lt_of_mul_lt_mul_left (a := 2 ^ h) ?_
  rw [Nat.mul_succ]
  omega

/-- `__builtin_ctz`: the number of trailing zeros, undefined at 0. -/
def builtinCtz {w : Nat} (x : BitVec w) : Option Nat := if x = 0 then none else some x.ctz.toNat

/-- `ffs`: one more than the index of the lowest set bit, and 0 at 0. -/
def ffs {w : Nat} (x : BitVec w) : Nat := if x = 0 then 0 else x.ctz.toNat + 1

/-- A shift whose count is taken modulo the width, as the machine does. -/
def shl {w : Nat} (x : BitVec w) (count : Int) : BitVec w := x <<< (count % w).toNat

theorem toNat_one_shl {w : Nat} (pos : 0 < w) (count : Int) :
    (shl (1 : BitVec w) count).toNat = 2 ^ (count % w).toNat := by
  unfold shl
  have lt : (count % w).toNat < w := by
    have := Int.emod_lt_of_pos count (Int.natCast_pos.mpr pos)
    omega
  rw [BitVec.ofNat_eq_ofNat, BitVec.toNat_shiftLeft, BitVec.toNat_ofNat,
    Nat.one_mod_two_pow_eq_one.mpr pos, Nat.shiftLeft_eq, Nat.one_mul]
  exact Nat.mod_eq_of_lt (Nat.pow_lt_pow_right (by decide) lt)

theorem toNat_int_shift {n : Nat} (lt : n < 31) : (((1#32) <<< n).signExtend 64).toNat = 2 ^ n := by
  interval_cases n <;> rfl

theorem two_pow_ctz_dvd {w : Nat} (x : BitVec w) : 2 ^ x.ctz.toNat ∣ x.toNat := by
  refine Nat.dvd_of_mod_eq_zero (Nat.eq_of_testBit_eq fun i => ?_)
  rw [Nat.testBit_mod_two_pow, Nat.zero_testBit]
  by_cases lt : i < x.ctz.toNat
  · rw [BitVec.testBit_toNat, BitVec.getLsbD_false_of_lt_ctz lt, Bool.and_false]
  · rw [decide_eq_false lt, Bool.false_and]

theorem ctz_lt {w : Nat} {x : BitVec w} (nonzero : x ≠ 0) : x.ctz.toNat < w :=
  BitVec.lt_of_getLsbD (BitVec.getLsbD_true_ctz_of_ne_zero nonzero)

end Xcache
