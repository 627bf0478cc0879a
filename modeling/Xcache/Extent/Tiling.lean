import Xcache.Extent.Default

/-! The steps of `Insert_extent` in `cceh.cpp` over all keys and lengths. The sizes come from 32-bit
`ffs`, `__builtin_ctz` and `1 << n`, so that a step at a multiple of 2^31 can leave the extent. -/

namespace Xcache

namespace CCEH

/-- The steps that `Insert_extent` makes from a key on, with the depth of its recursion as fuel. -/
def steps : Nat → Key → BitVec 64 → Option (List Range)
  | 0, _, _ => none
  | fuel + 1, currentKey, len =>
    if len = 0 then some []
    else if len = 1 then some [⟨currentKey.toNat, 1⟩]
    else (subextentSize currentKey len).bind fun size =>
      (steps fuel (currentKey + size) (len - size)).map (⟨currentKey.toNat, size.toNat⟩ :: ·)

/-- `Insert_extent` returns when the steps end, and has stored the value where each of them
begins. -/
theorem insertExtent_eq_steps {P : Type} (fuel : Nat) (table : Key → Option P) (key : Key)
    (clusterNum len : BitVec 64) (value : P) :
    insertExtent fuel table key clusterNum len value =
      (steps fuel (key + clusterNum) len).map fun ps => writeStarts table ps value := by
  induction fuel generalizing table clusterNum len with
  | zero => rfl
  | succ fuel ih =>
    rw [insertExtent, steps]
    by_cases zero : len = 0
    · rw [if_pos zero, if_pos zero, Option.map_some, writeStarts_nil]
    · rw [if_neg zero, if_neg zero]
      by_cases one : len = 1
      · rw [if_pos one, if_pos one, Option.map_some, writeStarts_cons, writeStarts_nil]
      · rw [if_neg one, if_neg one]
        cases subextentSize (key + clusterNum) len with
        | none => rfl
        | some size =>
          rw [Option.bind_some, Option.bind_some, ih, Option.map_map, BitVec.add_assoc]
          congr 1
          funext ps
          rw [Function.comp_apply, writeStarts_cons]

/-- The recursion ends, and its steps are nonempty, follow one another and fill the extent. -/
def StepsTile (currentKey len : BitVec 64) : Prop :=
  ∃ fuel ps, steps fuel currentKey len = some ps ∧ Range.Tiles ps ⟨currentKey.toNat, len.toNat⟩

theorem stepsTile_zero (currentKey : Key) : StepsTile currentKey 0 := ⟨1, [], rfl, .nil _⟩

theorem stepsTile_one (currentKey : Key) : StepsTile currentKey 1 := by
  refine ⟨1, [⟨currentKey.toNat, 1⟩], rfl, ?_⟩
  have tiles : Range.Tiles [⟨currentKey.toNat, 1⟩] ⟨currentKey.toNat, 1 + 0⟩ :=
    .cons Nat.one_pos (.nil _)
  exact tiles

theorem stepsTile_iff {currentKey len : BitVec 64} (two : 2 ≤ len.toNat)
    (proper : currentKey.toNat + len.toNat ≤ 2 ^ 64) :
    StepsTile currentKey len ↔ ∃ size, subextentSize currentKey len = some size ∧ 0 < size.toNat ∧
      size.toNat ≤ len.toNat ∧
      StepsTile (currentKey + size) (len - size) := by
  have zero : ¬ len = 0 := by
    rintro rfl
    exact absurd two (by decide)
  have one : ¬ len = 1 := by
    rintro rfl
    exact absurd two (by decide)
  constructor
  · rintro ⟨fuel, ps, ran, tiles⟩
    cases fuel with
    | zero => cases ran
    | succ fuel =>
      rw [steps, if_neg zero, if_neg one] at ran
      obtain ⟨size, eq, ran⟩ := Option.bind_eq_some_iff.mp ran
      obtain ⟨rest, later, rfl⟩ := Option.map_eq_some_iff.mp ran
      generalize whole : (⟨currentKey.toNat, len.toNat⟩ : Range) = r at tiles
      obtain _ | @⟨start, n, left, _, pos, tail⟩ := tiles
      obtain ⟨-, sum⟩ := Range.mk.inj whole
      have le : size.toNat ≤ len.toNat := by omega
      have diff : (len - size).toNat = left := by
        rw [BitVec.toNat_sub_of_le le]
        omega
      refine ⟨size, eq, pos, le, ?_⟩
      rcases Nat.eq_zero_or_pos left with rfl | more
      · rw [BitVec.eq_of_toNat_eq (y := 0) diff]
        exact stepsTile_zero _
      · refine ⟨fuel, rest, later, ?_⟩
        rw [BitVec.toNat_add_of_lt (by omega), diff]
        exact tail
  · rintro ⟨size, eq, pos, le, fuel, rest, ran, tiles⟩
    refine ⟨fuel + 1, ⟨currentKey.toNat, size.toNat⟩ :: rest, ?_,
      tiles_cons pos le proper (fun last => ?_) fun _ => tiles⟩
    · rw [steps, if_neg zero, if_neg one, eq, Option.bind_some, ran, Option.map_some]
    · rw [last] at ran
      cases fuel with
      | zero => cases ran
      | succ fuel => exact (Option.some.inj ran).symm

theorem pieces_zero (currentKey : Key) : pieces currentKey 0#64 = [] := by
  rw [pieces, BitVec.ofNat_eq_ofNat, if_pos rfl]

theorem pieces_cons {currentKey len : BitVec 64} (pos : 0 < len.toNat)
    (proper : currentKey.toNat + len.toNat ≤ 2 ^ 64) (tile : StepsTile currentKey len) :
    ∃ size, 0 < size.toNat ∧ size.toNat ≤ len.toNat ∧
      (len = 1 ∧ size = 1 ∨ len ≠ 1 ∧ subextentSize currentKey len = some size) ∧
      StepsTile (currentKey + size) (len - size) ∧
      pieces currentKey len =
        ⟨currentKey.toNat, size.toNat⟩ :: pieces (currentKey + size) (len - size) := by
  have some : len ≠ 0 := by
    rintro rfl
    exact pos.ne rfl
  by_cases one : len = 1
  · subst one
    refine ⟨1, by decide, by decide, Or.inl ⟨rfl, rfl⟩, stepsTile_zero _, ?_⟩
    rw [pieces, if_neg some, BitVec.sub_self, pieces_zero]
    split
    · rfl
    · rw [dif_neg (fun inside => inside.1 rfl)]
  · have two : 2 ≤ len.toNat := by
      have : len.toNat ≠ 1 := fun eq => one (BitVec.eq_of_toNat_eq eq)
      omega
    obtain ⟨size, eq, lower, upper, rest⟩ := (stepsTile_iff two proper).mp tile
    refine ⟨size, lower, upper, Or.inr ⟨one, eq⟩, rest, ?_⟩
    rw [pieces, if_neg some, eq]
    exact dif_pos ⟨one, lower, upper⟩

theorem tiles_pieces {currentKey len : BitVec 64} (proper : currentKey.toNat + len.toNat ≤ 2 ^ 64)
    (tile : StepsTile currentKey len) :
    Range.Tiles (pieces currentKey len) ⟨currentKey.toNat, len.toNat⟩ := by
  induction currentKey, len using span_induct with
  | nil currentKey =>
    rw [pieces_zero]
    exact .nil _
  | cons currentKey len pos ih =>
    obtain ⟨size, lower, upper, _, rest, eq⟩ := pieces_cons pos proper tile
    rw [eq]
    refine tiles_cons lower upper proper (fun last => ?_) fun more => ih size lower upper more rest
    rw [last, pieces_zero]

theorem insertExtent_eq {P : Type} {fuel : Nat} {key clusterNum len : BitVec 64}
    (deep : len.toNat < fuel) (proper : (key + clusterNum).toNat + len.toNat ≤ 2 ^ 64)
    (tile : StepsTile (key + clusterNum) len) (table : Key → Option P) (value : P) :
    insertExtent fuel table key clusterNum len value =
      some (writeStarts table (pieces (key + clusterNum) len) value) := by
  induction fuel generalizing table clusterNum len with
  | zero => omega
  | succ fuel ih =>
    rw [insertExtent]
    rcases Nat.eq_zero_or_pos len.toNat with zero | pos
    · rw [if_pos (BitVec.eq_of_toNat_eq zero), BitVec.eq_of_toNat_eq (y := 0#64) zero, pieces_zero,
        writeStarts_nil]
    · obtain ⟨size, lower, upper, last, rest, eq⟩ := pieces_cons pos proper tile
      rw [if_neg (fun zero => by rw [zero] at pos; exact pos.ne rfl), eq, writeStarts_cons]
      rcases last with ⟨rfl, rfl⟩ | ⟨more, next⟩
      · rw [if_pos rfl, BitVec.sub_self, pieces_zero, writeStarts_nil]
      · have left : (len - size).toNat = len.toNat - size.toNat := BitVec.toNat_sub_of_le upper
        have inside : (key + clusterNum + size).toNat + (len - size).toNat ≤ 2 ^ 64 := by
          have sum := BitVec.toNat_add (key + clusterNum) size
          have := (key + clusterNum + size).isLt
          have := Nat.mod_le ((key + clusterNum).toNat + size.toNat) (2 ^ 64)
          omega
        rw [BitVec.add_assoc] at rest inside ⊢
        rw [if_neg more, next, Option.bind_some, ih (by omega) inside rest]

/-- `1 << __builtin_ctz(m)` as a size. -/
def lowestBit (m : BitVec 64) : Option (BitVec 64) :=
  (builtinCtz (m.setWidth 32)).map fun n => ((1#32) <<< n).signExtend 64

/-- It is undefined when the low half of `m` is 0, negative when it is 2^31, and otherwise a power
of two that divides `m`. -/
theorem lowestBit_spec (m : BitVec 64) :
    m.toNat % 2 ^ 32 = 0 ∧ lowestBit m = none ∨
      m.toNat % 2 ^ 32 = 2 ^ 31 ∧ lowestBit m = some (BitVec.ofNat 64 (2 ^ 64 - 2 ^ 31)) ∨
      m.toNat % 2 ^ 32 ≠ 0 ∧ m.toNat % 2 ^ 32 ≠ 2 ^ 31 ∧
        ∃ v < 31, ∃ size, lowestBit m = some size ∧ size.toNat = 2 ^ v ∧ 2 ^ v ∣ m.toNat := by
  have low : (m.setWidth 32).toNat = m.toNat % 2 ^ 32 := BitVec.toNat_setWidth ..
  by_cases zero : m.setWidth 32 = 0
  · rw [zero] at low
    refine Or.inl ⟨low.symm, ?_⟩
    rw [lowestBit, builtinCtz, if_pos zero]
    rfl
  · right
    have lt := ctz_lt zero
    have bit := BitVec.getLsbD_true_ctz_of_ne_zero zero
    have dvd := two_pow_ctz_dvd (m.setWidth 32)
    have value : lowestBit m = some (((1#32) <<< (m.setWidth 32).ctz.toNat).signExtend 64) := by
      rw [lowestBit, builtinCtz, if_neg zero]
      rfl
    have nonzero : m.toNat % 2 ^ 32 ≠ 0 := fun eq => zero (BitVec.eq_of_toNat_eq (low.trans eq))
    rw [BitVec.getLsbD, low] at bit
    rw [low] at dvd
    by_cases top : m.toNat % 2 ^ 32 = 2 ^ 31
    · rw [top, Nat.testBit_two_pow] at bit
      rw [← of_decide_eq_true bit] at value
      exact Or.inl ⟨top, value⟩
    · have small : (m.setWidth 32).ctz.toNat < 31 := by
        by_contra not
        rw [show (m.setWidth 32).ctz.toNat = 31 by omega] at dvd
        have := Nat.mod_lt m.toNat (show 0 < 2 ^ 32 by decide)
        omega
      refine Or.inr ⟨nonzero, top, _, small, _, value, toNat_int_shift small, ?_⟩
      exact (Nat.dvd_mod_iff (Nat.pow_dvd_pow 2 lt.le)).mp dvd

/-- The size of a step at an even key other than 0: 2^r is the lowest set bit of the low half of the
key, or 2^63. -/
theorem subextentSize_even {currentKey : Key} (even : currentKey.toNat % 2 = 0)
    (nonzero : currentKey.toNat ≠ 0) (len : BitVec 64) :
    ∃ r, ∃ m : BitVec 64, (currentKey.toNat % 2 ^ 32 = 0 ∧ r = 63 ∨
        r < 32 ∧ 2 ^ r ∣ currentKey.toNat ∧ ¬ 2 ^ (r + 1) ∣ currentKey.toNat) ∧
      m.toNat = min (2 ^ r) len.toNat ∧ subextentSize currentKey len = lowestBit m := by
  have low : (currentKey.setWidth 32).toNat = currentKey.toNat % 2 ^ 32 := BitVec.toNat_setWidth ..
  have notOdd : ¬ currentKey % 2 = 1 := by
    intro odd
    have := congrArg BitVec.toNat odd
    rw [BitVec.toNat_umod] at this
    exact absurd (even.symm.trans this) (by decide)
  have notZero : currentKey ≠ 0 := fun zero => nonzero (congrArg BitVec.toNat zero)
  have exponent : ∃ r, r < 64 ∧ (shl (1 : BitVec 64)
    (BitVec.ofInt 64 (ffs (currentKey.setWidth 32) - 1)).toNat).toNat = 2 ^ r ∧
      (currentKey.toNat % 2 ^ 32 = 0 ∧ r = 63 ∨ r < 32 ∧ 2 ^ r ∣ currentKey.toNat ∧
        ¬ 2 ^ (r + 1) ∣ currentKey.toNat) := by
    by_cases zero : currentKey.setWidth 32 = 0
    · refine ⟨63, by decide, ?_, Or.inl ⟨?_, rfl⟩⟩
      · rw [ffs, if_pos zero]
        decide +kernel
      · rw [← low, zero]
        rfl
    · have lt := ctz_lt zero
      have bit := two_pow_ctz_dvd (currentKey.setWidth 32)
      rw [low] at bit
      refine ⟨(currentKey.setWidth 32).ctz.toNat, by omega, ?_, Or.inr ⟨lt, ?_, fun more => ?_⟩⟩
      · rw [toNat_one_shl (by decide), ffs, if_neg zero, Nat.cast_succ, Int.add_sub_cancel]
        have value : (BitVec.ofInt 64 ((currentKey.setWidth 32).ctz.toNat : Int)).toNat =
            (currentKey.setWidth 32).ctz.toNat := by
          rw [BitVec.ofInt_natCast, BitVec.toNat_ofNat]
          omega
        rw [value]
        congr 1
        omega
      · exact (Nat.dvd_mod_iff (Nat.pow_dvd_pow 2 lt.le)).mp bit
      · have set := BitVec.getLsbD_true_ctz_of_ne_zero zero
        rw [BitVec.getLsbD, low, Nat.testBit_mod_two_pow, decide_eq_true lt, Bool.true_and,
          Nat.testBit_eq_decide_div_mod_eq, decide_eq_true_iff] at set
        obtain ⟨q, eq⟩ := more
        rw [eq, pow_succ, Nat.mul_assoc, Nat.mul_div_cancel_left _ (Nat.two_pow_pos _)] at set
        omega
  obtain ⟨r, _, reach, shape⟩ := exponent
  refine ⟨r, _, shape, ?_, by rw [subextentSize, if_neg notOdd, if_pos notZero]; rfl⟩
  split
  · rename_i lt
    have := BitVec.lt_def.mp lt
    rw [reach] at this ⊢
    omega
  · rename_i ge
    have := mt BitVec.lt_def.mpr ge
    rw [reach] at this
    omega

/-- From `s` to `e` there is no multiple of 2^32 that is 2^31 or more behind `s`, nor is `e` itself
2^31 behind one that is not before `s`. The other case is one in which the negative size is just
right. -/
def Clear (s e : Nat) : Prop :=
  0 < s ∧ s ≤ 2 ^ 31 ∧ e = 2 ^ 64 ∨ e / 2 ^ 32 * 2 ^ 32 < s + 2 ^ 31 ∧
    (e % 2 ^ 32 = 2 ^ 31 → e < s + 2 ^ 31)

instance (s e : Nat) : Decidable (Clear s e) :=
  inferInstanceAs (Decidable (0 < s ∧ s ≤ 2 ^ 31 ∧ e = 2 ^ 64 ∨
    e / 2 ^ 32 * 2 ^ 32 < s + 2 ^ 31 ∧ (e % 2 ^ 32 = 2 ^ 31 → e < s + 2 ^ 31)))

section
variable {s e size : Nat}

theorem clear_of_lt (lt : e < s + 2 ^ 31) : Clear s e :=
  Or.inr ⟨(Nat.div_mul_le_self e _).trans_lt lt, fun _ => lt⟩

/-- A step that passes no multiple of 2^31 changes nothing. -/
theorem clear_step (pos : 0 < s) (near : ∀ q, s ≤ 2 ^ 31 * q → s + size ≤ 2 ^ 31 * q) :
    Clear s e ↔ Clear (s + size) e := by
  unfold Clear
  have one := near 1
  have block := near (e / 2 ^ 32 * 2 - 1)
  have half := near (e / 2 ^ 32 * 2)
  have split := Nat.div_add_mod e (2 ^ 32)
  generalize e / 2 ^ 32 = q at block half split ⊢
  generalize e % 2 ^ 32 = rest at split ⊢
  omega

/-- Nor does a short one at a multiple of 2^32, unless the rest is 2^31. -/
theorem clear_step_block (block : s % 2 ^ 32 = 0) (pos : 0 < s) (short : size < 2 ^ 31)
    (ne : e ≠ s + 2 ^ 31) :
    Clear s e ↔ Clear (s + size) e := by
  unfold Clear
  omega

end

/-- A step from a key other than 0: it stays in the extent and changes nothing about the rest, or it
does not, and the way was not clear. -/
theorem subextentSize_cases {currentKey len : BitVec 64} (nonzero : currentKey.toNat ≠ 0)
    (two : 2 ≤ len.toNat) (proper : currentKey.toNat + len.toNat ≤ 2 ^ 64) :
    (∃ size, subextentSize currentKey len = some size ∧ 0 < size.toNat ∧ size.toNat ≤ len.toNat ∧
      (Clear currentKey.toNat (currentKey.toNat + len.toNat) ↔
        Clear (currentKey.toNat + size.toNat) (currentKey.toNat + len.toNat))) ∨
    (∀ size, subextentSize currentKey len = some size → len.toNat < size.toNat) ∧
      ¬ Clear currentKey.toNat (currentKey.toNat + len.toNat) := by
  have pos := Nat.pos_of_ne_zero nonzero
  rcases Nat.mod_two_eq_zero_or_one currentKey.toNat with even | odd
  · obtain ⟨r, m, shape, bound, eq⟩ := subextentSize_even even nonzero len
    rw [eq]
    rcases shape with ⟨block, rfl⟩ | ⟨lt, dvd, exact_⟩
    · -- at a multiple of 2^32 the size comes from the length alone
      rcases lowestBit_spec m with ⟨low, none⟩ | ⟨low, huge⟩ | ⟨low, top, v, small, size, some,
        value, divides⟩
      · refine Or.inr ⟨fun size here => absurd (here.symm.trans none) (Option.some_ne_none size),
          ?_⟩
        unfold Clear
        omega
      · refine Or.inr ⟨fun size here => ?_, ?_⟩
        · rw [huge] at here
          cases here
          rw [BitVec.toNat_ofNat]
          omega
        · unfold Clear
          omega
      · have le : 2 ^ v ≤ m.toNat := Nat.le_of_dvd (by omega) divides
        have short : 2 ^ v < 2 ^ 31 := Nat.pow_lt_pow_right (by decide) small
        refine Or.inl ⟨size, some, by rw [value]; exact Nat.two_pow_pos v, by omega, ?_⟩
        rw [value]
        exact clear_step_block block pos short (by omega)
    · rcases Nat.lt_or_ge r 31 with below | above
      · have power : 2 ^ r < 2 ^ 31 := Nat.pow_lt_pow_right (by decide) below
        have positive : 0 < 2 ^ r := Nat.two_pow_pos r
        rcases lowestBit_spec m with ⟨low, _⟩ | ⟨low, _⟩ | ⟨_, _, v, small, size, some,
          value, divides⟩
        · omega
        · omega
        · have le : 2 ^ v ≤ m.toNat := Nat.le_of_dvd (by omega) divides
          have order : v ≤ r := (Nat.pow_le_pow_iff_right (show 1 < 2 by decide)).mp (by omega)
          refine Or.inl ⟨size, some, by rw [value]; exact Nat.two_pow_pos v, by omega, ?_⟩
          rw [value]
          refine clear_step pos fun q near => ?_
          -- the key is a multiple of the size, and not one of 2^31
          obtain ⟨a, ha⟩ := (Nat.pow_dvd_pow 2 order).trans dvd
          obtain ⟨b, hb⟩ : 2 ^ v ∣ 2 ^ 31 * q := (Nat.pow_dvd_pow 2 (by omega)).mul_right q
          have ne : currentKey.toNat ≠ 2 ^ 31 * q := by
            intro same
            exact exact_ (same ▸ (Nat.pow_dvd_pow 2 (by omega : r + 1 ≤ 31)).mul_right q)
          rw [ha, hb] at ne near ⊢
          have less : a < b := by
            by_contra not
            exact ne (le_antisymm near (Nat.mul_le_mul_left _ (not_lt.mp not)))
          calc 2 ^ v * a + 2 ^ v = 2 ^ v * (a + 1) := (Nat.mul_succ _ _).symm
            _ ≤ 2 ^ v * b := Nat.mul_le_mul_left _ less
      · obtain rfl : r = 31 := by omega
        have half : currentKey.toNat % 2 ^ 32 = 2 ^ 31 := by omega
        rcases lowestBit_spec m with ⟨low, _⟩ | ⟨low, huge⟩ | ⟨low, top, v, small, size, some,
          value, divides⟩
        · omega
        · by_cases whole : len.toNat = 2 ^ 64 - 2 ^ 31
          · refine Or.inl ⟨_, huge, by decide, by rw [whole]; decide, ?_⟩
            rw [whole] at proper ⊢
            rw [BitVec.toNat_ofNat]
            unfold Clear
            omega
          · refine Or.inr ⟨fun size here => ?_, ?_⟩
            · rw [huge] at here
              cases here
              rw [BitVec.toNat_ofNat]
              omega
            · unfold Clear
              omega
        · have le : 2 ^ v ≤ m.toNat := Nat.le_of_dvd (by omega) divides
          refine Or.inl ⟨size, some, by rw [value]; exact Nat.two_pow_pos v, by omega, ?_⟩
          exact iff_of_true (clear_of_lt (by omega)) (clear_of_lt (by omega))
  · refine Or.inl ⟨1, ?_, by decide, by simpa using by omega, clear_step pos fun q near => ?_⟩
    · have : currentKey % 2 = 1 := BitVec.eq_of_toNat_eq (by rw [BitVec.toNat_umod]; exact odd)
      rw [subextentSize, if_pos this]
    · change currentKey.toNat + 1 ≤ _
      omega

theorem stepsTile_iff_clear {currentKey len : BitVec 64} (nonzero : currentKey.toNat ≠ 0)
    (proper : currentKey.toNat + len.toNat ≤ 2 ^ 64) :
    StepsTile currentKey len ↔ Clear currentKey.toNat (currentKey.toNat + len.toNat) := by
  induction currentKey, len using span_induct with
  | nil currentKey => exact iff_of_true (stepsTile_zero _) (clear_of_lt (by simp))
  | cons currentKey len pos ih =>
    rcases Nat.lt_or_ge 1 len.toNat with two | one
    · rw [stepsTile_iff two proper]
      rcases subextentSize_cases nonzero two proper with
        ⟨size, eq, lower, upper, same⟩ | ⟨beyond, blocked⟩
      · have left : (len - size).toNat = len.toNat - size.toNat := BitVec.toNat_sub_of_le upper
        have next : size.toNat < len.toNat → (currentKey + size).toNat = currentKey.toNat +
            size.toNat :=
          fun more => BitVec.toNat_add_of_lt (by omega)
        have sum : currentKey.toNat + size.toNat + (len.toNat - size.toNat) = currentKey.toNat +
          len.toNat := by omega
        rw [same]
        have one : (∃ size', subextentSize currentKey len = some size' ∧ 0 < size'.toNat ∧
          size'.toNat ≤ len.toNat ∧
            StepsTile (currentKey + size') (len - size')) ↔
              StepsTile (currentKey + size) (len - size) := by
          constructor
          · rintro ⟨size', eq', _, _, tile⟩
            cases eq.symm.trans eq'
            exact tile
          · exact fun tile => ⟨size, eq, lower, upper, tile⟩
        rw [one]
        rcases Nat.eq_or_lt_of_le upper with last | more
        · rw [BitVec.eq_of_toNat_eq (x := len - size) (y := 0) (by rw [left]; simpa using by omega)]
          exact iff_of_true (stepsTile_zero _) (clear_of_lt (by omega))
        · rw [ih size lower upper (by rw [next more]; omega)
            (by rw [next more, left, sum]; exact proper), next more, left, sum]
      · refine iff_of_false ?_ blocked
        rintro ⟨size, eq, _, upper, _⟩
        exact absurd (beyond size eq) (not_lt.mpr upper)
    · have : len = 1 := BitVec.eq_of_toNat_eq (y := 1) (by simpa using by omega)
      subst this
      exact iff_of_true (stepsTile_one _) (clear_of_lt (by simp))

/-- Where the steps begin to follow the bits of the key: at the key, or in the middle for key 0. -/
def stepsStart (key len : Nat) : Nat := if key = 0 then len / 2 else key

theorem stepsTile_iff_clear_start (key len : BitVec 64) (proper : key.toNat + len.toNat ≤ 2 ^ 64) :
    StepsTile key len ↔ Clear (stepsStart key.toNat len.toNat) (key.toNat + len.toNat) := by
  unfold stepsStart
  split
  · rename_i zero
    have first : key = 0 := BitVec.eq_of_toNat_eq zero
    subst first
    rcases Nat.lt_or_ge 1 len.toNat with two | one
    · have half : (len / 2).toNat = len.toNat / 2 := BitVec.toNat_udiv
      have left : (len - len / 2).toNat = len.toNat - len.toNat / 2 := by
        rw [BitVec.toNat_sub_of_le (BitVec.le_def.mpr (by omega)), half]
      have size : subextentSize 0 len = some (len / 2) := by
        rw [subextentSize, if_neg (by decide), if_neg (by decide)]
      have rest : StepsTile 0 len ↔ StepsTile (len / 2) (len - len / 2) := by
        rw [stepsTile_iff two proper]
        constructor
        · rintro ⟨size', eq, _, _, tile⟩
          cases size.symm.trans eq
          rwa [BitVec.ofNat_eq_ofNat, BitVec.zero_add] at tile
        · intro tile
          refine ⟨len / 2, size, by omega, by omega, ?_⟩
          rwa [BitVec.ofNat_eq_ofNat, BitVec.zero_add]
      rw [rest, stepsTile_iff_clear (by omega) (by omega), half, left]
      rw [show len.toNat / 2 + (len.toNat - len.toNat / 2) =
        (0 : Key).toNat + len.toNat by rw [zero]; omega]
    · refine iff_of_true ?_ (clear_of_lt (by omega))
      rcases Nat.le_one_iff_eq_zero_or_eq_one.mp one with none | last
      · rw [BitVec.eq_of_toNat_eq (y := 0) none]
        exact stepsTile_zero _
      · rw [BitVec.eq_of_toNat_eq (y := 1) last]
        exact stepsTile_one _
  · rename_i nonzero
    exact stepsTile_iff_clear nonzero proper

/-- `Insert_extent` ends with steps that tile the extent exactly when the way is clear. -/
theorem insertExtent_tiles_iff_clear (key len : BitVec 64)
    (proper : key.toNat + len.toNat ≤ 2 ^ 64) :
    StepsTile key len ↔ Clear (stepsStart key.toNat len.toNat) (key.toNat + len.toNat) :=
  stepsTile_iff_clear_start key len proper

/-- The keys from 4 to 10. -/
theorem insertExtent_tiles_iff_clear_small : StepsTile 4 7 :=
  (insertExtent_tiles_iff_clear 4 7 (by decide)).mpr (by decide)

/-- At key 2^31 the size of the step over 2^31 keys is `1 << 31`, which is negative. -/
theorem half_block_leaves_extent : subextentSize 0x80000000 0x80000000 = some 0xffffffff80000000 ∧
      ¬ StepsTile 0x80000000 0x80000000 := by
  have size : subextentSize 0x80000000 0x80000000 = some 0xffffffff80000000 := by decide +kernel
  refine ⟨size, fun tile => ?_⟩
  obtain ⟨size', eq, _, le, _⟩ := (stepsTile_iff (by decide) (by decide)).mp tile
  cases size.symm.trans eq
  exact absurd le (by decide)

/-- The way of an extent is clear, and the recursion is deep enough. -/
def Fits (fuel : Nat) (span : Span) : Prop :=
  span.Proper ∧ Clear (stepsStart span.key.toNat span.len.toNat) (span.key.toNat + span.len.toNat) ∧
    span.len.toNat < fuel

theorem cuts (fuel : Nat) :
    Cuts (fun table span ptr => insertExtent fuel table span.key 0 span.len ptr)
    (Fits fuel) fun span => pieces span.key span.len where
  tiles span fits := tiles_pieces fits.1.2 ((stepsTile_iff_clear_start _ _ fits.1.2).mpr fits.2.1)
  insert table span ptr fits := by
    have start : span.key + 0 = span.key := BitVec.add_zero span.key
    have tile := (stepsTile_iff_clear_start span.key span.len fits.1.2).mpr fits.2.1
    rw [insertExtent_eq fits.2.2 (by rw [start]; exact fits.1.2) (by rw [start]; exact tile), start]

end CCEH

namespace KV

/-- In a store of disjoint extents whose ways are clear, a key gets its address in an extent for
all values exactly when a piece of that extent begins at it. -/
theorem getExtent_iff_starts (fuel : Nat) (spans : List Span)
    (fits : ∀ span ∈ spans, CCEH.Fits fuel span)
    (apart : spans.Pairwise fun r s => r.range.Apart s.range) {i : Nat} {span : Span}
    (here : spans[i]? = some span) (key : Key) :
    (∀ es : List Extent, es.map Extent.toSpan = spans →
        ∃ s, ExtentStore.insertAll (insertExtent fuel) ExtentStore.empty es = some s ∧
          ∀ e, es[i]? = some e → getExtent s key = some (e.value + 4096 * (key - e.key))) ↔
      Starts (CCEH.pieces span.key span.len) key := by
  refine ((CCEH.cuts fuel).answers_iff fits apart here).trans ?_
  have finds : ∀ table, Filled (fun span => CCEH.pieces span.key span.len) spans table →
      (CCEH.getExtent table key 0 = some i ↔ Starts (CCEH.pieces span.key span.len) key) := by
    intro table filled
    rw [CCEH.getExtent, BitVec.ofNat_eq_ofNat, BitVec.add_zero, filled key i, here]
    simp
  constructor
  · intro found
    obtain ⟨table, filled, _⟩ := (CCEH.cuts fuel).exists_table fits apart
    exact (finds table filled).mp (found table filled)
  · intro starts table filled
    exact (finds table filled).mpr starts

/-- The second piece of an extent of 2^31 keys, behind another extent. -/
theorem getExtent_iff_starts_second : ∃ s,
    ExtentStore.insertAll (insertExtent (2 ^ 31 + 1)) ExtentStore.empty
      [⟨⟨0x10000000000, 7⟩, 4096⟩, ⟨⟨1, 0x80000000⟩, 8192⟩] = some s ∧
        getExtent s 2 = some 12288 := by
  have fits : ∀ span ∈ [Span.mk 0x10000000000 7, ⟨1, 0x80000000⟩], CCEH.Fits (2 ^ 31 + 1) span := by
    unfold CCEH.Fits
    decide +kernel
  have apart : [Span.mk 0x10000000000 7, ⟨1, 0x80000000⟩].Pairwise fun r s =>
      r.range.Apart s.range := by
    rw [List.pairwise_pair]
    unfold Range.Apart
    decide +kernel
  have starts : Starts (CCEH.pieces 1 0x80000000) 2 := by
    have tile : CCEH.StepsTile 1 0x80000000 :=
      (CCEH.stepsTile_iff_clear_start 1 _ (by decide)).mpr (by decide)
    obtain ⟨size, _, _, ⟨one, _⟩ | ⟨_, first⟩, rest, eq⟩ :=
      CCEH.pieces_cons (by decide) (by decide) tile
    · cases one
    cases (show CCEH.subextentSize 1 0x80000000 = some 1 by decide +kernel).symm.trans first
    obtain ⟨size, _, _, _, _, eq'⟩ := CCEH.pieces_cons (by decide) (by decide) rest
    rw [eq, starts_cons, eq', starts_cons]
    exact Or.inr (Or.inl rfl)
  obtain ⟨s, run, answer⟩ :=
    (getExtent_iff_starts (2 ^ 31 + 1) _ fits apart (i := 1) rfl 2).mpr starts
    [⟨⟨0x10000000000, 7⟩, 4096⟩, ⟨⟨1, 0x80000000⟩, 8192⟩] rfl
  exact ⟨s, run, answer _ rfl⟩

end KV

end Xcache
