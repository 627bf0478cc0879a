import Mathlib.Tactic

/-! `get_longkey` of the cleancache clients: inode and page index in one word. -/

namespace Xcache.Remote

def getLongkey (key index : BitVec 64) : BitVec 64 := key <<< 32 ||| index

theorem toNat_getLongkey {key index : BitVec 64} (small : key.toNat < 2 ^ 32)
    (low : index.toNat < 2 ^ 32) :
    (getLongkey key index).toNat = 2 ^ 32 * key.toNat + index.toNat := by
  have shifted : key.toNat <<< 32 = 2 ^ 32 * key.toNat := by rw [Nat.shiftLeft_eq, Nat.mul_comm]
  unfold getLongkey
  rw [BitVec.toNat_or, BitVec.toNat_shiftLeft, Nat.mod_eq_of_lt (by rw [shifted]; omega),
    ← Nat.shiftLeft_add_eq_or_of_lt low, shifted]

theorem getLongkey_injective {key key' index index' : BitVec 64} (small : key.toNat < 2 ^ 32)
    (small' : key'.toNat < 2 ^ 32) (low : index.toNat < 2 ^ 32) (low' : index'.toNat < 2 ^ 32)
    (eq : getLongkey key index = getLongkey key' index') :
    key = key' ∧ index = index' := by
  have same := congrArg BitVec.toNat eq
  rw [toNat_getLongkey small low, toNat_getLongkey small' low'] at same
  constructor <;> apply BitVec.eq_of_toNat_eq <;> omega

end Xcache.Remote
