import Xcache.Lib.Range

/-! Blocks of cells in a flat memory, and words of eight bytes in little-endian order. -/

namespace Xcache.Memory

section
variable {α : Type*} {n k : Nat}

def read (n : Nat) (m : Nat → α) (a : Nat) : Fin n → α := fun o => m (a + o)

def write (m : Nat → α) (a : Nat) (v : Fin n → α) : Nat → α :=
  fun x => if h : a ≤ x ∧ x < a + n then v ⟨x - a, by omega⟩ else m x

theorem write_outside (m : Nat → α) {a x : Nat} (v : Fin n → α)
    (out : x < a ∨ a + n ≤ x) : write m a v x = m x :=
  dif_neg (by omega)

theorem read_write_self (m : Nat → α) (a : Nat) (v : Fin n → α) : read n (write m a v) a = v := by
  funext o
  have inside : a ≤ a + o.val ∧ a + o.val < a + n :=
    ⟨Nat.le_add_right _ _, Nat.add_lt_add_left o.isLt a⟩
  unfold read write
  rw [dif_pos inside]
  congr 1
  exact Fin.ext (Nat.add_sub_cancel_left ..)

theorem read_write_apart (m : Nat → α) {a b : Nat} (v : Fin n → α)
    (apart : (Range.mk b k).Apart ⟨a, n⟩) :
    read k (write m a v) b = read k m b := by
  funext o
  refine write_outside m v (apart.imp (fun le => ?_) fun le => le.trans (Nat.le_add_right _ _))
  exact lt_of_lt_of_le (Nat.add_lt_add_left o.isLt b) le

theorem read_write_read (m src : Nat → α) {a s o : Nat} (le : o + k ≤ n) :
    read k (write m a (read n src s)) (a + o) = read k src (s + o) := by
  funext i
  have inside : a ≤ a + o + i.val ∧ a + o + i.val < a + n := by omega
  unfold read write
  rw [dif_pos inside]
  exact congrArg src (by dsimp only; omega)

end

abbrev Byte := BitVec 8

def ofBytes (b : Fin 8 → Byte) : BitVec 64 := b 7 ++ b 6 ++ b 5 ++ b 4 ++ b 3 ++ b 2 ++ b 1 ++ b 0

def toBytes (w : BitVec 64) : Fin 8 → Byte := fun i => w.extractLsb' (8 * i) 8

theorem ofBytes_toBytes (w : BitVec 64) : ofBytes (toBytes w) = w := by
  have join : ∀ {start len : Nat},
      w.extractLsb' (start + 8) len ++ w.extractLsb' start 8 = w.extractLsb' start (len + 8) :=
    fun {_ _} => BitVec.extractLsb'_append_extractLsb'_eq_extractLsb' rfl
  calc ofBytes (toBytes w)
      = w.extractLsb' (48 + 8) 8 ++ w.extractLsb' (40 + 8) 8 ++ w.extractLsb' (32 + 8) 8 ++
          w.extractLsb' (24 + 8) 8 ++ w.extractLsb' (16 + 8) 8 ++ w.extractLsb' (8 + 8) 8 ++
          w.extractLsb' (0 + 8) 8 ++ w.extractLsb' 0 8 := rfl
    _ = w.extractLsb' 0 64 := by rw [join, join, join, join, join, join, join]
    _ = w := BitVec.extractLsb'_eq_self

def load (m : Nat → Byte) (a : Nat) : BitVec 64 := ofBytes (read 8 m a)

def store (m : Nat → Byte) (a : Nat) (w : BitVec 64) : Nat → Byte := write m a (toBytes w)

theorem load_store (m : Nat → Byte) (a : Nat) (w : BitVec 64) : load (store m a w) a = w := by
  unfold load store
  rw [read_write_self, ofBytes_toBytes]

theorem load_write_apart {n : Nat} (m : Nat → Byte) {a b : Nat} (v : Fin n → Byte)
    (apart : (Range.mk b 8).Apart ⟨a, n⟩) : load (write m a v) b = load m b :=
  congrArg ofBytes (read_write_apart m v apart)

theorem load_store_apart (m : Nat → Byte) {a b : Nat} (w : BitVec 64)
    (apart : (Range.mk b 8).Apart ⟨a, 8⟩) :
    load (store m a w) b = load m b :=
  load_write_apart m (toBytes w) apart

theorem load_write_read {n : Nat} (m src : Nat → Byte) {a s o : Nat} (le : o + 8 ≤ n) :
    load (write m a (read n src s)) (a + o) = load src (s + o) :=
  congrArg ofBytes (read_write_read m src le)

end Xcache.Memory
