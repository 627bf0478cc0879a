import Mathlib.Algebra.BigOperators.Group.Multiset.Basic
import Mathlib.Algebra.Order.BigOperators.Group.Multiset
import Xcache.Pair
import Xcache.Filter.Murmur

/-! The server's counting Bloom filter (`server/util/counting_bloom_filter.h`) and
what its counters say about a multiset of stored keys. -/

namespace Xcache
open Function

/-- Counters are bytes. `words` is the packed bitmap that is sent to the clients. -/
structure CountingBloomFilter where
  numHashes : Fin 256
  numBits : Nat
  counters : Nat → Nat
  words : Nat → Nat
  modifiedBlocks : Finset Nat

/-- An `int` stored into a `uint64_t`: the sign is extended. -/
def intToU64 (n : Nat) : Nat :=
  if n % 2 ^ 32 < 2 ^ 31 then n % 2 ^ 32 else n % 2 ^ 32 + (2 ^ 64 - 2 ^ 32)

theorem intToU64_of_lt {n : Nat} (h : n < 2 ^ 31) : intToU64 n = n := by
  have small : n % 2 ^ 32 = n := Nat.mod_eq_of_lt (by omega)
  simp only [intToU64, small, h, if_true]

namespace CountingBloomFilter

def new (numHashes : Fin 256) (numBits : Nat) : CountingBloomFilter :=
  ⟨numHashes, numBits, fun _ => 0, fun _ => 0, ∅⟩

def computeHash (bf : CountingBloomFilter) (key : Key) (salt : Nat) : Nat :=
  intToU64 ((murmur2 (keyBytes key) (BitVec.ofNat 64 salt)).toNat % bf.numBits)

/-- The counters a key touches, one for each salt and in that order. -/
def indices (bf : CountingBloomFilter) (key : Key) : List Nat :=
  (List.range bf.numHashes).map (bf.computeHash key)

/-- Counting up stops at 255. -/
def bump (c : Nat → Nat) (idx : Nat) : Nat → Nat :=
  if c idx < 255 then update c idx (c idx + 1) else c

/-- Counting down is a plain byte decrement. -/
def unbump (c : Nat → Nat) (idx : Nat) : Nat → Nat :=
  update c idx ((c idx + 255) % 256)

def insert (bf : CountingBloomFilter) (key : Key) : CountingBloomFilter :=
  { bf with counters := (bf.indices key).foldl bump bf.counters }

def query (bf : CountingBloomFilter) (key : Key) : Bool :=
  (bf.indices key).all fun idx => bf.counters idx != 0

/-- `SENDINGBLOCKSIZE` is the unparenthesised text `1024 * 8`. -/
def deleteLoop : List Nat → (Nat → Nat) × Finset Nat → (Nat → Nat) × Finset Nat
  | [], s => s
  | idx :: rest, (c, blocks) =>
    let c := unbump c idx
    deleteLoop rest (c, if c idx = 0 then Insert.insert (idx / 1024 * 8) blocks else blocks)

def delete (bf : CountingBloomFilter) (key : Key) : CountingBloomFilter × Bool :=
  if bf.query key then
    let s := deleteLoop (bf.indices key) (bf.counters, bf.modifiedBlocks)
    ({ bf with counters := s.1, modifiedBlocks := s.2 }, true)
  else (bf, false)

def numLongs (bf : CountingBloomFilter) : Nat := (bf.numBits + 63) / 64

/-- The first loop of `ToOrdinaryBloomFilter` clears the packed words. -/
def cleared (bf : CountingBloomFilter) : Nat → Nat :=
  (List.range bf.numLongs).foldl (fun w i => update w i 0) bf.words

/-- `ToOrdinaryBloomFilter`: the second loop sets one bit for each positive counter, most
significant bit first. -/
def toOrdinaryBloomFilter (bf : CountingBloomFilter) : CountingBloomFilter :=
  { bf with
    words := (List.range bf.numBits).foldl (fun w i =>
      if bf.counters i > 0 then
        update w (i / 64) (w (i / 64) ||| 1 <<< (64 - 1 - i % 64))
      else w) bf.cleared }

theorem computeHash_lt (bf : CountingBloomFilter) (hpos : 0 < bf.numBits)
    (hint : bf.numBits < 2 ^ 31) (key : Key) (salt : Nat) :
    bf.computeHash key salt < bf.numBits := by
  have h := Nat.mod_lt (murmur2 (keyBytes key) (BitVec.ofNat 64 salt)).toNat hpos
  rw [computeHash, intToU64_of_lt (h.trans hint)]
  exact h

theorem indices_lt (bf : CountingBloomFilter) (pos : 0 < bf.numBits) (small : bf.numBits < 2 ^ 31)
    {key : Key} {i : Nat} (mem : i ∈ bf.indices key) : i < bf.numBits := by
  obtain ⟨salt, _, rfl⟩ := List.mem_map.mp mem
  exact bf.computeHash_lt pos small key salt

@[simp] theorem indices_insert (bf : CountingBloomFilter) (k key : Key) :
    (bf.insert k).indices key = bf.indices key := rfl

@[simp] theorem indices_delete (bf : CountingBloomFilter) (k key : Key) :
    (bf.delete k).1.indices key = bf.indices key := by
  unfold delete
  split <;> rfl

theorem le_foldl_bump (l : List Nat) (c : Nat → Nat) (i : Nat) : c i ≤ l.foldl bump c i := by
  induction l generalizing c with
  | nil => exact le_rfl
  | cons idx rest ih =>
    refine le_trans ?_ (ih (bump c idx))
    unfold bump
    split
    · by_cases hi : i = idx
      · subst hi; simp
      · simp [hi]
    · exact le_rfl

theorem foldl_bump_le (l : List Nat) (c : Nat → Nat) (i : Nat) :
    l.foldl bump c i ≤ c i + l.length := by
  induction l generalizing c with
  | nil => exact le_rfl
  | cons idx rest ih =>
    have one : bump c idx i ≤ c i + 1 := by
      unfold bump
      split
      · by_cases hi : i = idx
        · subst hi; simp
        · simp [hi]
      · omega
    have := ih (bump c idx)
    rw [List.foldl_cons, List.length_cons]
    omega

/-- Counters count up to 255 and stay there. -/
theorem foldl_bump_min (l : List Nat) (c : Nat → Nat) (byte : ∀ i, c i ≤ 255) (i : Nat) :
    l.foldl bump c i = min 255 (c i + l.count i) := by
  induction l generalizing c with
  | nil =>
    have := byte i
    simp [this]
  | cons idx rest ih =>
    have one : ∀ j, bump c idx j = min 255 (c j + if j = idx then 1 else 0) := by
      intro j
      have := byte j
      unfold bump
      by_cases same : j = idx
      · subst same
        split
        · simp only [update_self, if_true]
          omega
        · simp only [if_true]
          omega
      · split <;> simp [same, this]
    rw [List.foldl_cons, ih, one i]
    · by_cases same : i = idx
      · subst same
        rw [List.count_cons_self, if_pos rfl]
        omega
      · rw [List.count_cons_of_ne (Ne.symm same), if_neg same]
        have := byte i
        omega
    · intro j
      rw [one j]
      exact min_le_left _ _

/-- As long as no counter ends at 255, none was held back on the way. -/
theorem foldl_bump_eq (l : List Nat) (c : Nat → Nat) (room : ∀ i, l.foldl bump c i < 255)
    (i : Nat) :
    l.foldl bump c i = c i + l.count i := by
  have law := foldl_bump_min l c (fun j => (le_foldl_bump l c j).trans (room j).le) i
  have := room i
  omega

theorem deleteLoop_counters (l : List Nat) (s : (Nat → Nat) × Finset Nat) :
    (deleteLoop l s).1 = l.foldl unbump s.1 := by
  induction l generalizing s with
  | nil => rfl
  | cons idx rest ih => rw [deleteLoop, ih, List.foldl_cons]

theorem foldl_unbump_eq (l : List Nat) (c : Nat → Nat) (byte : ∀ i, c i < 256)
    (enough : ∀ i, l.count i ≤ c i) (i : Nat) : l.foldl unbump c i = c i - l.count i := by
  induction l generalizing c with
  | nil => rfl
  | cons idx rest ih =>
    have hpos : 1 ≤ c idx := by
      have := enough idx
      rw [List.count_cons_self] at this
      omega
    have hdec : (c idx + 255) % 256 = c idx - 1 := by
      have := byte idx
      omega
    rw [List.foldl_cons, ih]
    · simp only [unbump, hdec]
      by_cases hi : i = idx
      · subst hi
        rw [update_self, List.count_cons_self]
        omega
      · rw [update_of_ne hi, List.count_cons_of_ne (Ne.symm hi)]
    · intro j
      simp only [unbump, hdec]
      by_cases hj : j = idx
      · subst hj
        have := byte j
        rw [update_self]
        omega
      · rw [update_of_ne hj]
        exact byte j
    · intro j
      have := enough j
      simp only [unbump, hdec]
      by_cases hj : j = idx
      · subst hj
        rw [List.count_cons_self] at this
        rw [update_self]
        omega
      · rw [List.count_cons_of_ne (Ne.symm hj)] at this
        rw [update_of_ne hj]
        exact this

theorem query_iff (bf : CountingBloomFilter) (key : Key) :
    bf.query key = true ↔ ∀ idx ∈ bf.indices key, bf.counters idx ≠ 0 := by
  simp [query, List.all_eq_true]

/-- How often the keys of `M` touch counter `i`. -/
def load (bf : CountingBloomFilter) (M : Multiset Key) (i : Nat) : Nat :=
  (M.map fun key => (bf.indices key).count i).sum

@[simp] theorem load_cons (bf : CountingBloomFilter) (key : Key) (M : Multiset Key) (i : Nat) :
    bf.load (key ::ₘ M) i = (bf.indices key).count i + bf.load M i := by
  simp [load]

theorem load_mono (bf : CountingBloomFilter) {M N : Multiset Key} (h : M ≤ N) (i : Nat) :
    bf.load M i ≤ bf.load N i := by
  obtain ⟨K, rfl⟩ := Multiset.le_iff_exists_add.mp h
  simp [load]

/-- Every counter is exactly the load of the stored keys. -/
def Coupled (bf : CountingBloomFilter) (M : Multiset Key) : Prop :=
  ∀ i, bf.counters i = bf.load M i

/-- Every counter is at least the load of the stored keys. -/
def Covers (bf : CountingBloomFilter) (M : Multiset Key) : Prop :=
  ∀ i, bf.load M i ≤ bf.counters i

/-- No counter has reached the value where counting up stops. -/
def Unsaturated (bf : CountingBloomFilter) : Prop := ∀ i, bf.counters i < 255

theorem length_indices (bf : CountingBloomFilter) (key : Key) :
    (bf.indices key).length = bf.numHashes := by
  rw [indices, List.length_map, List.length_range]

theorem load_le (bf : CountingBloomFilter) (M : Multiset Key) (i : Nat) :
    bf.load M i ≤ bf.numHashes * M.card := by
  induction M using Multiset.induction_on with
  | empty => exact le_rfl
  | cons key M ih =>
    have one := (List.count_le_length (l := bf.indices key) (a := i)).trans_eq
      (bf.length_indices key)
    rw [load_cons, Multiset.card_cons, Nat.mul_succ]
    omega

theorem Coupled.unsaturated_insert {bf : CountingBloomFilter} {M : Multiset Key} (h : bf.Coupled M)
    (few : bf.numHashes * (M.card + 1) < 255) (key : Key) : (bf.insert key).Unsaturated := by
  intro i
  have more : (bf.insert key).counters i ≤ bf.counters i + (bf.indices key).length :=
    foldl_bump_le (bf.indices key) bf.counters i
  have load := bf.load_le M i
  rw [h i, bf.length_indices] at more
  rw [Nat.mul_succ] at few
  omega

theorem Coupled.covers {bf : CountingBloomFilter} {M : Multiset Key} (h : bf.Coupled M) :
    bf.Covers M := fun i => (h i).ge

theorem coupled_new (numHashes : Fin 256) (numBits : Nat) : (new numHashes numBits).Coupled 0 :=
  fun _ => rfl

theorem Covers.mono {bf : CountingBloomFilter} {M N : Multiset Key} (h : bf.Covers N)
    (hle : M ≤ N) : bf.Covers M := fun i => (bf.load_mono hle i).trans (h i)

theorem Covers.query {bf : CountingBloomFilter} {M : Multiset Key} (h : bf.Covers M) {key : Key}
    (hkey : key ∈ M) : bf.query key = true := by
  obtain ⟨N, rfl⟩ := Multiset.exists_cons_of_mem hkey
  refine (bf.query_iff key).mpr fun idx hidx => ?_
  have hcount : 0 < (bf.indices key).count idx := List.count_pos_iff.mpr hidx
  have := h idx
  rw [load_cons] at this
  omega

theorem load_insert (bf : CountingBloomFilter) (key : Key) (M : Multiset Key) (i : Nat) :
    (bf.insert key).load M i = bf.load M i := rfl

theorem load_delete (bf : CountingBloomFilter) (key : Key) (M : Multiset Key) (i : Nat) :
    (bf.delete key).1.load M i = bf.load M i := by
  simp only [load, indices_delete]

theorem counters_insert_min {bf : CountingBloomFilter} (byte : ∀ i, bf.counters i ≤ 255) (key : Key)
    (i : Nat) :
    (bf.insert key).counters i = min 255 (bf.counters i + (bf.indices key).count i) :=
  foldl_bump_min _ _ byte i

theorem counters_insert {bf : CountingBloomFilter} {key : Key} (room : (bf.insert key).Unsaturated)
    (i : Nat) : (bf.insert key).counters i = bf.counters i + (bf.indices key).count i :=
  foldl_bump_eq _ _ room i

theorem counters_delete {bf : CountingBloomFilter} {key : Key} {M : Multiset Key}
    (byte : ∀ i, bf.counters i < 256) (h : bf.Covers (key ::ₘ M)) (i : Nat) :
    (bf.delete key).1.counters i = bf.counters i - (bf.indices key).count i := by
  have hq : bf.query key = true := h.query (Multiset.mem_cons_self key M)
  have enough : ∀ j, (bf.indices key).count j ≤ bf.counters j := by
    intro j
    have := h j
    rw [load_cons] at this
    omega
  simp only [delete, hq, if_true, deleteLoop_counters]
  exact foldl_unbump_eq _ _ byte enough i

theorem Coupled.insert {bf : CountingBloomFilter} {key : Key} {M : Multiset Key} (h : bf.Coupled M)
    (room : (bf.insert key).Unsaturated) : (bf.insert key).Coupled (key ::ₘ M) := by
  intro i
  rw [counters_insert room, load_insert, load_cons, h i, Nat.add_comm]

theorem Covers.insert {bf : CountingBloomFilter} {key : Key} {M : Multiset Key} (h : bf.Covers M)
    (room : (bf.insert key).Unsaturated) : (bf.insert key).Covers (key ::ₘ M) := by
  intro i
  rw [counters_insert room, load_insert, load_cons]
  have := h i
  omega

theorem Coupled.delete {bf : CountingBloomFilter} {key : Key} {M : Multiset Key}
    (h : bf.Coupled (key ::ₘ M)) (room : bf.Unsaturated) : (bf.delete key).1.Coupled M := by
  intro i
  have := h i
  rw [load_cons] at this
  rw [counters_delete (fun j => (room j).trans (by decide)) h.covers, load_delete]
  omega

theorem Covers.delete {bf : CountingBloomFilter} {key : Key} {M : Multiset Key}
    (h : bf.Covers (key ::ₘ M)) (room : bf.Unsaturated) : (bf.delete key).1.Covers M := by
  intro i
  have := h i
  rw [load_cons] at this
  rw [counters_delete (fun j => (room j).trans (by decide)) h, load_delete]
  omega

end CountingBloomFilter

end Xcache
