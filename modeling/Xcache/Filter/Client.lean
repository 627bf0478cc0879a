import Xcache.Filter.Counting
import Xcache.Lib.Bitmap

/-! The client's copy of the filter (`client/bloom_filter.c`) and the packed bitmap the
server makes for it. Both machines store words the same way round, so a copy of the bytes
is a copy of the words. -/

namespace Xcache
open Bitmap (mark markAll marked testBit_markAll marked_markAll)

/-- The client's `struct bloom_filter`, as far as add and check read it. -/
structure BloomFilter where
  nrHash : Nat
  bitmapSize : Nat
  bitmap : Nat → Nat

namespace BloomFilter

/-- The index is an `unsigned int`. -/
def index (f : BloomFilter) (key : Key) (i : Nat) : Nat :=
  (murmur2 (keyBytes key) (BitVec.ofNat 64 i)).toNat % f.bitmapSize % 2 ^ 32

def add (f : BloomFilter) (key : Key) : BloomFilter :=
  { f with bitmap := (List.range f.nrHash).foldl (fun w i =>
      Function.update w (f.index key i / 64)
        (w (f.index key i / 64) ||| 1 <<< (64 - 1 - f.index key i % 64))) f.bitmap }

/-- The loop of `bloom_filter_check` breaks at the first bit that is clear. -/
def check (f : BloomFilter) (key : Key) : Bool :=
  (List.range f.nrHash).all fun i =>
    (f.bitmap (f.index key i / 64) &&& 1 <<< (64 - 1 - f.index key i % 64)) != 0

end BloomFilter

namespace CountingBloomFilter

/-- `QueryBitBloom` looks at the packed words. -/
def queryBitBloom (bf : CountingBloomFilter) (key : Key) : Bool :=
  (bf.indices key).all fun idx => (bf.words (idx / 64) &&& 1 <<< (64 - 1 - idx % 64)) != 0

def positive (bf : CountingBloomFilter) : List Nat :=
  (List.range bf.numBits).filter fun i => bf.counters i > 0

theorem mem_positive {bf : CountingBloomFilter} {i : Nat} :
    i ∈ bf.positive ↔ i < bf.numBits ∧ 0 < bf.counters i := by
  simp [positive]

theorem cleared_apply (bf : CountingBloomFilter) {j : Nat}
    (lt : j < bf.numLongs) : bf.cleared j = 0 := by
  have loop : ∀ n (w : Nat → Nat), j < n → (List.range n).foldl (fun w i => Function.update w i 0) w
      j = 0 := by
    intro n w lt
    induction n with
    | zero => cases lt
    | succ n ih =>
      rw [List.range_succ, List.foldl_append]
      by_cases last : j = n
      · simp [last]
      · simpa [last] using ih (by omega)
  exact loop bf.numLongs bf.words lt

/-- The packing loop marks the positive counters. -/
theorem words_toOrdinaryBloomFilter (bf : CountingBloomFilter) :
    bf.toOrdinaryBloomFilter.words = markAll bf.cleared bf.positive := by
  unfold markAll positive
  rw [List.foldl_filter]
  simp only [decide_eq_true_eq]
  rfl

theorem div_lt_numLongs (bf : CountingBloomFilter) {i : Nat} (lt : i < bf.numBits) :
    i / 64 < bf.numLongs := by
  unfold numLongs
  omega

theorem marked_words (bf : CountingBloomFilter) {i : Nat} (lt : i < bf.numBits) :
    marked bf.toOrdinaryBloomFilter.words i = true ↔ 0 < bf.counters i := by
  have clear : marked bf.cleared i = false := by
    unfold marked
    rw [bf.cleared_apply (bf.div_lt_numLongs lt), Nat.zero_and]
    rfl
  rw [words_toOrdinaryBloomFilter, marked_markAll, clear, mem_positive]
  simp [lt]

/-- After an insert the counters of the key are positive, saturated or not. -/
theorem positive_insert (bf : CountingBloomFilter) (key : Key) (i : Nat) :
    0 < (bf.insert key).counters i ↔ 0 < bf.counters i ∨ i ∈ bf.indices key := by
  unfold CountingBloomFilter.insert
  generalize bf.indices key = l
  generalize bf.counters = c
  induction l generalizing c with
  | nil => simp
  | cons idx l ih =>
    have one : 0 < bump c idx i ↔ 0 < c i ∨ i = idx := by
      unfold bump
      by_cases same : i = idx
      · subst same
        split
        · simp
        · omega
      · split <;> simp [same]
    rw [List.foldl_cons, ih, one, List.mem_cons, or_assoc]

end CountingBloomFilter

section
variable {bf : CountingBloomFilter} {f : BloomFilter} (pos : 0 < bf.numBits)
  (small : bf.numBits < 2 ^ 31)
  (size : f.bitmapSize = bf.numBits)
include pos small size

/-- Both sides compute the same index: neither the `int` nor the `unsigned int` cuts it. -/
theorem index_eq_computeHash (key : Key) (i : Nat) : f.index key i = bf.computeHash key i := by
  have lt := Nat.mod_lt (murmur2 (keyBytes key) (BitVec.ofNat 64 i)).toNat pos
  unfold BloomFilter.index CountingBloomFilter.computeHash
  rw [size, intToU64_of_lt (lt.trans small)]
  exact Nat.mod_eq_of_lt (lt.trans (small.trans (by decide)))

variable (hashes : f.nrHash = bf.numHashes)
include hashes

theorem indices_eq (key : Key) : (List.range f.nrHash).map (f.index key) = bf.indices key := by
  unfold CountingBloomFilter.indices
  rw [hashes]
  apply List.map_congr_left
  exact fun i _ => index_eq_computeHash pos small size key i

theorem add_bitmap (key : Key) : (f.add key).bitmap = markAll f.bitmap (bf.indices key) := by
  rw [← indices_eq pos small size hashes key]
  unfold markAll
  rw [List.foldl_map]
  rfl

theorem check_eq (key : Key) : f.check key = (bf.indices key).all (marked f.bitmap) := by
  rw [← indices_eq pos small size hashes key, List.all_map]
  rfl

/-- A client filter that holds a copy of the packed bitmap answers as the server's counters
and the server's packed words do, and adding a key to it gives the image of the server's
filter after the insert. -/
theorem filters_agree (copy : ∀ j < bf.numLongs, f.bitmap j = bf.toOrdinaryBloomFilter.words j)
    (key : Key) :
    bf.toOrdinaryBloomFilter.queryBitBloom key = bf.toOrdinaryBloomFilter.query key ∧
    f.check key = bf.toOrdinaryBloomFilter.query key ∧
    ∀ j < bf.numLongs, (f.add key).bitmap j = (bf.insert key).toOrdinaryBloomFilter.words j := by
  have bits : ∀ i ∈ bf.indices key, marked bf.toOrdinaryBloomFilter.words i =
      (bf.counters i != 0) := by
    intro i mem
    rw [Bool.eq_iff_iff, bf.marked_words (bf.indices_lt pos small mem),
      bne_iff_ne, Nat.pos_iff_ne_zero]
  have copied : ∀ i ∈ bf.indices key, marked f.bitmap i =
      marked bf.toOrdinaryBloomFilter.words i := by
    intro i mem
    unfold marked
    rw [copy _ (bf.div_lt_numLongs (bf.indices_lt pos small mem))]
  have agree : ∀ p q : Nat → Bool, (∀ i ∈ bf.indices key, p i = q i) →
      (bf.indices key).all p = (bf.indices key).all q := by
    intro p q same
    rw [Bool.eq_iff_iff, List.all_eq_true, List.all_eq_true]
    exact forall₂_congr fun i mem => by rw [same i mem]
  refine ⟨agree _ _ bits, ?_, fun j lt => ?_⟩
  · rw [check_eq pos small size hashes key]
    exact agree _ _ fun i mem => (copied i mem).trans (bits i mem)
  · rw [add_bitmap pos small size hashes key, CountingBloomFilter.words_toOrdinaryBloomFilter]
    apply Bitmap.markAll_congr
    intro b
    -- the image holds the old positive counters, and the new ones are those of the key
    rw [copy j lt, CountingBloomFilter.words_toOrdinaryBloomFilter, testBit_markAll,
      bf.cleared_apply lt, (bf.insert key).cleared_apply lt, or_assoc, ← exists_or]
    refine or_congr_right (exists_congr fun i => ?_)
    rw [CountingBloomFilter.mem_positive, CountingBloomFilter.mem_positive,
      bf.positive_insert key i, ← or_and_right]
    refine and_congr_left fun _ => ?_
    constructor
    · rintro (⟨bound, old⟩ | mem)
      · exact ⟨bound, Or.inl old⟩
      · exact ⟨bf.indices_lt pos small mem, Or.inr mem⟩
    · rintro ⟨bound, old | mem⟩
      · exact Or.inl ⟨bound, old⟩
      · exact Or.inr mem

end

/-- A filter of 65 bits takes a word and one bit more. -/
theorem filters_agree_small : ∃ bf : CountingBloomFilter, bf.numBits = 65 ∧ bf.numLongs = 2 ∧
    BloomFilter.check ⟨3, 65, bf.toOrdinaryBloomFilter.words⟩ 7 =
      bf.toOrdinaryBloomFilter.query 7 := by
  let bf := (CountingBloomFilter.new 3 65).insert 7
  let f : BloomFilter := ⟨3, 65, bf.toOrdinaryBloomFilter.words⟩
  have longs : bf.numLongs = 2 := by
    show (65 + 63) / 64 = 2
    decide
  exact ⟨bf, rfl, longs, (@filters_agree bf f (by decide) (by decide) rfl rfl
    (fun _ _ => rfl) 7).2.1⟩

end Xcache
