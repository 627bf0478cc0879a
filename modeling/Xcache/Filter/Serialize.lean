import Xcache.Filter.Counting

/-! `Serialize` and `Deserialize` of the counting filter. The size goes through a `uint16_t`, so
that larger filters come back as others. -/

namespace Xcache.CountingBloomFilter

def u16Bytes (w : BitVec 16) : List (BitVec 8) := [w.setWidth 8, (w >>> 8).setWidth 8]

def serialize (bf : CountingBloomFilter) : List (BitVec 8) :=
  let numBits := BitVec.ofNat 16 bf.numBits
  BitVec.ofNat 8 bf.numHashes ::
    (u16Bytes numBits ++ (List.range numBits.toNat).map fun i => BitVec.ofNat 8 (bf.counters i))

/-- The loop of `Deserialize` from counter `i` on. A read behind the end of the stream leaves the
byte without a value. -/
def readCounters :
    Nat → Nat → (Nat → Nat) → List (BitVec 8) → Option ((Nat → Nat) × List (BitVec 8))
  | 0, _, c, is => some (c, is)
  | n + 1, i, c, byte :: is => readCounters n (i + 1) (Function.update c i byte.toNat) is
  | _ + 1, _, _, [] => none

/-- The filter and what is left of the stream. -/
def deserialize : List (BitVec 8) → Option (CountingBloomFilter × List (BitVec 8))
  | numHashes :: low :: high :: is => do
      let r := new ⟨numHashes.toNat, numHashes.isLt⟩ (high ++ low).toNat
      let (counters, is) ← readCounters r.numBits 0 r.counters is
      return ({ r with counters := counters }, is)
  | _ => none

theorem u16_of_bytes (w : BitVec 16) : (w >>> 8).setWidth 8 ++ w.setWidth 8 = w := by
  ext i lt
  rw [BitVec.getElem_append]
  split
  · rw [BitVec.getElem_setWidth, BitVec.getLsbD_eq_getElem]
  · rw [BitVec.getElem_setWidth, BitVec.getLsbD_ushiftRight, BitVec.getLsbD_eq_getElem (by omega)]
    congr 1
    omega

/-- Each byte goes into its counter, and the other counters stay. -/
theorem readCounters_written (bytes : Nat → BitVec 8) (n i : Nat) (c : Nat → Nat)
    (is : List (BitVec 8)) :
    readCounters n i c ((List.range' i n).map bytes ++ is) =
      some (fun j => if i ≤ j ∧ j < i + n then (bytes j).toNat else c j, is) := by
  induction n generalizing i c with
  | zero =>
    have none : ∀ j, ¬ (i ≤ j ∧ j < i + 0) := fun j => by omega
    simp only [readCounters, none, if_false]
    rfl
  | succ n ih =>
    rw [List.range'_succ, List.map_cons, List.cons_append, readCounters, ih]
    congr 2
    funext j
    by_cases here : j = i
    · subst here
      simp
    · rw [Function.update_of_ne here]
      congr 1
      simp only [eq_iff_iff]
      omega

/-- What comes back: the size modulo 2^16 and that many counters. -/
theorem deserialize_serialize (bf : CountingBloomFilter) (is : List (BitVec 8)) :
    deserialize (bf.serialize ++ is) = some ({ new bf.numHashes (bf.numBits % 2 ^ 16) with
      counters := fun j => if j < bf.numBits % 2 ^ 16 then bf.counters j % 256 else 0 }, is) := by
  have size := BitVec.toNat_ofNat bf.numBits 16
  have hashes : (⟨(BitVec.ofNat 8 bf.numHashes).toNat, BitVec.isLt _⟩ : Fin 256) = bf.numHashes :=
    Fin.ext (Nat.mod_eq_of_lt bf.numHashes.isLt)
  have read := readCounters_written (fun i => BitVec.ofNat 8 (bf.counters i))
    (bf.numBits % 2 ^ 16) 0 (fun _ => 0) is
  rw [← List.range_eq_range'] at read
  simp only [serialize, u16Bytes, List.cons_append, List.nil_append, deserialize, u16_of_bytes,
    size, hashes, new, read]
  simp

/-- The stream gives back the number of hashes, the size and the counters, and with them every
answer. -/
def RoundTrips (bf : CountingBloomFilter) : Prop :=
  ∃ r, deserialize bf.serialize = some (r, []) ∧ r.numHashes = bf.numHashes ∧
    r.numBits = bf.numBits ∧
    (∀ i < bf.numBits, r.counters i = bf.counters i) ∧ ∀ key, r.query key = bf.query key

theorem RoundTrips.small {bf : CountingBloomFilter} (trips : bf.RoundTrips) :
    bf.numBits < 2 ^ 16 := by
  obtain ⟨r, read, _, size, _⟩ := trips
  have law := bf.deserialize_serialize []
  rw [List.append_nil, read] at law
  cases law
  have : bf.numBits % 2 ^ 16 = bf.numBits := size
  exact this ▸ Nat.mod_lt _ (by decide)

theorem query_congr {bf r : CountingBloomFilter} (hashes : r.numHashes = bf.numHashes)
    (size : r.numBits = bf.numBits) (pos : 1 ≤ bf.numBits) (small : bf.numBits < 2 ^ 31)
    (counters : ∀ i < bf.numBits, r.counters i = bf.counters i) (key : Key) :
    r.query key = bf.query key := by
  have indices : r.indices key = bf.indices key := by
    rw [CountingBloomFilter.indices, hashes]
    exact List.map_congr_left fun salt _ => by rw [computeHash, size, computeHash]
  rw [Bool.eq_iff_iff, query_iff, query_iff, indices]
  refine forall₂_congr fun i here => ?_
  rw [counters i (bf.indices_lt pos small here)]

/-- A filter survives the round trip exactly when its size fits into a `uint16_t`. -/
theorem roundTrips_iff_small (bf : CountingBloomFilter) (pos : 1 ≤ bf.numBits)
    (bytes : ∀ i < bf.numBits, bf.counters i < 256) : bf.RoundTrips ↔ bf.numBits < 2 ^ 16 := by
  refine ⟨RoundTrips.small, fun small => ?_⟩
  have law := bf.deserialize_serialize []
  rw [List.append_nil, Nat.mod_eq_of_lt small] at law
  have counters : ∀ i < bf.numBits, (if i < bf.numBits then bf.counters i % 256 else 0) =
      bf.counters i := by
    intro i lt
    rw [if_pos lt, Nat.mod_eq_of_lt (bytes i lt)]
  refine ⟨_, law, rfl, rfl, counters, ?_⟩
  exact query_congr rfl rfl pos (small.trans (by decide)) counters

theorem roundTrips_iff_small_inserted : ((new 4 100).insert 5).RoundTrips := by
  refine (roundTrips_iff_small ((new 4 100).insert 5) (by decide) fun i _ => ?_).mpr (by decide)
  have law : ((new 4 100).insert 5).counters i = min 255 (0 + ((new 4 100).indices 5).count i) :=
    counters_insert_min (fun _ => Nat.zero_le _) 5 i
  omega

/-- 65536 is written as 0. -/
theorem size_beyond_u16_lost : ¬ (new 1 65536).RoundTrips :=
  fun trips => absurd trips.small (by decide)

end Xcache.CountingBloomFilter
