import Mathlib.Algebra.BigOperators.Group.Finset.Sigma
import Xcache.Filter.Counting
import Xcache.Store.LinearProbing

/-! The key-value front end of `server/KV.cpp`: a table behind `IHash` and an
optional counting Bloom filter that follows it. -/

namespace Xcache

structure KV (σ : Type) where
  hash : σ
  bf : Option CountingBloomFilter

namespace KV

variable {σ : Type} (H : IHash σ)

/-- The filter part of an insertion: the new key goes in before the removed key comes out. -/
def updateFilter (bf : CountingBloomFilter) (key deletedKey : Key) : CountingBloomFilter :=
  if deletedKey ≠ -1 then ((bf.insert key).delete deletedKey).1 else bf.insert key

/-- The result says whether a key was removed. -/
def insert (kv : KV σ) (key : Key) (value : Value) : Option (KV σ × Bool) :=
  match H.insert kv.hash key value with
  | none => none
  | some (hash, deletedKey) =>
    some (⟨hash, kv.bf.map fun bf => updateFilter bf key deletedKey⟩,
      if deletedKey = -1 then false else true)

def get (kv : KV σ) (key : Key) : Option Value := H.get kv.hash key

/-- A sequence of insertions, one after another; `none` when one does not return. -/
def insertAll : KV σ → List (Key × Value) → Option (KV σ)
  | kv, [] => some kv
  | kv, (key, value) :: rest =>
    match kv.insert H key value with
    | none => none
    | some (kv', _) => kv'.insertAll rest

/-- No counter reaches 255 at any point of the sequence, between the two filter
updates of one call included. -/
def NeverSaturates : KV σ → List (Key × Value) → Prop
  | _, [] => True
  | kv, (key, value) :: rest =>
    (∀ bf, kv.bf = some bf → (bf.insert key).Unsaturated) ∧
      ∀ kv' b, kv.insert H key value = some (kv', b) → NeverSaturates kv' rest

end KV

namespace LinearProbingHash

/-- The pairs of a slot with a live key and a salt that lead to counter `i`. -/
def pairsAt (t : LinearProbingHash) (bf : CountingBloomFilter) (i : Nat) : Finset (Nat × Nat) :=
  (Finset.range t.capacity ×ˢ Finset.range bf.numHashes).filter fun p =>
    (t.dict p.1).Live ∧ bf.computeHash (t.dict p.1).key p.2 = i

theorem count_map_range (f : Nat → Nat) (n i : Nat) :
    ((List.range n).map f).count i = ((Finset.range n).filter fun j => f j = i).card := by
  induction n with
  | zero => rfl
  | succ n ih =>
    rw [List.range_succ, List.map_append, List.count_append, ih, Finset.range_add_one,
      Finset.filter_insert]
    by_cases hi : f n = i
    · simp [hi]
    · simp [hi]

theorem load_keys (t : LinearProbingHash) (bf : CountingBloomFilter) (i : Nat) :
    bf.load t.keys i = ∑ s ∈ Finset.range t.capacity,
      if (t.dict s).Live then (bf.indices (t.dict s).key).count i else 0 := by
  rw [CountingBloomFilter.load, keys, keysIn, Finset.sum, Finset.range_val]
  induction Multiset.range t.capacity using Multiset.induction with
  | empty => rfl
  | cons s S ih =>
    rw [Multiset.map_cons, Multiset.map_cons, Multiset.sum_cons, ← ih]
    by_cases live : (t.dict s).Live
    · rw [if_pos live, Multiset.filter_cons_of_pos (p := (· ≠ invalidKey)) _ live,
        Multiset.map_cons, Multiset.sum_cons]
    · rw [if_neg live, Multiset.filter_cons_of_neg (p := (· ≠ invalidKey)) _ live, Nat.zero_add]

theorem card_pairsAt (t : LinearProbingHash) (bf : CountingBloomFilter) (i : Nat) :
    (t.pairsAt bf i).card = bf.load t.keys i := by
  rw [load_keys, pairsAt, Finset.card_filter, Finset.sum_product]
  refine Finset.sum_congr rfl fun s _ => ?_
  by_cases live : (t.dict s).Live
  · simp only [live, true_and, if_true]
    exact (Finset.card_filter _ _).symm.trans (count_map_range _ _ _).symm
  · simp only [live, false_and, if_false, Finset.sum_const_zero]

end LinearProbingHash

namespace KV
open LinearProbingHash (locksize)

section
variable (h : Key → BitVec 64)

/-- The state the coupling speaks about: a linear probing table and its filter. -/
structure FilterCoupled (capacity : Nat) (numHashes : Fin 256) (numBits : Nat)
    (kv : KV LinearProbingHash) (bf : CountingBloomFilter) : Prop where
  filter : kv.bf = some bf
  capacity_eq : kv.hash.capacity = capacity
  numHashes_eq : bf.numHashes = numHashes
  numBits_eq : bf.numBits = numBits
  coupled : bf.Coupled kv.hash.keys

/-- The filter keeps up with a table whose keys become `N` when `key` comes in and `d` leaves. -/
theorem updateFilter_coupled {bf : CountingBloomFilter} {M N : Multiset Key} {key d : Key}
    (hc : bf.Coupled M) (room : (bf.insert key).Unsaturated)
    (moved : d = -1 ∧ N = key ::ₘ M ∨ d ≠ -1 ∧ d ::ₘ N = key ::ₘ M) :
    (updateFilter bf key d).Coupled N := by
  have grown := hc.insert room
  rcases moved with ⟨hd, hkeys⟩ | ⟨hd, hkeys⟩
  · rw [updateFilter, if_neg (not_not_intro hd), hkeys]
    exact grown
  · rw [updateFilter, if_pos hd]
    exact (hkeys ▸ grown).delete room

theorem updateFilter_shape (bf : CountingBloomFilter) (key d : Key) :
    (updateFilter bf key d).numHashes = bf.numHashes ∧
      (updateFilter bf key d).numBits = bf.numBits := by
  unfold updateFilter CountingBloomFilter.delete
  split
  · split <;> exact ⟨rfl, rfl⟩
  · exact ⟨rfl, rfl⟩

/-- The packed words are left to the senders. -/
theorem insert_packed {σ : Type} {H : IHash σ} {kv kv' : KV σ} {key : Key} {value : Value}
    {evicted : Bool} (step : kv.insert H key value = some (kv', evicted)) :
    kv'.bf.map (fun bf => (bf.numBits, bf.words)) = kv.bf.map fun bf => (bf.numBits, bf.words) := by
  have same : ∀ (bf : CountingBloomFilter) d, (updateFilter bf key d).words = bf.words := by
    intro bf d
    unfold updateFilter CountingBloomFilter.delete
    split
    · split <;> rfl
    · rfl
  unfold insert at step
  split at step
  · cases step
  · cases step
    rw [Option.map_map]
    refine congrFun (congrArg Option.map (funext fun bf => ?_)) kv.bf
    exact Prod.ext (updateFilter_shape bf key _).2 (same bf _)

theorem FilterCoupled.insert {capacity numBits : Nat} {numHashes : Fin 256}
    {kv : KV LinearProbingHash} {bf : CountingBloomFilter}
    (inv : FilterCoupled capacity numHashes numBits kv bf) (hdvd : locksize ∣ capacity)
    (hpos : 0 < capacity) {key : Key} (value : Value) (live : key ≠ invalidKey)
    (room : (bf.insert key).Unsaturated) :
    ∃ kv' b bf', kv.insert (LinearProbingHash.hash h) key value = some (kv', b) ∧
      FilterCoupled capacity numHashes numBits kv' bf' := by
  obtain ⟨⟨t', d⟩, step⟩ := LinearProbingHash.insert_isSome h (t := kv.hash)
    (by rw [inv.capacity_eq]; exact hpos) key value
  obtain ⟨cap, moved⟩ :=
    LinearProbingHash.keys_insert h (by rw [inv.capacity_eq]; exact hdvd) live step
  refine ⟨⟨t', some (updateFilter bf key d)⟩, if d = -1 then false else true, updateFilter bf key d,
    ?_, ?_⟩
  · simp only [KV.insert, LinearProbingHash.hash, step, inv.filter, Option.map_some]
  · have shape := updateFilter_shape bf key d
    exact ⟨rfl, cap.trans inv.capacity_eq, shape.1.trans inv.numHashes_eq,
      shape.2.trans inv.numBits_eq,
      updateFilter_coupled inv.coupled room (moved.imp id fun m => ⟨m.1, m.2.2⟩)⟩

theorem FilterCoupled.insertAll {capacity numBits : Nat} {numHashes : Fin 256}
    (hdvd : locksize ∣ capacity) (hpos : 0 < capacity) (ops : List (Key × Value))
    (live : ∀ op ∈ ops, op.1 ≠ invalidKey) {kv : KV LinearProbingHash} {bf : CountingBloomFilter}
    (inv : FilterCoupled capacity numHashes numBits kv bf)
    (room : NeverSaturates (LinearProbingHash.hash h) kv ops) :
    ∃ kv' bf', kv.insertAll (LinearProbingHash.hash h) ops = some kv' ∧
      FilterCoupled capacity numHashes numBits kv' bf' := by
  induction ops generalizing kv bf with
  | nil => exact ⟨kv, bf, rfl, inv⟩
  | cons op ops ih =>
    obtain ⟨kv', b, bf', step, inv'⟩ := inv.insert h hdvd hpos op.2
      (live op (by simp)) (room.1 bf inv.filter)
    obtain ⟨kv'', bf'', run, inv''⟩ :=
      ih (fun op' later => live op' (List.mem_cons_of_mem op later))
      inv' (room.2 kv' b step)
    exact ⟨kv'', bf'', by rw [KV.insertAll, step]; exact run, inv''⟩

/-- A store that `KV` builds over linear probing: empty table, empty filter. -/
def newLinear (capacity : Nat) (numHashes : Fin 256) (numBits : Nat) : KV LinearProbingHash :=
  ⟨LinearProbingHash.new capacity, some (CountingBloomFilter.new numHashes numBits)⟩

theorem newLinear_coupled (capacity : Nat) (numHashes : Fin 256) (numBits : Nat) :
    FilterCoupled capacity numHashes numBits (newLinear capacity numHashes numBits)
      (CountingBloomFilter.new numHashes numBits) :=
  ⟨rfl, rfl, rfl, rfl, by
    rw [newLinear, LinearProbingHash.keys_new]
    exact CountingBloomFilter.coupled_new numHashes numBits⟩

/-- A small table cannot fill the counters, however often it is inserted into. -/
theorem FilterCoupled.neverSaturates {capacity numBits : Nat} {numHashes : Fin 256}
    (hdvd : locksize ∣ capacity) (hpos : 0 < capacity) (small : numHashes * (capacity + 1) < 255)
    (ops : List (Key × Value)) (live : ∀ op ∈ ops, op.1 ≠ invalidKey) {kv : KV LinearProbingHash}
    {bf : CountingBloomFilter} (inv : FilterCoupled capacity numHashes numBits kv bf) :
    NeverSaturates (LinearProbingHash.hash h) kv ops := by
  induction ops generalizing kv bf with
  | nil => trivial
  | cons op ops ih =>
    have room : (bf.insert op.1).Unsaturated := by
      refine inv.coupled.unsaturated_insert (lt_of_le_of_lt ?_ small) op.1
      rw [inv.numHashes_eq, ← inv.capacity_eq]
      exact Nat.mul_le_mul_left _ (Nat.succ_le_succ (LinearProbingHash.card_keysIn_le _ _))
    obtain ⟨kv', b, bf', step, inv'⟩ :=
      inv.insert h hdvd hpos op.2 (live op List.mem_cons_self) room
    refine ⟨fun bf₁ eq => ?_, fun kv₁ b₁ step₁ => ?_⟩
    · cases inv.filter.symm.trans eq
      exact room
    · cases step.symm.trans step₁
      exact ih (fun op' later => live op' (List.mem_cons_of_mem op later)) inv'

/-- After every sequence of insertions each counter is the number of (live slot, salt)
pairs that lead to it, so every stored key answers the query; and the key handed back
by the table is the one occurrence that left it. Only a table without slots traps. -/
theorem linearProbing_filter_exact (capacity numBits : Nat) (numHashes : Fin 256)
    (hdvd : 16 ∣ capacity) (hbits : 1 ≤ numBits) (hint : numBits < 2 ^ 31)
    (ops : List (Key × Value)) (live : ∀ op ∈ ops, op.1 ≠ invalidKey)
    (room : NeverSaturates (LinearProbingHash.hash h) (newLinear capacity numHashes numBits) ops) :
    (capacity = 0 ∧ ops ≠ [] ∧
        (newLinear capacity numHashes numBits).insertAll (LinearProbingHash.hash h) ops = none) ∨
      ∃ kv bf, (newLinear capacity numHashes numBits).insertAll (LinearProbingHash.hash h) ops =
        some kv ∧
        kv.bf = some bf ∧
        (∀ i, bf.counters i = (kv.hash.pairsAt bf i).card) ∧
        (∀ s < capacity, (kv.hash.dict s).Live → bf.query (kv.hash.dict s).key = true) ∧
        (∀ key salt, bf.computeHash key salt < numBits) ∧
        ∀ key value t' d, key ≠ invalidKey → kv.hash.insert h key value = some (t', d) →
          d = -1 ∧ t'.keys = key ::ₘ kv.hash.keys ∨
            d ≠ -1 ∧ d ∈ kv.hash.keys ∧ d ::ₘ t'.keys = key ::ₘ kv.hash.keys := by
  have reached : (capacity = 0 ∧ ops ≠ [] ∧
      (newLinear capacity numHashes numBits).insertAll (LinearProbingHash.hash h) ops = none) ∨
      ∃ kv bf, (newLinear capacity numHashes numBits).insertAll (LinearProbingHash.hash h) ops =
        some kv ∧ FilterCoupled capacity numHashes numBits kv bf := by
    rcases Nat.eq_zero_or_pos capacity with hzero | hpos
    · cases ops with
      | nil => exact Or.inr ⟨_, _, rfl, newLinear_coupled capacity numHashes numBits⟩
      | cons op ops =>
        refine Or.inl ⟨hzero, by simp, ?_⟩
        simp only [insertAll, KV.insert, LinearProbingHash.hash, LinearProbingHash.insert,
          newLinear, LinearProbingHash.new, hzero, if_true]
    · exact Or.inr ((newLinear_coupled capacity numHashes numBits).insertAll h hdvd hpos ops
        live room)
  refine reached.imp id ?_
  rintro ⟨kv, bf, run, inv⟩
  refine ⟨kv, bf, run, inv.filter, ?_, ?_, ?_, ?_⟩
  · intro i
    rw [LinearProbingHash.card_pairsAt]
    exact inv.coupled i
  · intro s hs hlive
    exact inv.coupled.covers.query
      (LinearProbingHash.mem_keys.mpr ⟨hlive, s, by rw [inv.capacity_eq]; exact hs, rfl⟩)
  · intro key salt
    have := bf.computeHash_lt (by rw [inv.numBits_eq]; omega) (by rw [inv.numBits_eq]; exact hint)
      key salt
    rwa [inv.numBits_eq] at this
  · intro key value t' d hkey step
    obtain ⟨_, moved⟩ :=
      LinearProbingHash.keys_insert h (by rw [inv.capacity_eq]; exact hdvd) hkey step
    refine moved.imp id fun ⟨hd, hslot, hkeys⟩ => ⟨hd, ?_, hkeys⟩
    have hcap : 0 < kv.hash.capacity := by
      refine Nat.pos_of_ne_zero fun hz => ?_
      simp only [LinearProbingHash.insert, if_pos hz, reduceCtorEq] at step
    have inside := LinearProbingHash.firstIndex_cluster h hcap
      (by rw [inv.capacity_eq]; exact hdvd) key
    have inTable : kv.hash.firstIndex h key < kv.hash.capacity := by
      simp only [locksize] at inside
      omega
    exact LinearProbingHash.mem_keys.mpr ⟨hd, _, inTable, hslot.symm⟩

end

def seventeen : List (Key × Value) := (List.range 17).map fun i => (BitVec.ofNat 64 i, 9)

/-- Seventeen keys in sixteen slots: key 0 has left the table and the counters. -/
theorem linearProbing_filter_exact_seventeen : ∃ kv bf,
    (newLinear 16 2 64).insertAll (LinearProbingHash.hash id) seventeen = some kv ∧
      kv.bf = some bf ∧
      (kv.hash.dict 0).key = 1 ∧ ∀ i, bf.counters i = (kv.hash.pairsAt bf i).card := by
  have live : ∀ op ∈ seventeen, op.1 ≠ invalidKey := by
    intro op mem
    obtain ⟨i, lt, rfl⟩ := List.mem_map.mp mem
    intro eq
    have value := congrArg BitVec.toNat eq
    rw [BitVec.toNat_ofNat, Nat.mod_eq_of_lt ((List.mem_range.mp lt).trans (by decide))] at value
    have last : (invalidKey : Key).toNat = 2 ^ 64 - 1 := rfl
    have := List.mem_range.mp lt
    omega
  have room := (newLinear_coupled 16 2 64).neverSaturates id (by decide) (by decide) (by decide)
    seventeen live
  have first : ((newLinear 16 2 64).insertAll (LinearProbingHash.hash id) seventeen).map
      (fun kv => (kv.hash.dict 0).key) = some 1 := by
    decide +kernel
  rcases linearProbing_filter_exact id 16 64 2 (by decide) (by decide) (by decide) seventeen
    live room with ⟨hz, _⟩ | ⟨kv, bf, run, hbf, exact_, _⟩
  · cases hz
  · rw [run, Option.map_some, Option.some_inj] at first
    exact ⟨kv, bf, run, hbf, first, exact_⟩

end KV

end Xcache
