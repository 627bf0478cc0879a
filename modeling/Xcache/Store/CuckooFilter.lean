import Xcache.Store.CuckooProbing
import Xcache.Store.KV

/-! The counting filter in front of the cuckoo probing table. A slot that is overwritten by its
own key is counted again, and nothing takes that back. -/

namespace Xcache
open Function
open LinearProbingHash (locksize cells liveKeys keysIn cells_update cells_shiftLeft liveKeys_cells
  liveKeys_cons_live liveKeys_cons_free)

namespace CuckooProbingHash

/-- All live keys of the table, with multiplicity. -/
def keys (t : CuckooProbingHash) : Multiset Key := liveKeys (cells t.dict t.capacity)

/-- The pairs of a slot with a live key and a salt that lead to counter `i`. -/
def pairsAt (t : CuckooProbingHash) (bf : CountingBloomFilter) (i : Nat) : Finset (Nat × Nat) :=
  (Finset.range t.capacity ×ˢ Finset.range bf.numHashes).filter fun p =>
    (t.dict p.1).Live ∧ bf.computeHash (t.dict p.1).key p.2 = i

theorem card_pairsAt (t : CuckooProbingHash) (bf : CountingBloomFilter) (i : Nat) :
    (t.pairsAt bf i).card = bf.load t.keys i := by
  unfold keys
  rw [liveKeys_cells]
  exact LinearProbingHash.card_pairsAt ⟨t.capacity, t.dict, t.size⟩ bf i

/-- The first usable slot holds the key already. -/
def Overwrites (h : Key → BitVec 64) (t : CuckooProbingHash) (key : Key) : Prop :=
  ∃ j ∈ t.usableSlot (t.firstIndex (h key)) key, (t.dict (t.firstIndex (h key) + j)).key = key

instance (h : Key → BitVec 64) (t : CuckooProbingHash) (key : Key) :
    Decidable (t.Overwrites h key) :=
  inferInstanceAs (Decidable (∃ j ∈ t.usableSlot (t.firstIndex (h key)) key,
    (t.dict (t.firstIndex (h key) + j)).key = key))

/-- What the filter counts for an insertion and the table does not hold. -/
def waste (h : Key → BitVec 64) (t : CuckooProbingHash) (key : Key) : Multiset Key :=
  if key = invalidKey ∨ t.Overwrites h key then {key} else 0

/-- The shift of `shiftRight` with a store in front drops the pair at its end. -/
theorem cells_shiftRight (dict : Nat → Pair) {n first j : Nat} (lt : first + j < n) (p : Pair) :
    dict (first + j) ::ₘ cells (update (shiftRight first j dict) first p) n =
      p ::ₘ cells dict n := by
  induction j generalizing dict with
  | zero => exact cells_update dict lt p
  | succ j ih =>
    have stored := cells_update dict lt (dict (first + j))
    have shifted := ih (update dict (first + (j + 1)) (dict (first + j))) (by omega)
    rw [update_of_ne (by omega)] at shifted
    refine (Multiset.cons_inj_right (dict (first + j))).mp ?_
    calc dict (first + j) ::ₘ dict (first + (j + 1)) ::ₘ
      cells (update (shiftRight first (j + 1) dict) first p) n
        = dict (first + (j + 1)) ::ₘ dict (first + j) ::ₘ
            cells (update (shiftRight first (j + 1) dict) first p) n :=
          Multiset.cons_swap ..
      _ = dict (first + (j + 1)) ::ₘ p ::ₘ cells
        (update dict (first + (j + 1)) (dict (first + j))) n :=
          congrArg _ shifted
      _ = p ::ₘ dict (first + j) ::ₘ cells dict n := by rw [Multiset.cons_swap, stored]
      _ = dict (first + j) ::ₘ p ::ₘ cells dict n := Multiset.cons_swap ..

section
variable {h h₂ : Key → BitVec 64} {t t' : CuckooProbingHash} {key d : Key} {value : Value}

theorem liveKeys_new (value : Option Value) (M : Multiset Pair) :
    liveKeys (⟨key, value⟩ ::ₘ M) + (if key = invalidKey then {key} else 0) =
      key ::ₘ liveKeys M := by
  by_cases free : key = invalidKey
  · rw [if_pos free, liveKeys_cons_free (p := ⟨key, value⟩) free,
      Multiset.add_comm, Multiset.singleton_add]
  · rw [if_neg free, liveKeys_cons_live (p := ⟨key, value⟩) free, Multiset.add_zero]

theorem waste_of_full (full : t.usableSlot (t.firstIndex (h key)) key = none) :
    t.waste h key = if key = invalidKey then {key} else 0 := by
  have none : ¬ t.Overwrites h key := by
    rintro ⟨j, mem, _⟩
    rw [full] at mem
    cases mem
  exact if_congr (or_iff_left none) rfl rfl

/-- The head of a full cluster leaves and the new pair comes in. -/
theorem liveKeys_pushed (value : Value) (dvd : locksize ∣ t.capacity) (pos : 0 < t.capacity)
    (full : t.usableSlot (t.firstIndex (h key)) key = none) :
    (t.dict (t.firstIndex (h key))).key ::ₘ
        (liveKeys (cells (t.pushed (t.firstIndex (h key)) ⟨key, some value⟩) t.capacity) + t.waste
          h key) = key ::ₘ t.keys := by
  have live : (t.dict (t.firstIndex (h key))).Live := (usableSlot_none full (j := 0) (by decide)).1
  have moved := congrArg liveKeys
    (cells_shiftLeft t.dict (m := locksize - 1) (firstIndex_cluster pos dvd (h key))
      ⟨key, some value⟩)
  rw [liveKeys_cons_live live] at moved
  rw [waste_of_full full, ← Multiset.cons_add]
  have push : t.pushed (t.firstIndex (h key)) ⟨key, some value⟩ =
      update (LinearProbingHash.shiftLeft (t.firstIndex (h key)) (locksize - 1) t.dict)
        (t.firstIndex (h key) + (locksize - 1)) ⟨key, some value⟩ := rfl
  rw [push, moved]
  exact liveKeys_new (some value) _

/-- A pair goes to the head of a cluster: into a free slot of it, or for the pair that was there. -/
theorem liveKeys_place (next : Nat) (dict : Nat → Pair) {p : Pair}
    (inside : next + locksize ≤ t.capacity) (live : p.Live) :
    (t.place next dict p).2 = -1 ∧
        liveKeys (cells (t.place next dict p).1.dict t.capacity) =
          p.key ::ₘ liveKeys (cells dict t.capacity) ∨
      (t.place next dict p).2 ≠ -1 ∧ (t.place next dict p).2 ::ₘ
        liveKeys (cells (t.place next dict p).1.dict t.capacity) =
        p.key ::ₘ liveKeys (cells dict t.capacity) := by
  unfold place
  cases found : freeSlot dict next with
  | some j =>
    left
    have test := List.find?_some found
    have small := List.mem_range.mp (List.mem_of_find?_eq_some found)
    have free : (dict (next + j)).key = invalidKey := of_decide_eq_true test
    have moved := congrArg liveKeys (cells_shiftRight dict (show next + j < t.capacity by omega) p)
    rw [liveKeys_cons_free free, liveKeys_cons_live live] at moved
    exact ⟨rfl, moved⟩
  | none =>
    right
    have head : (dict next).Live := fun free =>
      List.find?_eq_none.mp found 0 (by decide) (decide_eq_true free)
    have moved :=
      congrArg liveKeys (cells_update dict (show next <
        t.capacity by unfold locksize at inside; omega) p)
    rw [liveKeys_cons_live head, liveKeys_cons_live live] at moved
    exact ⟨head, moved⟩

/-- The balance of an insertion: the new key against the deleted one, the keys of the table and
the waste. -/
theorem keys_insert (dvd : locksize ∣ t.capacity) (step : t.insert h h₂ key value = some (t', d)) :
    d = -1 ∧ t'.keys + t.waste h key = key ::ₘ t.keys ∨ d ≠ -1 ∧
      d ::ₘ (t'.keys + t.waste h key) = key ::ₘ t.keys := by
  have whole := step
  unfold insert at step
  split at step
  · cases step
  · rename_i slots
    have pos : 0 < t.capacity := Nat.pos_of_ne_zero slots
    have inside := firstIndex_cluster pos dvd (h key)
    dsimp only at step
    split at step
    · rename_i j found
      cases step
      obtain ⟨small, usable⟩ := usableSlot_some found
      have moved :=
        congrArg liveKeys (cells_update t.dict (s := t.firstIndex (h key) + j) (n := t.capacity)
        (by unfold locksize at *; omega) ⟨key, some value⟩)
      refine Or.inl ⟨rfl, ?_⟩
      unfold waste keys
      by_cases same : (t.dict (t.firstIndex (h key) + j)).key = key
      · -- the slot had this key, live or not
        have stays : liveKeys (cells (update t.dict (t.firstIndex (h key) + j)
          ⟨key, some value⟩) t.capacity) = liveKeys (cells t.dict t.capacity) := by
          by_cases free : key = invalidKey
          · rwa [liveKeys_cons_free (same.trans free),
              liveKeys_cons_free (p := ⟨key, some value⟩) free] at moved
          · rw [liveKeys_cons_live (by rwa [← same] at free),
              liveKeys_cons_live (p := ⟨key, some value⟩) free, same] at moved
            exact (Multiset.cons_inj_right key).mp moved
        rw [if_pos (Or.inr ⟨j, found, same⟩), stays, Multiset.add_comm, Multiset.singleton_add]
      · have free := usable.resolve_right same
        have live : key ≠ invalidKey := fun eq => same (free.trans eq.symm)
        have fresh : ¬ t.Overwrites h key := by
          rintro ⟨j', found', eq⟩
          cases found.symm.trans found'
          exact same eq
        rw [liveKeys_cons_free free, liveKeys_cons_live (p := ⟨key, some value⟩) live] at moved
        rw [if_neg (not_or_intro live fresh), Multiset.add_zero]
        exact moved
    · rename_i full
      have pushed := liveKeys_pushed value dvd pos full
      have head := (usableSlot_none full (j := 0) (by decide)).1
      split at step
      · cases step
      · rename_i v read
        split at step
        · cases step
          exact Or.inr ⟨head, pushed⟩
        · -- the head of the cluster goes to another one
          have eq := Option.some.inj step
          have placed := liveKeys_place (t := t) (t.firstIndex (h₂ key))
            (t.pushed (t.firstIndex (h key)) ⟨key, some value⟩)
            (p := ⟨(t.dict (t.firstIndex (h key))).key, some (v ||| cuckooBit)⟩)
              (firstIndex_cluster pos dvd (h₂ key)) head
          rw [eq] at placed
          unfold keys at pushed ⊢
          rw [(insert_origin dvd pos whole).1]
          refine placed.imp (fun ⟨kept, moved⟩ => ⟨kept, ?_⟩) fun ⟨left, moved⟩ => ⟨left, ?_⟩
          · rw [moved, Multiset.cons_add]
            exact pushed
          · rw [← Multiset.cons_add, moved, Multiset.cons_add]
            exact pushed

end

end CuckooProbingHash

namespace KV
open CuckooProbingHash (Written)

section
variable (h h₂ : Key → BitVec 64)

/-- A store that `KV` builds over cuckoo probing: empty table, empty filter. -/
def newCuckoo (capacity : Nat) (numHashes : Fin 256) (numBits : Nat) : KV CuckooProbingHash :=
  ⟨CuckooProbingHash.new capacity, some (CountingBloomFilter.new numHashes numBits)⟩

/-- No call finds its own key where it stores, and none brings the key of a free slot. -/
def NeverOverwrites : KV CuckooProbingHash → List (Key × Value) → Prop
  | _, [] => True
  | kv, (key, value) :: rest =>
    (key ≠ invalidKey ∧ ¬ kv.hash.Overwrites h key) ∧
      ∀ kv' b, kv.insert (CuckooProbingHash.hash h h₂) key value = some (kv', b) →
        NeverOverwrites kv' rest

def decideNeverOverwrites : ∀ kv ops, Decidable (NeverOverwrites h h₂ kv ops)
  | _, [] => isTrue trivial
  | kv, (key, value) :: rest =>
    match eq : kv.insert (CuckooProbingHash.hash h h₂) key value with
    | none => decidable_of_iff (key ≠ invalidKey ∧ ¬ kv.hash.Overwrites h key)
        ⟨fun now => ⟨now, fun _ _ step => by cases eq.symm.trans step⟩, And.left⟩
    | some (kv', _) =>
      have := decideNeverOverwrites kv' rest
      decidable_of_iff ((key ≠ invalidKey ∧ ¬ kv.hash.Overwrites h key) ∧
        NeverOverwrites h h₂ kv' rest)
        ⟨fun both => ⟨both.1, fun _ _ step => by cases eq.symm.trans step; exact both.2⟩,
          fun all => ⟨all.1, all.2 _ _ eq⟩⟩

instance (kv : KV CuckooProbingHash) (ops : List (Key × Value)) :
    Decidable (NeverOverwrites h h₂ kv ops) :=
  decideNeverOverwrites h h₂ kv ops

/-- The filter counts the keys of the table and those of `extra`. -/
structure CuckooCoupled (capacity : Nat) (numHashes : Fin 256) (numBits : Nat)
    (extra : Multiset Key) (kv : KV CuckooProbingHash) (bf : CountingBloomFilter) : Prop where
  filter : kv.bf = some bf
  capacity_eq : kv.hash.capacity = capacity
  numHashes_eq : bf.numHashes = numHashes
  numBits_eq : bf.numBits = numBits
  written : kv.hash.Written
  coupled : bf.Coupled (kv.hash.keys + extra)

variable {capacity numBits : Nat} {numHashes : Fin 256} {extra : Multiset Key}
  {kv : KV CuckooProbingHash}
  {bf : CountingBloomFilter}

theorem CuckooCoupled.insert (inv : CuckooCoupled capacity numHashes numBits extra kv bf)
    (dvd : locksize ∣ capacity) (pos : 0 < capacity) {key : Key} (value : Value)
    (room : (bf.insert key).Unsaturated) :
    ∃ kv' b bf', kv.insert (CuckooProbingHash.hash h h₂) key value = some (kv', b) ∧
      CuckooCoupled capacity numHashes numBits (kv.hash.waste h key + extra) kv' bf' := by
  obtain ⟨filter, rfl, hashes, bits, written, coupled⟩ := inv
  obtain ⟨⟨t', d⟩, step⟩ := CuckooProbingHash.insert_isSome h h₂ dvd pos written key value
  have shape := updateFilter_shape bf key d
  refine ⟨⟨t', some (updateFilter bf key d)⟩, if d = -1 then false else true, updateFilter bf key d,
    ?_, rfl,
    (CuckooProbingHash.insert_origin dvd pos step).1, shape.1.trans hashes, shape.2.trans bits,
    CuckooProbingHash.written_insert dvd pos written step, ?_⟩
  · unfold KV.insert CuckooProbingHash.hash
    dsimp only
    rw [step, filter]
    rfl
  · refine updateFilter_coupled coupled room ?_
    dsimp only
    rw [← Multiset.add_assoc]
    refine (CuckooProbingHash.keys_insert dvd step).imp (fun ⟨kept, moved⟩ => ⟨kept, ?_⟩)
      fun ⟨left, moved⟩ => ⟨left, ?_⟩
    · rw [moved, Multiset.cons_add]
    · rw [← Multiset.cons_add, moved, Multiset.cons_add]

/-- After a run the extra keys are those of the calls that waste. -/
theorem CuckooCoupled.insertAll (dvd : locksize ∣ capacity) (pos : 0 < capacity)
    (ops : List (Key × Value)) (inv : CuckooCoupled capacity numHashes numBits extra kv bf)
    (room : NeverSaturates (CuckooProbingHash.hash h h₂) kv ops) :
    ∃ kv' bf' more, kv.insertAll (CuckooProbingHash.hash h h₂) ops = some kv' ∧
      CuckooCoupled capacity numHashes numBits (more + extra) kv' bf' ∧
        (more = 0 ↔ NeverOverwrites h h₂ kv ops) := by
  induction ops generalizing kv bf extra with
  | nil => exact ⟨kv, bf, 0, rfl, by rwa [Multiset.zero_add], iff_of_true rfl trivial⟩
  | cons op ops ih =>
    obtain ⟨kv', b, bf', step, inv'⟩ := inv.insert h h₂ dvd pos op.2 (room.1 bf inv.filter)
    obtain ⟨kv'', bf'', more, run, inv'', none⟩ := ih inv' (room.2 kv' b step)
    refine ⟨kv'', bf'', more + kv.hash.waste h op.1, by rw [KV.insertAll, step]; exact run,
      by rwa [Multiset.add_assoc], ?_⟩
    rw [add_eq_zero, none]
    have clean : kv.hash.waste h op.1 = 0 ↔ op.1 ≠ invalidKey ∧ ¬ kv.hash.Overwrites h op.1 := by
      unfold CuckooProbingHash.waste
      rw [← not_or]
      exact ⟨fun zero wasted => Multiset.singleton_ne_zero op.1 (by rwa [if_pos wasted] at zero),
        fun clean => if_neg clean⟩
    rw [clean]
    constructor
    · rintro ⟨later, now⟩
      refine ⟨now, fun kv₁ b₁ step₁ => ?_⟩
      cases step.symm.trans step₁
      exact later
    · rintro ⟨now, later⟩
      exact ⟨later kv' b step, now⟩

/-- Few calls on a small table cannot fill the counters. -/
theorem CuckooCoupled.neverSaturates (dvd : locksize ∣ capacity) (pos : 0 < capacity)
    (ops : List (Key × Value)) (small : numHashes * (capacity + extra.card + ops.length) < 255)
    (inv : CuckooCoupled capacity numHashes numBits extra kv bf) :
    NeverSaturates (CuckooProbingHash.hash h h₂) kv ops := by
  induction ops generalizing kv bf extra with
  | nil => trivial
  | cons op ops ih =>
    rw [List.length_cons] at small
    have keys : kv.hash.keys.card ≤ capacity := by
      rw [← inv.capacity_eq, CuckooProbingHash.keys, liveKeys_cells]
      exact LinearProbingHash.card_keysIn_le _ _
    have room : (bf.insert op.1).Unsaturated := by
      refine inv.coupled.unsaturated_insert (lt_of_le_of_lt ?_ small) op.1
      rw [inv.numHashes_eq, Multiset.card_add]
      exact Nat.mul_le_mul_left _ (by omega)
    obtain ⟨kv', b, bf', step, inv'⟩ := inv.insert h h₂ dvd pos op.2 room
    refine ⟨fun bf₁ eq => ?_, fun kv₁ b₁ step₁ => ?_⟩
    · cases inv.filter.symm.trans eq
      exact room
    · cases step.symm.trans step₁
      refine ih (lt_of_le_of_lt (Nat.mul_le_mul_left _ ?_) small) inv'
      have one : (kv.hash.waste h op.1).card ≤ 1 := by
        unfold CuckooProbingHash.waste
        split <;> simp
      rw [Multiset.card_add]
      omega

theorem newCuckoo_coupled (capacity : Nat) (numHashes : Fin 256) (numBits : Nat) :
    CuckooCoupled capacity numHashes numBits 0 (newCuckoo capacity numHashes numBits)
      (CountingBloomFilter.new numHashes numBits) := by
  refine ⟨rfl, rfl, rfl, rfl, CuckooProbingHash.written_new capacity, ?_⟩
  have empty : (CuckooProbingHash.new capacity).keys = 0 := by
    unfold CuckooProbingHash.keys
    rw [liveKeys_cells]
    exact LinearProbingHash.keys_new capacity
  unfold newCuckoo
  rw [empty]
  exact CountingBloomFilter.coupled_new numHashes numBits

/-- Extra keys show in the counters, unless nothing is hashed. -/
theorem CuckooCoupled.exact_iff (inv : CuckooCoupled capacity numHashes numBits extra kv bf) :
    (∀ i, bf.counters i = (kv.hash.pairsAt bf i).card) ↔ numHashes = 0 ∨ extra = 0 := by
  have sum : ∀ i, bf.counters i = (kv.hash.pairsAt bf i).card + bf.load extra i := by
    intro i
    rw [inv.coupled i, CuckooProbingHash.card_pairsAt]
    unfold CountingBloomFilter.load
    rw [Multiset.map_add, Multiset.sum_add]
  have clear : (∀ i, bf.counters i = (kv.hash.pairsAt bf i).card) ↔ ∀ i, bf.load extra i = 0 := by
    refine forall_congr' fun i => ?_
    have := sum i
    omega
  rw [clear]
  constructor
  · intro zero
    by_contra some
    obtain ⟨hashes, keys⟩ := not_or.mp some
    obtain ⟨key, mem⟩ := Multiset.exists_mem_of_ne_zero keys
    obtain ⟨rest, rfl⟩ := Multiset.exists_cons_of_mem mem
    have first : bf.computeHash key 0 ∈ bf.indices key := by
      refine List.mem_map_of_mem (List.mem_range.mpr ?_)
      rw [inv.numHashes_eq]
      exact Nat.pos_of_ne_zero fun eq => hashes (Fin.ext eq)
    have count := List.count_pos_iff.mpr first
    have := zero (bf.computeHash key 0)
    rw [CountingBloomFilter.load_cons] at this
    omega
  · rintro (none | rfl) i
    · unfold CountingBloomFilter.load
      refine Multiset.sum_eq_zero fun n mem => ?_
      obtain ⟨key, _, rfl⟩ := Multiset.mem_map.mp mem
      unfold CountingBloomFilter.indices
      rw [inv.numHashes_eq, none]
      rfl
    · rfl

/-- After every sequence of insertions each counter is the number of (live slot, salt) pairs that
lead to it, exactly when no call of the sequence overwrites its own key or brings the key of a
free slot. Only a table without slots traps. -/
theorem cuckooProbing_filter_exact_iff (h h₂ : Key → BitVec 64) (capacity numBits : Nat)
    (numHashes : Fin 256) (dvd : 16 ∣ capacity) (ops : List (Key × Value))
    (room : NeverSaturates (CuckooProbingHash.hash h h₂) (newCuckoo capacity numHashes numBits)
      ops) :
    (capacity = 0 ∧ ops ≠ [] ∧
        (newCuckoo capacity numHashes numBits).insertAll (CuckooProbingHash.hash h h₂) ops = none) ∨
      ∃ kv bf, (newCuckoo capacity numHashes numBits).insertAll (CuckooProbingHash.hash h h₂) ops =
        some kv ∧
        kv.bf = some bf ∧
        ((∀ i, bf.counters i = (kv.hash.pairsAt bf i).card) ↔
          numHashes = 0 ∨ NeverOverwrites h h₂ (newCuckoo capacity numHashes numBits) ops) := by
  rcases Nat.eq_zero_or_pos capacity with rfl | pos
  · cases ops with
    | nil =>
      have inv := newCuckoo_coupled 0 numHashes numBits
      exact Or.inr ⟨_, _, rfl, rfl, inv.exact_iff.trans (or_congr_right (iff_of_true rfl trivial))⟩
    | cons op ops => exact Or.inl ⟨rfl, by simp, rfl⟩
  · obtain ⟨kv, bf, extra, run, inv, none⟩ :=
      (newCuckoo_coupled capacity numHashes numBits).insertAll h h₂ dvd pos ops room
    rw [Multiset.add_zero] at inv
    exact Or.inr ⟨kv, bf, run, inv.filter, inv.exact_iff.trans (or_congr_right none)⟩

/-- Sixteen keys for a cluster of fifteen: one of them is moved to the other cluster, and all are
counted. -/
theorem cuckooProbing_filter_exact_iff_displaced : ∃ kv bf,
    (newCuckoo 32 2 64).insertAll (CuckooProbingHash.hash CuckooProbingHash.firstHash
      CuckooProbingHash.nextHash)
      CuckooProbingHash.misplacing = some kv ∧ kv.bf = some bf ∧ (kv.hash.dict 16).key = 2 ∧
      ∀ i, bf.counters i = (kv.hash.pairsAt bf i).card := by
  have moved : ((newCuckoo 32 2 64).insertAll
      (CuckooProbingHash.hash CuckooProbingHash.firstHash CuckooProbingHash.nextHash)
      CuckooProbingHash.misplacing).map (fun kv => (kv.hash.dict 16).key) = some 2 := by
    decide +kernel
  have never : NeverOverwrites CuckooProbingHash.firstHash CuckooProbingHash.nextHash
    (newCuckoo 32 2 64) CuckooProbingHash.misplacing := by
    decide +kernel
  rcases cuckooProbing_filter_exact_iff CuckooProbingHash.firstHash CuckooProbingHash.nextHash 32 64
    2 (by decide)
    CuckooProbingHash.misplacing ((newCuckoo_coupled 32 2 64).neverSaturates _ _ (by decide)
      (by decide) _ (by decide))
    with ⟨zero, _⟩ | ⟨kv, bf, run, filter, exact_⟩
  · cases zero
  · rw [run, Option.map_some, Option.some_inj] at moved
    exact ⟨kv, bf, run, filter, moved, exact_.mpr (Or.inr never)⟩

/-- The second insertion of key 5 overwrites the first one, but its counters go up to 2. -/
theorem overwritten_key_counted_twice :
    NeverSaturates (CuckooProbingHash.hash id id) (newCuckoo 16 2 64) [(5, 9), (5, 9)] ∧
    ∃ kv bf, (newCuckoo 16 2 64).insertAll (CuckooProbingHash.hash id id) [(5, 9), (5, 9)] =
      some kv ∧ kv.bf = some bf ∧
      ¬ ∀ i, bf.counters i = (kv.hash.pairsAt bf i).card := by
  let t : CuckooProbingHash := { CuckooProbingHash.new 16 with
    dict := update (CuckooProbingHash.new 16).dict 0 ⟨5, some 9⟩, size := 1 }
  have step : (newCuckoo 16 2 64).insert (CuckooProbingHash.hash id id) 5 9 =
      some (⟨t, some ((CountingBloomFilter.new 2 64).insert 5)⟩, false) := rfl
  have room := (newCuckoo_coupled 16 2 64).neverSaturates id id (by decide) (by decide)
    [(5, 9), (5, 9)] (by decide)
  obtain ⟨kv, bf, extra, run, inv, none⟩ := (newCuckoo_coupled 16 2 64).insertAll id id
    (by decide) (by decide) [(5, 9), (5, 9)] room
  refine ⟨room, kv, bf, run, inv.filter, fun exact_ => ?_⟩
  rw [inv.exact_iff, Multiset.add_zero, none] at exact_
  rcases exact_ with hashes | ⟨_, later⟩
  · exact absurd hashes (by decide)
  · exact (later _ _ step).1.2 (by decide)

end

end KV

end Xcache
