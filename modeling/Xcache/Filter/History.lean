import Xcache.Filter.Counting

/-! Histories of inserts and deletes: what the counting filter says about a key that has
been inserted more often than deleted. -/

namespace Xcache.CountingBloomFilter

inductive Op
  | insert (key : Key)
  | delete (key : Key)
deriving DecidableEq

def Op.run (bf : CountingBloomFilter) : Op → CountingBloomFilter
  | .insert key => bf.insert key
  | .delete key => (bf.delete key).1

def runAll (bf : CountingBloomFilter) (ops : List Op) : CountingBloomFilter := ops.foldl Op.run bf

/-- Every delete is of a key that has been inserted more often than deleted so far. -/
def Balanced (ops : List Op) : Prop :=
  ∀ pre key, pre ++ [.delete key] <+: ops → pre.count (.delete key) < pre.count (.insert key)

/-- No insert finds a counter at 255, so every increment is made. -/
def Counted (bf : CountingBloomFilter) (ops : List Op) : Prop :=
  ∀ pre key, pre ++ [.insert key] <+: ops →
    ∀ i, (bf.runAll pre).counters i + (bf.indices key).count i ≤ 255

theorem runAll_concat (bf : CountingBloomFilter) (ops : List Op) (op : Op) :
    bf.runAll (ops ++ [op]) = op.run (bf.runAll ops) := by
  simp [runAll]

@[simp] theorem indices_runAll (bf : CountingBloomFilter) (ops : List Op) (key : Key) :
    (bf.runAll ops).indices key = bf.indices key := by
  induction ops using List.reverseRecOn with
  | nil => rfl
  | append_singleton ops op ih =>
    rw [runAll_concat]
    cases op with
    | insert k => exact ih
    | delete k => exact (indices_delete _ k key).trans ih

/-- The keys of a history, each as often as it has been inserted and not deleted. -/
structure Holds (bf : CountingBloomFilter) (ops : List Op) (M : Multiset Key) : Prop where
  coupled : bf.Coupled M
  byte : ∀ i, bf.counters i ≤ 255
  net : ∀ key, M.count key + ops.count (.delete key) = ops.count (.insert key)

theorem Holds.insert {bf : CountingBloomFilter} {ops : List Op} {M : Multiset Key}
    (holds : bf.Holds ops M) {key : Key}
    (fits : ∀ i, bf.counters i + (bf.indices key).count i ≤ 255) :
    (bf.insert key).Holds (ops ++ [.insert key]) (key ::ₘ M) := by
  have counters : ∀ i, (bf.insert key).counters i = bf.counters i + (bf.indices key).count i := by
    intro i
    exact (counters_insert_min holds.byte key i).trans (min_eq_right (fits i))
  constructor
  · intro i
    rw [counters, load_insert, load_cons, holds.coupled i, Nat.add_comm]
  · exact fun i => (counters i).trans_le (fits i)
  · intro k
    have := holds.net k
    rw [Multiset.count_cons, List.count_append, List.count_append]
    by_cases same : k = key
    · subst same
      simp
      omega
    · have : Op.insert key ≠ .insert k := fun eq => same (Op.insert.inj eq).symm
      simp [same, this]
      omega

theorem Holds.delete {bf : CountingBloomFilter} {ops : List Op} {M : Multiset Key} {key : Key}
    (holds : bf.Holds ops (key ::ₘ M)) : (bf.delete key).1.Holds (ops ++ [.delete key]) M := by
  have counters := counters_delete (fun i => Nat.lt_succ_of_le (holds.byte i)) holds.coupled.covers
  constructor
  · intro i
    have := holds.coupled i
    rw [load_cons] at this
    rw [counters, load_delete]
    omega
  · intro i
    have := holds.byte i
    rw [counters]
    omega
  · intro k
    have := holds.net k
    rw [Multiset.count_cons] at this
    rw [List.count_append, List.count_append]
    by_cases same : k = key
    · subst same
      simp at this ⊢
      omega
    · have : Op.delete key ≠ .delete k := fun eq => same (Op.delete.inj eq).symm
      simp_all

theorem holds_runAll (numHashes : Fin 256) (numBits : Nat) {ops : List Op} (balanced : Balanced ops)
    (counted : Counted (new numHashes numBits) ops) :
    ∃ M, ((new numHashes numBits).runAll ops).Holds ops M := by
  induction ops using List.reverseRecOn with
  | nil => exact ⟨0, coupled_new numHashes numBits, fun _ => Nat.zero_le _, fun _ => rfl⟩
  | append_singleton ops op ih =>
    have more := List.prefix_append ops [op]
    obtain ⟨M, holds⟩ := ih (fun pre key le => balanced pre key (le.trans more))
      fun pre key le => counted pre key (le.trans more)
    rw [runAll_concat]
    cases op with
    | insert key =>
      refine ⟨key ::ₘ M, holds.insert fun i => ?_⟩
      rw [indices_runAll]
      exact counted ops key List.prefix_rfl i
    | delete key =>
      have present : key ∈ M := by
        have := balanced ops key List.prefix_rfl
        have := holds.net key
        exact Multiset.count_pos.mp (by omega)
      obtain ⟨N, rfl⟩ := Multiset.exists_cons_of_mem present
      exact ⟨N, holds.delete⟩

/-- As long as every increment of an insert is made, a key that has been inserted more
often than deleted is found, and no access leaves the array. -/
theorem query_of_inserted (numHashes : Fin 256) {numBits : Nat} (pos : 1 ≤ numBits)
    (small : numBits < 2 ^ 31) {ops : List Op} (balanced : Balanced ops)
    (counted : Counted (new numHashes numBits) ops) (key : Key) :
    (∀ i ∈ ((new numHashes numBits).runAll ops).indices key, i < numBits) ∧
    (ops.count (.delete key) < ops.count (.insert key) →
      ((new numHashes numBits).runAll ops).query key = true) := by
  obtain ⟨M, holds⟩ := holds_runAll numHashes numBits balanced counted
  constructor
  · intro i mem
    rw [indices_runAll] at mem
    exact (new numHashes numBits).indices_lt pos small mem
  · intro present
    have := holds.net key
    exact holds.coupled.covers.query (Multiset.count_pos.mp (by omega))

/-- Two keys in, the first one out again, four hashes. -/
theorem query_of_inserted_two :
    ((new 4 100).runAll [.insert 5, .insert 6, .delete 5]).query 6 = true := by
  have balanced : Balanced [.insert 5, .insert 6, .delete 5] := by
    rintro (_ | ⟨a, _ | ⟨b, _ | ⟨c, pre⟩⟩⟩) key le <;> simp [List.cons_prefix_cons] at le ⊢
    obtain ⟨rfl, rfl, rfl⟩ := le
    decide
  have length : ∀ key, ((new 4 100).indices key).length = 4 := by
    intro key
    simp only [indices, List.length_map, List.length_range]
    rfl
  have four : ∀ key i, ((new 4 100).indices key).count i ≤ 4 :=
    fun key i => length key ▸ List.count_le_length
  have counted : Counted (new 4 100) [.insert 5, .insert 6, .delete 5] := by
    rintro (_ | ⟨a, _ | ⟨b, _ | ⟨c, pre⟩⟩⟩) key le <;> simp [List.cons_prefix_cons] at le ⊢
    · intro i
      exact (Nat.add_le_add_left (four key i) 0).trans (by decide)
    · obtain ⟨rfl, rfl⟩ := le
      intro i
      have first : ((new 4 100).insert 5).counters i ≤ 0 + 4 := by
        rw [← length 5]
        exact foldl_bump_le ((new 4 100).indices 5) (fun _ => 0) i
      have second := four 6 i
      exact (Nat.add_le_add first second).trans (by decide)
  exact (query_of_inserted 4 (by decide) (by decide) balanced counted 6).2 (by decide)

/-- With one counter and 255 hashes, one insert fills the counter, the second is not
counted, and one delete empties it: a key inserted twice and deleted once is not found. -/
theorem saturated_insert_lost :
    ∃ ops : List Op, Balanced ops ∧ ops.count (.delete 0) < ops.count (.insert 0) ∧
    ((new 255 1).runAll ops).query 0 = false := by
  refine ⟨[.insert 0, .insert 0, .delete 0], ?_, by decide, ?_⟩
  · rintro (_ | ⟨a, _ | ⟨b, _ | ⟨c, pre⟩⟩⟩) key le <;> simp [List.cons_prefix_cons] at le ⊢
    obtain ⟨rfl, rfl, rfl⟩ := le
    decide
  · have touched : (new 255 1).indices 0 = List.replicate 255 0 := by
      apply List.eq_replicate_iff.mpr
      constructor
      · simp only [indices, List.length_map, List.length_range]
        rfl
      · exact fun i mem => Nat.lt_one_iff.mp ((new 255 1).indices_lt (by decide) (by decide) mem)
    have count : ((new 255 1).indices 0).count 0 = 255 := by
      rw [touched, List.count_replicate_self]
    generalize new_eq : new 255 1 = bf at touched count
    have zero : ∀ i, bf.counters i = 0 := by
      subst new_eq
      exact fun _ => rfl
    have first := @counters_insert_min bf (fun i => (zero i).trans_le (Nat.zero_le _)) 0
    have byte : ∀ i, (bf.insert 0).counters i ≤ 255 := fun i => (first i).trans_le (min_le_left _ _)
    have second := counters_insert_min byte 0
    have covers : ((bf.insert 0).insert 0).Covers (0 ::ₘ 0) := by
      intro i
      have most : (bf.indices 0).count i ≤ 255 := by
        rw [touched]
        exact List.count_le_length.trans List.length_replicate.le
      rw [second i, first i, load_cons, indices_insert, indices_insert, load]
      simp only [Multiset.map_zero, Multiset.sum_zero]
      omega
    have last := counters_delete (fun i => Nat.lt_succ_of_le
      ((second i).trans_le (min_le_left _ _))) covers 0
    simp only [second 0, first 0, indices_insert, count, zero 0] at last
    have run : bf.runAll [.insert 0, .insert 0, .delete 0] =
        (((bf.insert 0).insert 0).delete 0).1 := by
      rw [runAll, List.foldl_cons, List.foldl_cons, List.foldl_cons, List.foldl_nil, Op.run,
        Op.run, Op.run]
    have empty : (((bf.insert 0).insert 0).delete 0).1.counters 0 = 0 := last
    rw [run]
    apply Bool.eq_false_iff.mpr
    intro found
    refine (query_iff _ 0).mp found 0 ?_ empty
    rw [← run, indices_runAll, touched]
    exact List.mem_replicate.mpr ⟨by decide, rfl⟩

end Xcache.CountingBloomFilter
