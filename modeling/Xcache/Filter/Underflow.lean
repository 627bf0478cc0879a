import Xcache.Filter.History

/-! `Delete` asks `Query` first, which looks at each counter of the key once; the loop behind it
counts down once for each hash. -/

namespace Xcache.CountingBloomFilter

/-- The loop of `Delete` finds no counter at 0. -/
def NeverBelow : List Nat → (Nat → Nat) → Prop
  | [], _ => True
  | idx :: rest, c => 0 < c idx ∧ NeverBelow rest (unbump c idx)

theorem unbump_apply {c : Nat → Nat} {idx : Nat} (byte : ∀ i, c i ≤ 255) (pos : 0 < c idx)
    (i : Nat) :
    unbump c idx i = c i - if i = idx then 1 else 0 := by
  unfold unbump
  by_cases here : i = idx
  · subst here
    have := byte i
    rw [Function.update_self, if_pos rfl]
    omega
  · rw [Function.update_of_ne here, if_neg here, Nat.sub_zero]

/-- The loop stays above 0 exactly when no counter is visited more often than it has counted. -/
theorem neverBelow_iff (l : List Nat) {c : Nat → Nat} (byte : ∀ i, c i ≤ 255) :
    NeverBelow l c ↔ ∀ i, l.count i ≤ c i := by
  induction l generalizing c with
  | nil => simp [NeverBelow]
  | cons idx rest ih =>
    have count : ∀ i, (idx :: rest).count i = rest.count i + if i = idx then 1 else 0 := by
      intro i
      rw [List.count_cons]
      by_cases here : i = idx
      · simp [here]
      · simp [here, Ne.symm here]
    have step : 0 < c idx → (NeverBelow rest (unbump c idx) ↔
        ∀ i, rest.count i ≤ c i - if i = idx then 1 else 0) := by
      intro pos
      have one := unbump_apply byte pos
      rw [ih fun i => (one i).trans_le ((Nat.sub_le _ _).trans (byte i))]
      exact forall_congr' fun i => by rw [one i]
    rw [NeverBelow]
    constructor
    · rintro ⟨pos, later⟩ i
      have := (step pos).mp later i
      rw [count]
      by_cases here : i = idx
      · subst here
        rw [if_pos rfl] at this ⊢
        omega
      · rw [if_neg here] at this ⊢
        exact this
    · intro enough
      have pos : 0 < c idx := by
        have := enough idx
        rw [count, if_pos rfl] at this
        omega
      refine ⟨pos, (step pos).mpr fun i => ?_⟩
      have := enough i
      rw [count] at this
      omega

/-- A delete of the key counts nothing below 0 and no counter up. -/
def DeletesDown (bf : CountingBloomFilter) (key : Key) : Prop :=
  (bf.query key = true → NeverBelow (bf.indices key) bf.counters) ∧
    ∀ i, (bf.delete key).1.counters i ≤ bf.counters i

/-- The key is not found, or every counter has counted as many as the key's hashes that meet
there. -/
def Enough (bf : CountingBloomFilter) (key : Key) : Prop :=
  bf.query key = true → ∀ i, (bf.indices key).count i ≤ bf.counters i

theorem counters_delete_eq (bf : CountingBloomFilter) (key : Key) :
    (bf.delete key).1.counters = if bf.query key then (bf.indices key).foldl unbump bf.counters
      else bf.counters := by
  unfold delete
  split
  · exact deleteLoop_counters _ _
  · rfl

theorem deletesDown_iff_enough {bf : CountingBloomFilter} (byte : ∀ i, bf.counters i ≤ 255)
    (key : Key) :
    bf.DeletesDown key ↔ bf.Enough key := by
  constructor
  · exact fun down found => (neverBelow_iff _ byte).mp (down.1 found)
  · refine fun enough => ⟨fun found => (neverBelow_iff _ byte).mpr (enough found), fun i => ?_⟩
    rw [counters_delete_eq]
    split_ifs with found
    · rw [foldl_unbump_eq _ _ (fun j => Nat.lt_succ_of_le (byte j)) (enough found)]
      exact Nat.sub_le _ _
    · exact le_rfl

theorem foldl_unbump_le (l : List Nat) {c : Nat → Nat} (byte : ∀ i, c i ≤ 255) (i : Nat) :
    l.foldl unbump c i ≤ 255 := by
  induction l generalizing c with
  | nil => exact byte i
  | cons idx rest ih =>
    refine ih fun j => ?_
    unfold unbump
    by_cases here : j = idx
    · subst here
      rw [Function.update_self]
      omega
    · rw [Function.update_of_ne here]
      exact byte j

theorem Op.run_byte {bf : CountingBloomFilter} (byte : ∀ i, bf.counters i ≤ 255) (op : Op)
    (i : Nat) :
    (op.run bf).counters i ≤ 255 := by
  cases op with
  | insert key => exact (counters_insert_min byte key i).trans_le (min_le_left _ _)
  | delete key =>
    change (CountingBloomFilter.delete bf key).1.counters i ≤ 255
    rw [counters_delete_eq]
    split
    · exact foldl_unbump_le _ byte i
    · exact byte i

theorem runAll_byte {bf : CountingBloomFilter} (byte : ∀ i, bf.counters i ≤ 255) (ops : List Op)
    (i : Nat) :
    (bf.runAll ops).counters i ≤ 255 := by
  induction ops generalizing bf with
  | nil => exact byte i
  | cons op rest ih => exact ih (op.run_byte byte)

/-- Every delete of a history, in the state it finds. -/
def AtDeletes (P : CountingBloomFilter → Key → Prop) (bf : CountingBloomFilter)
    (ops : List Op) : Prop :=
  ∀ pre key, pre ++ [.delete key] <+: ops → P (bf.runAll pre) key

/-- The counters never wrap in a history exactly when each of its deletes finds the key missing, or
each counter as large as the number of the key's hashes that meet there. -/
theorem never_wraps_iff_enough (numHashes : Fin 256) (numBits : Nat) (ops : List Op) :
    AtDeletes DeletesDown (new numHashes numBits) ops ↔
      AtDeletes Enough (new numHashes numBits) ops := by
  refine forall₂_congr fun pre key => forall_congr' fun _ => ?_
  exact deletesDown_iff_enough (runAll_byte (fun _ => Nat.zero_le _) pre) key

/-- Key 0 goes to the counters 0 and 1. Key 3, which was never inserted, has both hashes at
counter 0, which is counted from 1 down to 0 and then to 255. -/
theorem false_positive_delete_wraps : ¬ AtDeletes DeletesDown (new 2 2) [.insert 0, .delete 3] := by
  intro down
  have grew := (down [.insert 0] 3 List.prefix_rfl).2 0
  revert grew
  decide +kernel

end Xcache.CountingBloomFilter
