import Xcache.Lib.Runs
import Xcache.Store.LinearProbing

/-! `InsertOnly` of `server/src/linear_probing.cpp`, and what a `Get` directly after an insertion
reads: the loops of the three functions disagree about the last slot of a cluster. -/

namespace Xcache.LinearProbingHash
open Function

/-- The loop of `getLocation`, with the slots it may still visit. The stored marker of the
compare-and-swap is overwritten by the caller. -/
def getLocation (capacity : Nat) (dict : Nat → Pair) : Nat → Nat → Option Nat
  | 0, _ => none
  | left + 1, cur =>
    if (dict cur).key = invalidKey then some cur else getLocation capacity dict left
      ((cur + 1) % capacity)

section
variable (h : Key → BitVec 64)

def slot (t : LinearProbingHash) (key : Key) : Nat := (h key).toNat % t.capacity

def insertOnly (t : LinearProbingHash) (key : Key) (value : Value) :
    Option (LinearProbingHash × Bool) :=
  if t.capacity = 0 then none
  else
    match getLocation t.capacity t.dict t.capacity (t.slot h key) with
    | none => some (t, false)
    | some loc =>
      some ({ t with dict := update t.dict loc ⟨key, some value⟩, size := t.size + 1 },
        true)

end

/-- The first slot from `lo` on that holds the key, counted from the start of the cluster. -/
structure FirstCopy (dict : Nat → Pair) (first : Nat) (key : Key) (lo i : Nat) : Prop where
  from_ : lo ≤ i
  here : (dict (first + i)).key = key
  before : ∀ j, lo ≤ j → j < i → (dict (first + j)).key ≠ key

/-- The value at the first copy of the key among `n` slots. -/
def Reads (dict : Nat → Pair) (first : Nat) (key : Key) (n : Nat) (value : Value) : Prop :=
  ∃ i < n, FirstCopy dict first key 0 i ∧ (dict (first + i)).value = some value

section
variable {h : Key → BitVec 64} {t : LinearProbingHash} {dict : Nat → Pair} {first n j : Nat}
  {key : Key} {value : Value}

theorem FirstCopy.unique {lo i i' : Nat} (copy : FirstCopy dict first key lo i)
    (copy' : FirstCopy dict first key lo i') :
    i = i' := by
  rcases Nat.lt_trichotomy i i' with lt | same | lt
  · exact absurd copy.here (copy'.before i copy.from_ lt)
  · exact same
  · exact absurd copy'.here (copy.before i' copy'.from_ lt)

theorem exists_firstCopy {lo i : Nat} (le : lo ≤ i) (here : (dict (first + i)).key = key) :
    ∃ i' ≤ i, FirstCopy dict first key lo i' := by
  induction i using Nat.strong_induction_on with
  | h i ih =>
    by_cases earlier : ∃ j, lo ≤ j ∧ j < i ∧ (dict (first + j)).key = key
    · obtain ⟨j, le', lt, here'⟩ := earlier
      obtain ⟨i', le'', copy⟩ := ih j lt le' here'
      exact ⟨i', le''.trans lt.le, copy⟩
    · exact ⟨i, Nat.le_refl i, le, here, fun j le' lt here' => earlier ⟨j, le', lt, here'⟩⟩

/-- The first copy depends only on the slots up to it. -/
theorem firstCopy_shifted {dict' : Nat → Pair} (lo : Nat) {i : Nat}
    (same : ∀ j ≤ i, dict' (first + j) = dict (first + (lo + j))) :
    FirstCopy dict' first key 0 i ↔ FirstCopy dict first key lo (lo + i) := by
  constructor
  · intro copy
    refine ⟨Nat.le_add_right lo i, by simpa [same] using copy.here, fun j le lt => ?_⟩
    obtain ⟨d, rfl⟩ := Nat.exists_eq_add_of_le le
    rw [← same d (by omega)]
    exact copy.before d (Nat.zero_le d) (by omega)
  · intro copy
    refine ⟨Nat.zero_le i, by simpa [same] using copy.here, fun j _ lt => ?_⟩
    rw [same j lt.le]
    exact copy.before (lo + j) (Nat.le_add_right lo j) (by omega)

theorem firstCopy_congr {dict' : Nat → Pair} {i : Nat}
    (same : ∀ j ≤ i, dict' (first + j) = dict (first + j)) :
    FirstCopy dict' first key 0 i ↔ FirstCopy dict first key 0 i := by
  have shifted := @firstCopy_shifted dict first key dict' 0 i fun j le => by
    rw [Nat.zero_add, same j le]
  rwa [Nat.zero_add] at shifted

theorem get_eq_some_iff (hpos : 0 < t.capacity) (null : value ≠ noneValue) :
    t.get h key = some value ↔ Reads t.dict (t.firstIndex h key) key (locksize - 1) value := by
  unfold get
  rw [if_neg hpos.ne']
  cases found : (List.range (locksize - 1)).find? fun j =>
    decide ((t.dict (t.firstIndex h key + j)).key = key) with
  | none =>
    have missing := List.find?_range_eq_none.mp found
    simp only [found, Option.some.injEq]
    refine ⟨fun eq => absurd eq.symm null, ?_⟩
    rintro ⟨i, lt, copy, -⟩
    exact absurd copy.here (by simpa using missing i lt)
  | some i =>
    obtain ⟨here, lt, before⟩ := List.find?_range_eq_some.mp found
    have copy : FirstCopy t.dict (t.firstIndex h key) key 0 i :=
      ⟨Nat.zero_le i, by simpa using here, fun j _ lt' => by simpa using before j lt'⟩
    simp only [found]
    refine ⟨fun eq => ⟨i, List.mem_range.mp lt, copy, eq⟩, ?_⟩
    rintro ⟨i', -, copy', eq⟩
    rwa [copy.unique copy']

theorem get_stored_iff (hpos : 0 < t.capacity) (null : value ≠ noneValue) (dict : Nat → Pair)
    (size : Nat) :
    get h ⟨t.capacity, dict, size⟩ key = some value ↔
      Reads dict (t.firstIndex h key) key (locksize - 1) value :=
  @get_eq_some_iff h ⟨t.capacity, dict, size⟩ key value hpos null

theorem reads_update (lt : j < n) :
    Reads (update dict (first + j) ⟨key, some value⟩) first key n value ↔
      ∀ i < j, FirstCopy dict first key 0 i → (dict (first + i)).value = some value := by
  have other : ∀ i < j, update dict (first + j) ⟨key, some value⟩ (first + i) =
      dict (first + i) :=
    fun i lt' => update_of_ne (by omega) _ _
  have kept : ∀ i < j, FirstCopy dict first key 0 i →
      FirstCopy (update dict (first + j) ⟨key, some value⟩) first key 0 i := fun i lt' =>
    (firstCopy_congr fun k le => other k (by omega)).mpr
  constructor
  · rintro ⟨i, -, copy, eq⟩ i' lt' copy'
    rw [copy.unique (kept i' lt' copy'), other i' lt'] at eq
    exact eq
  · intro same
    by_cases earlier : ∃ i < j, (dict (first + i)).key = key
    · obtain ⟨i, lt', here⟩ := earlier
      obtain ⟨i', le, copy⟩ := exists_firstCopy (Nat.zero_le i) here
      have lt'' : i' < j := by omega
      exact ⟨i', by omega, kept i' lt'' copy, by rw [other i' lt'', same i' lt'' copy]⟩
    · refine ⟨j, lt, ⟨Nat.zero_le j, by simp, fun i _ lt' here => earlier ⟨i, lt', ?_⟩⟩, by simp⟩
      rwa [other i lt'] at here

theorem reads_shift (m : Nat) (p : Pair) :
    Reads (update (shiftLeft first m dict) (first + m) p) first key m value ↔
      ∃ i < m, FirstCopy dict first key 1 (1 + i) ∧
        (dict (first + (1 + i))).value = some value := by
  have moved : ∀ i < m, update (shiftLeft first m dict) (first + m) p (first + i) =
      dict (first + (1 + i)) := by
    intro i lt
    rw [shiftLeft_update_apply, if_neg (by omega), if_pos (by omega),
      Nat.add_comm 1 i, Nat.add_assoc]
  refine exists_congr fun i => and_congr_right fun lt => ?_
  rw [moved i lt]
  exact and_congr_left fun _ => firstCopy_shifted 1 fun j le => moved j (by omega)

theorem reads_update_outside {loc : Nat} (outside : loc < first ∨ first + n ≤ loc) (p : Pair) :
    Reads (update dict loc p) first key n value ↔ Reads dict first key n value := by
  have other : ∀ i < n, update dict loc p (first + i) = dict (first + i) := fun i lt =>
    update_of_ne (by omega) _ _
  refine exists_congr fun i => and_congr_right fun lt => ?_
  rw [other i lt]
  exact and_congr_left fun _ => firstCopy_congr fun j le => other j (by omega)

/-- When an `Insert` is read back: the first free slot of the fifteen has no other value of the key
before it, or the cluster is full and an older copy with the same value comes first after the
shift. -/
def InsertRead (t : LinearProbingHash) (first : Nat) (key : Key) (value : Value) : Prop :=
  (∃ j < locksize - 1, FirstCopy t.dict first invalidKey 0 j ∧
      ∀ i < j, FirstCopy t.dict first key 0 i → (t.dict (first + i)).value = some value) ∨
    (∀ j < locksize - 1, (t.dict (first + j)).key ≠ invalidKey) ∧
      ∃ i < locksize - 1, FirstCopy t.dict first key 1 (1 + i) ∧
        (t.dict (first + (1 + i))).value = some value

/-- The first free slot from the key's own slot on, around the table. -/
structure FreeFrom (t : LinearProbingHash) (start loc : Nat) : Prop where
  free : (t.dict loc).key = invalidKey
  first : ∃ d < t.capacity, loc = (start + d) % t.capacity ∧
    ∀ e < d, (t.dict ((start + e) % t.capacity)).key ≠ invalidKey

/-- When an `InsertOnly` is read back: the free slot that it takes is one of the fifteen and has no
other value of the key before it, or it lies outside and an older copy with the same value is
read. -/
def InsertOnlyRead (t : LinearProbingHash) (start first : Nat) (key : Key) (value : Value) : Prop :=
  ∃ loc, FreeFrom t start loc ∧
    ((∃ j < locksize - 1, loc = first + j ∧
        ∀ i < j, FirstCopy t.dict first key 0 i → (t.dict (first + i)).value = some value) ∨
      (loc < first ∨ first + (locksize - 1) ≤ loc) ∧ Reads t.dict first key (locksize - 1) value)

theorem freeSlot_eq_some_iff :
    t.freeSlot first = some j ↔ j < locksize - 1 ∧ FirstCopy t.dict first invalidKey 0 j := by
  unfold freeSlot
  rw [List.find?_range_eq_some]
  constructor
  · rintro ⟨free, lt, before⟩
    exact ⟨List.mem_range.mp lt, Nat.zero_le j, by simpa using free,
      fun i _ lt' => by simpa using before i lt'⟩
  · rintro ⟨lt, copy⟩
    exact ⟨by simpa using copy.here, List.mem_range.mpr lt,
      fun i lt' => by simpa using copy.before i (Nat.zero_le i) lt'⟩

theorem insert_of_free (hpos : 0 < t.capacity) (free : t.freeSlot (t.firstIndex h key) = some j)
    (value : Value) :
    t.insert h key value =
      some (⟨t.capacity, update t.dict (t.firstIndex h key + j) ⟨key, some value⟩,
        t.size + 1⟩, -1) := by
  simp only [insert, if_neg hpos.ne', free]

theorem insert_of_full (hpos : 0 < t.capacity) (full : t.freeSlot (t.firstIndex h key) = none)
    (value : Value) :
    t.insert h key value =
      some (⟨t.capacity, update (shiftLeft (t.firstIndex h key) (locksize - 1) t.dict)
        (t.firstIndex h key + (locksize - 1)) ⟨key, some value⟩, t.size⟩,
          (t.dict (t.firstIndex h key)).key) := by
  simp only [insert, if_neg hpos.ne', full]
  rfl

theorem get_insert_iff (hpos : 0 < t.capacity) (null : value ≠ noneValue) :
    ∃ t' d, t.insert h key value = some (t', d) ∧
      (t'.get h key = some value ↔ InsertRead t (t.firstIndex h key) key value) := by
  cases found : t.freeSlot (t.firstIndex h key) with
  | some j =>
    obtain ⟨lt, copy⟩ := freeSlot_eq_some_iff.mp found
    refine ⟨_, _, insert_of_free hpos found value, ?_⟩
    refine (get_stored_iff hpos null _ _).trans ((reads_update lt).trans ?_)
    refine ⟨fun same => Or.inl ⟨j, lt, copy, same⟩, ?_⟩
    rintro (⟨j', -, copy', same⟩ | ⟨full, -⟩)
    · rwa [copy.unique copy']
    · exact absurd copy.here (full j lt)
  | none =>
    have full : ∀ j < locksize - 1, (t.dict (t.firstIndex h key + j)).key ≠ invalidKey :=
        fun j lt =>
      freeSlot_none found lt
    refine ⟨_, _, insert_of_full hpos found value, ?_⟩
    refine (get_stored_iff hpos null _ _).trans
      ((reads_shift (locksize - 1) ⟨key, some value⟩).trans ?_)
    refine ⟨fun copy => Or.inr ⟨full, copy⟩, ?_⟩
    rintro (⟨j, lt, copy, -⟩ | ⟨-, copy⟩)
    · exact absurd copy.here (full j lt)
    · exact copy

theorem getLocation_spec {start loc left : Nat} (lt : start < t.capacity)
    (found : getLocation t.capacity t.dict left start = some loc) :
    (t.dict loc).key = invalidKey ∧ ∃ d < left, loc = (start + d) % t.capacity ∧
      ∀ e < d, (t.dict ((start + e) % t.capacity)).key ≠ invalidKey := by
  induction left generalizing start with
  | zero => simp [getLocation] at found
  | succ left ih =>
    by_cases free : (t.dict start).key = invalidKey
    · simp only [getLocation, free, if_true, Option.some.injEq] at found
      subst found
      exact ⟨free, 0, Nat.succ_pos left, (Nat.mod_eq_of_lt lt).symm, fun e none_ =>
        absurd none_ (Nat.not_lt_zero e)⟩
    · simp only [getLocation, free, if_false] at found
      obtain ⟨here, d, lt', eq, before⟩ := ih (Nat.mod_lt _ (Nat.zero_lt_of_lt lt)) found
      refine ⟨here, d + 1, Nat.succ_lt_succ lt', ?_, ?_⟩
      · rw [eq, Nat.mod_add_mod, Nat.add_assoc, Nat.add_comm 1 d]
      · intro e ltE
        cases e with
        | zero => rwa [Nat.add_zero, Nat.mod_eq_of_lt lt]
        | succ e =>
          have earlier := before e (Nat.lt_of_succ_lt_succ ltE)
          rwa [Nat.mod_add_mod, Nat.add_assoc, Nat.add_comm 1 e] at earlier

theorem FreeFrom.unique {start loc loc' : Nat} (free : FreeFrom t start loc)
    (free' : FreeFrom t start loc') : loc = loc' := by
  obtain ⟨here, d, -, rfl, before⟩ := free
  obtain ⟨here', d', -, rfl, before'⟩ := free'
  rcases Nat.lt_trichotomy d d' with lt | rfl | lt
  · exact absurd here (before' d lt)
  · rfl
  · exact absurd here' (before d' lt)

theorem get_insertOnly_iff (hpos : 0 < t.capacity) (null : value ≠ noneValue)
    {t' : LinearProbingHash} (done : t.insertOnly h key value = some (t', true)) :
    t'.get h key = some value ↔ InsertOnlyRead t (t.slot h key) (t.firstIndex h key) key value := by
  simp only [insertOnly, if_neg hpos.ne'] at done
  cases found : getLocation t.capacity t.dict t.capacity (t.slot h key) with
  | none => simp [found] at done
  | some loc =>
    obtain ⟨here, taken⟩ := getLocation_spec (Nat.mod_lt _ hpos) found
    have free : FreeFrom t (t.slot h key) loc := ⟨here, taken⟩
    simp only [found, Option.some.injEq, Prod.mk.injEq, and_true] at done
    subst done
    refine (get_stored_iff hpos null _ _).trans ?_
    by_cases inside : ∃ j < locksize - 1, loc = t.firstIndex h key + j
    · obtain ⟨j, lt, rfl⟩ := inside
      refine (reads_update lt).trans ⟨fun same => ⟨_, free, Or.inl ⟨j, lt, rfl, same⟩⟩, ?_⟩
      rintro ⟨loc, free', ⟨j', -, eq, same⟩ | ⟨outside, -⟩⟩
      · have eq' : j = j' := Nat.add_left_cancel ((free.unique free').trans eq)
        rwa [eq']
      · have eq' := free.unique free'
        omega
    · have outside : loc < t.firstIndex h key ∨ t.firstIndex h key + (locksize - 1) ≤ loc := by
        by_contra between
        exact inside ⟨loc - t.firstIndex h key, by omega, by omega⟩
      refine (reads_update_outside outside _).trans
        ⟨fun reads => ⟨loc, free, Or.inr ⟨outside, reads⟩⟩, ?_⟩
      rintro ⟨loc', free', ⟨j, lt, eq, -⟩ | ⟨-, reads⟩⟩
      · exact absurd ⟨j, lt, (free.unique free').trans eq⟩ inside
      · exact reads

/-- Exactly when a `Get` directly after an insertion returns the value that was inserted, in every
state of the table. -/
theorem read_your_writes_iff (h : Key → BitVec 64) (t : LinearProbingHash) (hpos : 0 < t.capacity)
    (key : Key) {value : Value} (null : value ≠ noneValue) :
    (∃ t' d, t.insert h key value = some (t', d) ∧
        (t'.get h key = some value ↔ InsertRead t (t.firstIndex h key) key value)) ∧
      ∀ t', t.insertOnly h key value = some (t', true) →
        (t'.get h key = some value ↔ InsertOnlyRead t (t.slot h key) (t.firstIndex h key)
          key value) :=
  ⟨get_insert_iff hpos null, fun _ done => get_insertOnly_iff hpos null done⟩

/-- Fifteen pairs, in the slots that `Get` looks at. -/
def fifteen : LinearProbingHash :=
  ⟨16, fun i => if i < 15 then ⟨BitVec.ofNat 64 i, some 7⟩ else Pair.fresh, 15⟩

/-- A key is inserted once more with its value: what is read is the older copy. -/
theorem read_your_writes_iff_full :
    (∃ t' d, fifteen.insert (fun _ => 0) 3 7 = some (t', d) ∧ d ≠ -1 ∧
      t'.get (fun _ => 0) 3 = some 7) ∧
      ∃ t', fifteen.insertOnly (fun _ => 0) 3 7 = some (t', true) ∧
        t'.get (fun _ => 0) 3 = some 7 := by
  have copy : ∀ lo ≤ 3, FirstCopy fifteen.dict 0 3 lo 3 := by
    refine fun lo le => ⟨le, rfl, fun j _ lt => ?_⟩
    interval_cases j <;> decide
  have full : ∀ j < locksize - 1, (fifteen.dict (0 + j)).key ≠ invalidKey := by decide +kernel
  obtain ⟨⟨t', d, inserted, read⟩, only⟩ :=
    @read_your_writes_iff (fun _ => 0) fifteen (by decide) 3 7 (by decide)
  refine ⟨⟨t', d, inserted, ?_, read.mpr (Or.inr ⟨full, 2, by decide, copy 1 (by decide), rfl⟩)⟩, _,
    rfl, ?_⟩
  · cases inserted
    decide
  · refine (only _ rfl).mpr ⟨15, ⟨rfl, 15, by decide, rfl, ?_⟩,
      Or.inr ⟨Or.inr (by decide), 3, by decide, copy 0 (by decide), rfl⟩⟩
    decide +kernel

def insertAll (h : Key → BitVec 64) (t : LinearProbingHash) (inserts : List (Key × Value)) :
    Option LinearProbingHash :=
  Runs.run (fun t p => (t.insert h p.1 p.2).map Prod.fst) t inserts

/-- The sixteenth key of a cluster goes to the slot that `Get` leaves out, and so does a key whose
own slot is that one. -/
theorem last_slot_not_read :
    ((insertAll (fun _ => 0) (new 16) ((List.range 16).map fun i => (BitVec.ofNat 64 i, 7))).map
      fun t =>
        t.get (fun _ => 0) 15) = some (some noneValue) ∧
      (((new 16).insertOnly (fun _ => 15) 1 7).map fun r => (r.2, r.1.get (fun _ => 15) 1)) =
        some (true, some noneValue) := by
  constructor <;> decide +kernel

end

end Xcache.LinearProbingHash
