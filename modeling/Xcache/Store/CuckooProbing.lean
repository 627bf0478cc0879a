import Mathlib.Data.Bool.AllAny
import Xcache.Store.LinearProbing

/-! The table of `server/src/cuckoo_probing.cpp`: clusters of 16 slots as in the linear
probing table, but the oldest pair of a full cluster moves to the head of a second cluster,
with bit 63 of its value set. -/

namespace Xcache
open Function
open LinearProbingHash (locksize shiftLeft shiftLeft_apply shiftLeft_update_apply)

structure CuckooProbingHash where
  capacity : Nat
  dict : Nat → Pair
  size : Nat

namespace CuckooProbingHash

def cuckooBit : Value := 1#64 <<< 63

def new (capacity : Nat) : CuckooProbingHash := ⟨capacity, fun _ => Pair.fresh, 0⟩

/-- The first slot of the cluster that a hash value leads to. -/
def firstIndex (t : CuckooProbingHash) (hash : BitVec 64) : Nat :=
  let slot := hash.toNat % t.capacity
  slot - slot % locksize

/-- The loop `for (int i = j; i > 0; i--)`: every slot takes over its left neighbour. -/
def shiftRight (first : Nat) : Nat → (Nat → Pair) → Nat → Pair
  | 0, dict => dict
  | j + 1, dict => shiftRight first j (update dict (first + (j + 1)) (dict (first + j)))

/-- The cluster after its first pair left and a new one came in at the end. -/
def pushed (t : CuckooProbingHash) (first : Nat) (p : Pair) : Nat → Pair :=
  update (shiftLeft first (locksize - 1) t.dict) (first + locksize - 1) p

/-- A slot of the first loop: free, or one with the same key. -/
def usableSlot (t : CuckooProbingHash) (first : Nat) (key : Key) : Option Nat :=
  (List.range (locksize - 1)).find? fun j =>
    decide ((t.dict (first + j)).key = invalidKey ∨ (t.dict (first + j)).key = key)

def freeSlot (dict : Nat → Pair) (first : Nat) : Option Nat :=
  (List.range (locksize - 1)).find? fun j => decide ((dict (first + j)).key = invalidKey)

/-- `std::_Hash_bytes` on the eight bytes of a key. -/
def standard (seed : BitVec 64) (key : Key) : BitVec 64 :=
  let mul : BitVec 64 := 0xc6a4a7935bd1e995
  let shiftMix : BitVec 64 → BitVec 64 := fun v => v ^^^ v >>> 47
  let data := shiftMix (key * mul) * mul
  let hash := ((seed ^^^ 8 * mul) ^^^ data) * mul
  shiftMix (shiftMix hash * mul)

/-- The hash of `util/hash.h` with its default seed, and with that of the second position. -/
def firstHash : Key → BitVec 64 := standard 0xc70697
def nextHash : Key → BitVec 64 := standard 951125

section
variable (h h₂ : Key → BitVec 64)

/-- The second half of a displacement: the pair goes to the head of the cluster at `next`. -/
def place (t : CuckooProbingHash) (next : Nat) (dict : Nat → Pair) (cuckooPair : Pair) :
    CuckooProbingHash × Key :=
  match freeSlot dict next with
  | some j =>
    ({ t with
      dict := update (shiftRight next j dict) next cuckooPair
      size := t.size + 1 }, -1)
  | none => ({ t with dict := update dict next cuckooPair }, (dict next).key)

/-- The insertion returns the deleted key, or -1. It is `none` when it would read a value
that nothing has written. The second hash is taken of the new key. -/
def insert (t : CuckooProbingHash) (key : Key) (value : Value) : Option (CuckooProbingHash × Key) :=
  if t.capacity = 0 then none
  else
    let first := t.firstIndex (h key)
    match t.usableSlot first key with
    | some j =>
      some ({ t with
        dict := update t.dict (first + j) ⟨key, some value⟩
        size := t.size + 1 }, -1)
    | none =>
      match (t.dict first).value with
      | none => none
      | some v =>
        if v &&& cuckooBit ≠ 0 then
          some ({ t with dict := t.pushed first ⟨key, some value⟩ }, (t.dict first).key)
        else
          some (t.place (t.firstIndex (h₂ key)) (t.pushed first ⟨key, some value⟩)
            ⟨(t.dict first).key, some (v ||| cuckooBit)⟩)

/-- The search through all but the last slot of a cluster. -/
def find (t : CuckooProbingHash) (first : Nat) (key : Key) : Option Nat :=
  (List.range (locksize - 1)).find? fun j => decide ((t.dict (first + j)).key = key)

/-- Only the second loop strips the bit. -/
def get (t : CuckooProbingHash) (key : Key) : Option Value :=
  if t.capacity = 0 then none
  else
    match t.find (t.firstIndex (h key)) key with
    | some j => (t.dict (t.firstIndex (h key) + j)).value
    | none =>
      match t.find (t.firstIndex (h₂ key)) key with
      | some j => (t.dict (t.firstIndex (h₂ key) + j)).value.map (· &&& ~~~cuckooBit)
      | none => some noneValue

def hash : IHash CuckooProbingHash := ⟨insert h h₂, get h h₂⟩

def insertAll (t : CuckooProbingHash) : List (Key × Value) → Option CuckooProbingHash
  | [] => some t
  | (key, value) :: rest =>
    match t.insert h h₂ key value with
    | none => none
    | some (t', _) => t'.insertAll rest

end

theorem shiftRight_apply (first j : Nat) (dict : Nat → Pair) (i : Nat) :
    shiftRight first j dict i = if first < i ∧ i ≤ first + j then dict (i - 1) else dict i := by
  induction j generalizing dict with
  | zero =>
    rw [if_neg (by omega)]
    rfl
  | succ j ih =>
    rw [shiftRight, ih]
    by_cases last : i = first + (j + 1)
    · subst last
      rw [if_neg (by omega), update_self, if_pos (by omega)]
      congr 1
    · by_cases inside : first < i ∧ i ≤ first + j
      · rw [if_pos inside, if_pos (by omega), update_of_ne (by omega)]
      · rw [if_neg inside, if_neg (by omega), update_of_ne last]

theorem pushed_apply (t : CuckooProbingHash) (first : Nat) (p : Pair) (i : Nat) :
    t.pushed first p i =
    if i = first + 15 then p
    else if first ≤ i ∧ i < first + 15 then t.dict (i + 1) else t.dict i :=
  shiftLeft_update_apply first 15 t.dict p i

theorem freeSlot_lt (dict : Nat → Pair) (first : Nat) :
    (freeSlot dict first).getD 0 < locksize - 1 := by
  cases found : freeSlot dict first with
  | none => decide
  | some j => exact List.mem_range.mp (List.mem_of_find?_eq_some found)

theorem place_dict (t : CuckooProbingHash) (next : Nat) (dict : Nat → Pair) (p : Pair) :
    (t.place next dict p).1.dict =
      update (shiftRight next ((freeSlot dict next).getD 0) dict) next p := by
  unfold place
  cases freeSlot dict next <;> rfl

def base (s : Nat) : Nat := s - s % locksize

theorem base_add {first j : Nat} (dvd : locksize ∣ first) (lt : j < locksize) :
    base (first + j) = first := by
  obtain ⟨n, rfl⟩ := dvd
  unfold base locksize at *
  omega

theorem firstIndex_dvd (t : CuckooProbingHash) (hash : BitVec 64) : locksize ∣ t.firstIndex hash :=
  Nat.dvd_sub_mod _

theorem base_firstIndex (t : CuckooProbingHash) (hash : BitVec 64) :
    base (t.firstIndex hash) = t.firstIndex hash :=
  base_add (j := 0) (t.firstIndex_dvd hash) (by decide)

theorem firstIndex_congr {t t' : CuckooProbingHash} (cap : t'.capacity = t.capacity) :
    t'.firstIndex = t.firstIndex := by
  funext hash
  unfold firstIndex
  rw [cap]

theorem firstIndex_cluster {t : CuckooProbingHash} (pos : 0 < t.capacity)
    (dvd : locksize ∣ t.capacity) (hash : BitVec 64) :
    t.firstIndex hash + locksize ≤ t.capacity := by
  obtain ⟨n, eq⟩ := dvd
  have lt := Nat.mod_lt hash.toNat pos
  simp only [firstIndex, locksize] at eq ⊢
  omega

/-- The value carries the mark of a displaced pair. -/
def Marked (p : Pair) : Prop := ∃ v, p.value = some v ∧ v &&& cuckooBit ≠ 0

theorem marked_or (key : Key) (v : Value) : Marked ⟨key, some (v ||| cuckooBit)⟩ := by
  refine ⟨_, rfl, ?_⟩
  have : (v ||| cuckooBit) &&& cuckooBit = cuckooBit := by
    ext i
    simpa using Or.inr
  rw [this]
  decide

theorem not_marked {key : Key} {v : Value} (clear : v &&& cuckooBit = 0) :
    ¬ Marked ⟨key, some v⟩ := by
  rintro ⟨_, eq, set⟩
  cases eq
  exact set clear

/-- The pair was in the same cluster before. -/
def Within (capacity : Nat) (dict : Nat → Pair) (s : Nat) (p : Pair) : Prop :=
  ∃ s' < capacity, base s' = base s ∧ p = dict s'

theorem within_self {capacity s : Nat} (lt : s < capacity) (dict : Nat → Pair) :
    Within capacity dict s (dict s) :=
  ⟨s, lt, rfl, rfl⟩

section Origin
variable {t : CuckooProbingHash} {first : Nat} (dvd : locksize ∣ first)
  (inside : first + locksize ≤ t.capacity)
include dvd inside

theorem pushed_origin (p : Pair) {s : Nat} (lt : s < t.capacity) :
    Within t.capacity t.dict s (t.pushed first p s) ∨ base s = first ∧ t.pushed first p s = p := by
  rw [pushed_apply]
  by_cases last : s = first + 15
  · subst last
    rw [if_pos rfl]
    exact Or.inr ⟨base_add dvd (by decide), rfl⟩
  · rw [if_neg last]
    split
    · rename_i range
      obtain ⟨j, rfl⟩ := Nat.exists_eq_add_of_le range.1
      have small : j + 1 < locksize := by
        unfold locksize
        omega
      refine Or.inl ⟨first + j + 1, by omega, ?_, rfl⟩
      rw [Nat.add_assoc, base_add dvd small, base_add dvd (by omega)]
    · exact Or.inl (within_self lt t.dict)

omit inside in
theorem place_origin (dict : Nat → Pair) (p : Pair) {s : Nat} (lt : s < t.capacity) :
    Within t.capacity dict s ((t.place first dict p).1.dict s) ∨ s = first ∧
      (t.place first dict p).1.dict s = p := by
  have small := freeSlot_lt dict first
  rw [place_dict]
  by_cases head : s = first
  · exact Or.inr ⟨head, by rw [head, update_self]⟩
  · rw [update_of_ne head, shiftRight_apply]
    split
    · rename_i range
      obtain ⟨i, rfl⟩ := Nat.exists_eq_add_of_le range.1.le
      have bound : i < locksize := by omega
      refine Or.inl ⟨first + i - 1, by omega, ?_, rfl⟩
      rw [base_add dvd bound, show first + i - 1 = first + (i - 1) by omega,
        base_add dvd (by omega)]
    · exact Or.inl (within_self lt dict)

end Origin

section
variable {h h₂ : Key → BitVec 64} {t t' : CuckooProbingHash} {key d : Key} {value : Value}

/-- The three ways of an insertion: into a slot of its cluster, over the end of a cluster
whose first pair is dropped, or so that the first pair moves to another cluster. -/
theorem insert_cases (step : t.insert h h₂ key value = some (t', d)) :
    (∃ j, t.usableSlot (t.firstIndex (h key)) key = some j ∧ t'.capacity = t.capacity ∧
      t'.dict = update t.dict (t.firstIndex (h key) + j) ⟨key, some value⟩) ∨
    t.usableSlot (t.firstIndex (h key)) key = none ∧ ∃ v, (t.dict (t.firstIndex (h key))).value =
      some v ∧
      (v &&& cuckooBit ≠ 0 ∧ t'.capacity = t.capacity ∧
          t'.dict = t.pushed (t.firstIndex (h key)) ⟨key, some value⟩ ∨
        v &&& cuckooBit = 0 ∧ t'.capacity = t.capacity ∧
          t'.dict = (t.place (t.firstIndex (h₂ key))
            (t.pushed (t.firstIndex (h key)) ⟨key, some value⟩)
            ⟨(t.dict (t.firstIndex (h key))).key, some (v ||| cuckooBit)⟩).1.dict) := by
  have same : ∀ next dict p, (t.place next dict p).1.capacity = t.capacity := by
    intro next dict p
    unfold place
    split <;> rfl
  unfold insert at step
  split at step
  · cases step
  · dsimp only at step
    split at step
    · rename_i j found
      cases step
      exact Or.inl ⟨j, found, rfl, rfl⟩
    · rename_i full
      refine Or.inr ⟨full, ?_⟩
      split at step
      · cases step
      · rename_i v read
        refine ⟨v, read, ?_⟩
        split at step
        · rename_i set
          cases step
          exact Or.inl ⟨set, rfl, rfl⟩
        · rename_i clear
          have eq : t' = _ := (congrArg Prod.fst (Option.some.inj step)).symm
          rw [eq]
          exact Or.inr ⟨not_not.mp clear, same _ _ _, rfl⟩

theorem usableSlot_some {first j : Nat} (found : t.usableSlot first key = some j) :
    j < locksize - 1 ∧
    ((t.dict (first + j)).key = invalidKey ∨ (t.dict (first + j)).key = key) := by
  have test := List.find?_some found
  exact ⟨List.mem_range.mp (List.mem_of_find?_eq_some found), of_decide_eq_true test⟩

theorem usableSlot_none {first j : Nat} (full : t.usableSlot first key = none)
    (lt : j < locksize - 1) :
    (t.dict (first + j)).Live ∧ (t.dict (first + j)).key ≠ key := by
  have free := List.find?_eq_none.mp full j (List.mem_range.mpr lt)
  rw [decide_eq_true_iff, not_or] at free
  exact free

/-- Every pair lies in the cluster of its first hash, or, with the mark, in that of its
second hash. -/
def Placed (h h₂ : Key → BitVec 64) (t : CuckooProbingHash) : Prop :=
  ∀ s < t.capacity, (t.dict s).Live → base s = t.firstIndex (h (t.dict s).key) ∨
    base s = t.firstIndex (h₂ (t.dict s).key) ∧ Marked (t.dict s)

/-- The insertion finds no slot and moves the first pair of the cluster away. -/
def Displaces (h : Key → BitVec 64) (t : CuckooProbingHash) (key : Key) : Prop :=
  t.usableSlot (t.firstIndex (h key)) key = none ∧ ¬ Marked (t.dict (t.firstIndex (h key)))

/-- When the insertion moves a pair away, the second cluster of the new key is a cluster of
that pair. -/
def Aimed (h h₂ : Key → BitVec 64) (t : CuckooProbingHash) (key : Key) : Prop :=
  t.Displaces h key → t.firstIndex (h₂ key) =
    t.firstIndex (h₂ (t.dict (t.firstIndex (h key))).key) ∨
    t.firstIndex (h₂ key) = t.firstIndex (h key)

def Written (t : CuckooProbingHash) : Prop :=
  ∀ s < t.capacity, (t.dict s).Live → ∃ v, (t.dict s).value = some v

theorem insert_origin (dvd : locksize ∣ t.capacity) (pos : 0 < t.capacity)
    (step : t.insert h h₂ key value = some (t', d)) : t'.capacity = t.capacity ∧ ∀ s < t.capacity,
      Within t.capacity t.dict s (t'.dict s) ∨
      base s = t.firstIndex (h key) ∧ t'.dict s = ⟨key, some value⟩ ∨
      t.Displaces h key ∧ base s = t.firstIndex (h₂ key) ∧ ∃ v, v &&& cuckooBit = 0 ∧
        (t.dict (t.firstIndex (h key))).value = some v ∧
        t'.dict s = ⟨(t.dict (t.firstIndex (h key))).key, some (v ||| cuckooBit)⟩ := by
  have inside := firstIndex_cluster pos dvd (h key)
  have aligned := t.firstIndex_dvd (h key)
  rcases insert_cases step with ⟨j, found, cap, dict⟩ | ⟨full, v, read,
    ⟨_, cap, dict⟩ | ⟨clear, cap, dict⟩⟩
  · refine ⟨cap, fun s lt => ?_⟩
    rw [dict]
    by_cases here : s = t.firstIndex (h key) + j
    · have small := (usableSlot_some found).1
      refine Or.inr (Or.inl ?_)
      rw [here, update_self, base_add aligned (by omega)]
      exact ⟨rfl, rfl⟩
    · rw [update_of_ne here]
      exact Or.inl (within_self lt t.dict)
  · refine ⟨cap, fun s lt => ?_⟩
    rw [dict]
    exact (pushed_origin aligned inside _ lt).imp_right Or.inl
  · refine ⟨cap, fun s lt => ?_⟩
    rw [dict]
    have away : ¬ Marked (t.dict (t.firstIndex (h key))) := by
      rintro ⟨w, eq, set⟩
      cases read.symm.trans eq
      exact set clear
    rcases place_origin (t.firstIndex_dvd (h₂ key))
      (t.pushed (t.firstIndex (h key)) ⟨key, some value⟩)
      ⟨(t.dict (t.firstIndex (h key))).key, some (v ||| cuckooBit)⟩ lt
        with ⟨s', lt', cluster, eq⟩ | ⟨rfl, eq⟩
    · rw [eq]
      rcases pushed_origin aligned inside ⟨key, some value⟩ lt' with
        ⟨s'', lt'', cluster', old⟩ | ⟨here, new⟩
      · exact Or.inl ⟨s'', lt'', cluster'.trans cluster, old⟩
      · exact Or.inr (Or.inl ⟨cluster.symm.trans here, new⟩)
    · exact Or.inr (Or.inr ⟨⟨full, away⟩, t.base_firstIndex (h₂ key), v, clear, read, eq⟩)

theorem written_insert (dvd : locksize ∣ t.capacity) (pos : 0 < t.capacity) (written : t.Written)
    (step : t.insert h h₂ key value = some (t', d)) : t'.Written := by
  obtain ⟨cap, origin⟩ := insert_origin dvd pos step
  intro s lt live
  rw [cap] at lt
  rcases origin s lt with ⟨s', lt', _, eq⟩ | ⟨_, eq⟩ | ⟨_, _, v, _, _, eq⟩
  · rw [eq] at live ⊢
    exact written s' lt' live
  · rw [eq]
    exact ⟨_, rfl⟩
  · rw [eq]
    exact ⟨_, rfl⟩

/-- The head of a full cluster is live and has a value, so the insertion returns. -/
theorem insert_isSome (h h₂ : Key → BitVec 64) (dvd : locksize ∣ t.capacity) (pos : 0 < t.capacity)
    (written : t.Written) (key : Key) (value : Value) : ∃ r, t.insert h h₂ key value = some r := by
  have inside := firstIndex_cluster pos dvd (h key)
  unfold insert
  rw [if_neg pos.ne']
  dsimp only
  split
  · exact ⟨_, rfl⟩
  · rename_i full
    obtain ⟨v, read⟩ := written (t.firstIndex (h key)) (by unfold locksize at inside; omega)
      (usableSlot_none full (j := 0) (by decide)).1
    rw [read]
    dsimp only
    split <;> exact ⟨_, rfl⟩

theorem Placed.displaced (placed : t.Placed h h₂) (dvd : locksize ∣ t.capacity)
    (pos : 0 < t.capacity) (displaces : t.Displaces h key) : (t.dict (t.firstIndex (h key))).Live ∧
      t.firstIndex (h (t.dict (t.firstIndex (h key))).key) = t.firstIndex (h key) := by
  have inside := firstIndex_cluster pos dvd (h key)
  have live : (t.dict (t.firstIndex (h key))).Live :=
    (usableSlot_none displaces.1 (j := 0) (by decide)).1
  refine ⟨live, ?_⟩
  rcases placed _ (by unfold locksize at inside; omega) live with home | ⟨_, marked⟩
  · rw [← home, base_firstIndex]
  · exact absurd marked displaces.2

/-- A single insertion keeps the placement exactly when it is aimed. -/
theorem placed_insert_iff (dvd : locksize ∣ t.capacity) (pos : 0 < t.capacity)
    (placed : t.Placed h h₂) (step : t.insert h h₂ key value = some (t', d)) :
    t'.Placed h h₂ ↔ t.Aimed h h₂ key := by
  obtain ⟨cap, origin⟩ := insert_origin dvd pos step
  have same := firstIndex_congr cap
  constructor
  · intro after displaces
    obtain ⟨live, home⟩ := placed.displaced dvd pos displaces
    have inside := firstIndex_cluster pos dvd (h₂ key)
    rcases insert_cases step with ⟨j, found, _⟩ | ⟨_, v, read, ⟨set, _⟩ | ⟨clear, _, dict⟩⟩
    · cases displaces.1.symm.trans found
    · exact absurd ⟨v, read, set⟩ displaces.2
    · have head : t'.dict (t.firstIndex (h₂ key)) =
          ⟨(t.dict (t.firstIndex (h key))).key, some (v ||| cuckooBit)⟩ := by
        rw [dict, place_dict, update_self]
      have there := after (t.firstIndex (h₂ key)) (by rw [cap]; unfold locksize at inside; omega)
        (by rw [head]; exact live)
      rw [head, same, base_firstIndex, home] at there
      exact there.symm.imp_left And.left
  · intro aimed s lt live
    rw [cap] at lt
    rw [same]
    rcases origin s lt with ⟨s', lt', cluster, eq⟩ | ⟨here, eq⟩ | ⟨displaces, here, v, _, _, eq⟩
    · rw [eq] at live ⊢
      rw [← cluster]
      exact placed s' lt' live
    · rw [eq]
      exact Or.inl here
    · rw [eq, here]
      rcases aimed displaces with second | first
      · exact Or.inr ⟨second, marked_or _ v⟩
      · exact Or.inl (first.trans (placed.displaced dvd pos displaces).2.symm)

theorem placed_new (capacity : Nat) : (new capacity).Placed h h₂ :=
  fun _ _ live => absurd live Pair.not_live_fresh

theorem written_new (capacity : Nat) : (new capacity).Written :=
  fun _ _ live => absurd live Pair.not_live_fresh

theorem insertAll_concat (t : CuckooProbingHash) (calls : List (Key × Value)) (c : Key × Value) :
    t.insertAll h h₂ (calls ++ [c]) =
      (t.insertAll h h₂ calls).bind fun t' => (t'.insert h h₂ c.1 c.2).map Prod.fst := by
  induction calls generalizing t with
  | nil =>
    simp only [List.nil_append, insertAll, Option.bind_some]
    cases t.insert h h₂ c.1 c.2 <;> rfl
  | cons first rest ih =>
    rw [List.cons_append, insertAll, insertAll]
    cases t.insert h h₂ first.1 first.2 with
    | none => rfl
    | some r => exact ih r.1

theorem insertAll_zero {calls : List (Key × Value)}
    (run : (new 0).insertAll h h₂ calls = some t) : t = new 0 := by
  cases calls with
  | nil => exact (Option.some.inj run).symm
  | cons c rest => simp [insertAll, insert, new] at run

section Runs
variable {capacity : Nat} (dvd : locksize ∣ capacity) (pos : 0 < capacity)
include dvd pos

theorem insertAll_written (h h₂ : Key → BitVec 64) (calls : List (Key × Value)) :
    ∃ t, (new capacity).insertAll h h₂ calls = some t ∧ t.capacity = capacity ∧ t.Written := by
  induction calls using List.reverseRecOn with
  | nil => exact ⟨new capacity, rfl, rfl, written_new capacity⟩
  | append_singleton calls c ih =>
    obtain ⟨t, run, rfl, written⟩ := ih
    obtain ⟨⟨t', d⟩, step⟩ := insert_isSome h h₂ dvd pos written c.1 c.2
    refine ⟨t', ?_, (insert_origin dvd pos step).1, written_insert dvd pos written step⟩
    rw [insertAll_concat, run, Option.bind_some, step]
    rfl

theorem insertAll_last {calls : List (Key × Value)} {c : Key × Value}
    (run : (new capacity).insertAll h h₂ calls = some t) : t.capacity = capacity ∧
      ∃ t' d, t.insert h h₂ c.1 c.2 = some (t', d) ∧ (new capacity).insertAll h h₂ (calls ++ [c]) =
        some t' := by
  obtain ⟨_, run', rfl, written⟩ := insertAll_written dvd pos h h₂ calls
  cases run.symm.trans run'
  obtain ⟨⟨t', d⟩, step⟩ := insert_isSome h h₂ dvd pos written c.1 c.2
  refine ⟨rfl, t', d, step, ?_⟩
  rw [insertAll_concat, run, Option.bind_some, step]
  rfl

theorem insertAll_invariant {I : List (Key × Value) → CuckooProbingHash → Prop}
    {P : CuckooProbingHash → Key × Value → Prop} (initial : I [] (new capacity))
    (kept : ∀ done c t t' d, t.capacity = capacity → I done t → P t c →
      t.insert h h₂ c.1 c.2 = some (t', d) → I (done ++ [c]) t')
    (calls : List (Key × Value))
    (met : ∀ done c t, done ++ [c] <+: calls → (new capacity).insertAll h h₂ done = some t → P t c)
    (run : (new capacity).insertAll h h₂ calls = some t) : I calls t := by
  induction calls using List.reverseRecOn generalizing t with
  | nil =>
    cases run
    exact initial
  | append_singleton calls c ih =>
    obtain ⟨before, run', _⟩ := insertAll_written dvd pos h h₂ calls
    obtain ⟨cap, t', d, step, last⟩ := insertAll_last dvd pos (c := c) run'
    cases run.symm.trans last
    have holds := ih (fun done c t le => met done c t (le.trans (List.prefix_append _ _))) run'
    exact kept calls c before _ d cap holds (met calls c before (List.prefix_refl _) run') step

end Runs

/-- From an empty table on, every pair stays where the two probes of the search look, exactly
when every insertion that moves a pair away is aimed. -/
theorem placed_iff_aimed {capacity : Nat} (dvd : locksize ∣ capacity) (calls : List (Key × Value)) :
    (0 < capacity → ∃ t, (new capacity).insertAll h h₂ calls = some t) ∧
    ((∀ done t, done <+: calls → (new capacity).insertAll h h₂ done = some t → t.Placed h h₂) ↔
      ∀ done c t, done ++ [c] <+: calls → (new capacity).insertAll h h₂ done = some t →
        t.Aimed h h₂ c.1) := by
  refine ⟨fun pos => ?_, ?_⟩
  · obtain ⟨t, run, _⟩ := insertAll_written dvd pos h h₂ calls
    exact ⟨t, run⟩
  · rcases Nat.eq_zero_or_pos capacity with rfl | pos
    · -- a table without slots: the first insertion already divides by zero
      apply iff_of_true
      · intro done t _ run
        rw [insertAll_zero run]
        exact placed_new 0
      · intro done c t _ run displaces
        rw [insertAll_zero run] at displaces
        exact absurd (usableSlot_none displaces.1 (j := 0) (by decide)).1 Pair.not_live_fresh
    · constructor
      · intro placed done c t le run
        obtain ⟨rfl, t', d, step, last⟩ := insertAll_last dvd pos (c := c) run
        have before := placed done t ((List.prefix_append _ _).trans le) run
        exact (placed_insert_iff dvd pos before step).mp (placed _ t' le last)
      · intro aimed done t le run
        refine insertAll_invariant (I := fun _ t => t.Placed h h₂) dvd pos
          (placed_new capacity) ?_ done (fun done' c t' le' => aimed done' c t' (le'.trans le)) run
        rintro _ c t t' d rfl placed aim step
        exact (placed_insert_iff dvd pos placed step).mpr aim

/-- Fifteen keys fill the first cluster. The second clusters of 4 and 6 are the same, so that 6
moves 4 away to where the search looks. -/
def aiming : List (Key × Value) :=
  [4, 2, 5, 7, 11, 12, 13, 15, 16, 18, 19, 21, 23, 25, 33, 6].map fun key => (key, key * 256)

theorem placed_iff_aimed_moved : ∃ t, (new 32).insertAll firstHash nextHash aiming = some t ∧
    t.dict 16 = ⟨4, some (1024 ||| cuckooBit)⟩ ∧ t.Placed firstHash nextHash := by
  obtain ⟨some_, iff⟩ := @placed_iff_aimed firstHash nextHash 32 (by decide) aiming
  obtain ⟨t, run⟩ := some_ (by decide)
  have moved : ((new 32).insertAll firstHash nextHash aiming).map (fun t => t.dict 16) =
      some ⟨4, some (1024 ||| cuckooBit)⟩ := by
    decide +kernel
  rw [run, Option.map_some, Option.some_inj] at moved
  have checked : ∀ n < 16, ((new 32).insertAll firstHash nextHash (aiming.take n)).all fun t =>
      aiming[n]?.all fun c => (t.usableSlot (t.firstIndex (firstHash c.1)) c.1).isSome ||
        t.firstIndex (nextHash c.1) == t.firstIndex
          (nextHash (t.dict (t.firstIndex (firstHash c.1))).key) := by
    decide +kernel
  refine ⟨t, run, moved, iff.mpr ?_ aiming t (List.prefix_refl _) run⟩
  rintro done c t ⟨rest, eq⟩ run displaces
  have short : (done ++ [c] ++ rest).length = 16 := congrArg List.length eq
  rw [List.length_append, List.length_append, List.length_singleton] at short
  have here := checked done.length (by omega)
  rw [← eq, List.append_assoc, List.take_left, run, List.getElem?_append_right le_rfl, Nat.sub_self]
    at here
  simp only [Option.all_some, List.singleton_append, List.getElem?_cons_zero, displaces.1,
    Option.isSome_none, Bool.false_or, beq_iff_eq] at here
  exact Or.inl here

/-- Both clusters of the keys 2 to 34 are the first one, but the second cluster of 4 is not. -/
def misplacing : List (Key × Value) :=
  [2, 5, 7, 11, 12, 13, 15, 16, 18, 19, 21, 23, 25, 33, 34, 4].map fun key => (key, key * 256)

/-- Inserting 4 moves the pair of 2 to the second cluster of 4. -/
theorem misplacing_not_placed : (∀ c ∈ misplacing, c.2 &&& cuckooBit = 0) ∧
    ∃ t, (new 32).insertAll firstHash nextHash misplacing = some t ∧
      ¬ t.Placed firstHash nextHash := by
  refine ⟨List.all_iff_forall_prop.mp (by decide), ?_⟩
  obtain ⟨t, run, cap, _⟩ := insertAll_written (show locksize ∣ 32 by decide) (by decide)
    firstHash nextHash misplacing
  refine ⟨t, run, fun placed => ?_⟩
  have moved : ((new 32).insertAll firstHash nextHash misplacing).map (fun t => t.dict 16) =
      some ⟨2, some (512 ||| cuckooBit)⟩ := by
    decide +kernel
  rw [run, Option.map_some, Option.some_inj] at moved
  have there := placed 16 (by rw [cap]; decide) (by rw [moved]; decide)
  rw [moved, @firstIndex_congr (new 32) t cap] at there
  rcases there with first | ⟨second, _⟩
  · exact absurd first (by decide)
  · exact absurd second (by decide)

end

end CuckooProbingHash

end Xcache
