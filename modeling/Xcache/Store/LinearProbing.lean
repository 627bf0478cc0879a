import Mathlib.Data.Multiset.Range
import Mathlib.Data.Multiset.Filter
import Xcache.Pair
import Xcache.Lib.Displace

/-! The evicting table of `server/src/linear_probing.cpp`: clusters of 16 slots,
the oldest slot of a full cluster leaves when a new key arrives. -/

namespace Xcache
open Function

structure LinearProbingHash where
  capacity : Nat
  dict : Nat → Pair
  size : Nat

namespace LinearProbingHash

def locksize : Nat := 16

def new (capacity : Nat) : LinearProbingHash := ⟨capacity, fun _ => Pair.fresh, 0⟩

/-- The copying loop: every slot takes over its right neighbour. -/
def shiftLeft (first n : Nat) (dict : Nat → Pair) : Nat → Pair :=
  (List.range n).foldl (fun d j => update d (first + j) (d (first + j + 1))) dict

section
variable (h : Key → BitVec 64)

def firstIndex (t : LinearProbingHash) (key : Key) : Nat :=
  let slot := (h key).toNat % t.capacity
  slot - slot % locksize

/-- The loop over all but the last slot of the cluster. -/
def freeSlot (t : LinearProbingHash) (first : Nat) : Option Nat :=
  (List.range (locksize - 1)).find? fun j => decide ((t.dict (first + j)).key = invalidKey)

/-- The insertion returns the deleted key, or -1. The remainder by a zero capacity traps. -/
def insert (t : LinearProbingHash) (key : Key) (value : Value) : Option (LinearProbingHash × Key) :=
  if t.capacity = 0 then none
  else
    let first := t.firstIndex h key
    match t.freeSlot first with
    | some j =>
      some ({ t with
        dict := update t.dict (first + j) ⟨key, some value⟩
        size := t.size + 1 }, -1)
    | none =>
      let deleteKey := (t.dict first).key
      let dict := shiftLeft first (locksize - 1) t.dict
      some ({ t with dict := update dict (first + locksize - 1) ⟨key, some value⟩ },
        deleteKey)

attribute [grind =] insert

/-- Like the insertion, the search leaves out the last slot of the cluster. -/
def get (t : LinearProbingHash) (key : Key) : Option Value :=
  if t.capacity = 0 then none
  else
    let first := t.firstIndex h key
    match (List.range (locksize - 1)).find? fun j => decide ((t.dict (first + j)).key = key) with
    | some j => (t.dict (first + j)).value
    | none => some noneValue

def hash : IHash LinearProbingHash := ⟨insert h, get h⟩

end

theorem shiftLeft_apply (first n : Nat) (dict : Nat → Pair) (i : Nat) :
    shiftLeft first n dict i = if first ≤ i ∧ i < first + n then dict (i + 1) else dict i := by
  induction n generalizing i with
  | zero => rw [if_neg (by omega)]; rfl
  | succ n ih =>
    have hstep : shiftLeft first (n + 1) dict =
        update (shiftLeft first n dict) (first + n)
          (shiftLeft first n dict (first + n + 1)) := by
      simp only [shiftLeft, List.range_succ, List.foldl_append, List.foldl_cons, List.foldl_nil]
    rw [hstep]
    by_cases hi : i = first + n
    · subst hi
      rw [update_self, ih, if_neg (by omega), if_pos (by omega)]
    · rw [update_of_ne hi, ih]
      exact if_congr (by omega) rfl rfl

/-- The live keys found in the slots `slots`, with multiplicity. -/
def keysIn (dict : Nat → Pair) (slots : Multiset Nat) : Multiset Key :=
  (slots.map fun s => (dict s).key).filter (· ≠ invalidKey)

theorem card_keysIn_le (dict : Nat → Pair) (n : Nat) :
    (keysIn dict (Multiset.range n)).card ≤ n := by
  refine (Multiset.card_le_card (Multiset.filter_le _ _)).trans_eq ?_
  rw [Multiset.card_map, Multiset.card_range]

def keys (t : LinearProbingHash) : Multiset Key := keysIn t.dict (Multiset.range t.capacity)

theorem mem_keys {t : LinearProbingHash} {key : Key} :
    key ∈ t.keys ↔ key ≠ invalidKey ∧ ∃ s < t.capacity, (t.dict s).key = key := by
  simp only [keys, keysIn, Multiset.mem_filter, Multiset.mem_map, Multiset.mem_range]
  exact and_comm

@[simp] theorem keys_new (capacity : Nat) : (new capacity).keys = 0 := by
  refine Multiset.eq_zero_of_forall_notMem fun key hkey => ?_
  obtain ⟨live, s, _, hs⟩ := mem_keys.mp hkey
  exact live hs.symm

/-- The slots of a cluster of `m + 1` slots after the shift and the store at its end. -/
theorem shiftLeft_update_apply (first m : Nat) (dict : Nat → Pair) (p : Pair) (i : Nat) :
    update (shiftLeft first m dict) (first + m) p i =
      if i = first + m then p
      else if first ≤ i ∧ i < first + m then dict (i + 1) else dict i := by
  by_cases last : i = first + m
  · rw [last, update_self, if_pos rfl]
  · rw [update_of_ne last, if_neg last, shiftLeft_apply]

def cells (dict : Nat → Pair) (n : Nat) : Multiset Pair := (Multiset.range n).map dict

def liveKeys (M : Multiset Pair) : Multiset Key := (M.map Pair.key).filter (· ≠ invalidKey)

theorem liveKeys_cells (dict : Nat → Pair) (n : Nat) :
    liveKeys (cells dict n) = keysIn dict (Multiset.range n) := by
  unfold liveKeys cells keysIn
  rw [Multiset.map_map]
  rfl

theorem liveKeys_cons_live {p : Pair} (live : p.Live) (M : Multiset Pair) :
    liveKeys (p ::ₘ M) = p.key ::ₘ liveKeys M := by
  unfold liveKeys
  rw [Multiset.map_cons, Multiset.filter_cons_of_pos (p := (· ≠ invalidKey)) _ live]

theorem liveKeys_cons_free {p : Pair} (free : p.key = invalidKey) (M : Multiset Pair) :
    liveKeys (p ::ₘ M) = liveKeys M := by
  unfold liveKeys
  rw [Multiset.map_cons, Multiset.filter_cons_of_neg (p := (· ≠ invalidKey)) _ (not_not_intro free)]

theorem cells_update (dict : Nat → Pair) {n s : Nat} (lt : s < n) (p : Pair) :
    dict s ::ₘ cells (update dict s p) n = p ::ₘ cells dict n :=
  map_update (Multiset.nodup_range n) (Multiset.mem_range.mpr lt)

/-- A shift over `m` slots with a store at its end drops the first pair. -/
theorem cells_shiftLeft (dict : Nat → Pair) {n first m : Nat} (le : first + (m + 1) ≤ n)
    (p : Pair) :
    dict first ::ₘ cells (update (shiftLeft first m dict) (first + m) p) n =
      p ::ₘ cells dict n := by
  induction m generalizing p with
  | zero => exact cells_update dict le p
  | succ m ih =>
    -- the last step of the shift is a store of the pair that the new one then overwrites
    have last : update (shiftLeft first (m + 1) dict) (first + (m + 1)) p =
        update (update (shiftLeft first m dict) (first + m)
          (dict (first + m + 1))) (first + (m + 1)) p := by
      funext i
      rw [shiftLeft_update_apply]
      by_cases here : i = first + (m + 1)
      · rw [if_pos here, here, update_self]
      · rw [if_neg here, update_of_ne here, shiftLeft_update_apply]
        by_cases end_ : i = first + m
        · rw [if_pos (by omega), if_pos end_, end_]
        · rw [if_neg end_]
          exact if_congr (by omega) rfl rfl
    have kept : update (shiftLeft first m dict) (first + m) (dict (first + m + 1))
      (first + (m + 1)) = dict (first + m + 1) := by
      rw [shiftLeft_update_apply, if_neg (by omega), if_neg (by omega), Nat.add_assoc]
    have stored :=
      cells_update (update (shiftLeft first m dict) (first + m) (dict (first + m + 1)))
      (s := first + (m + 1)) (n := n) (by omega) p
    rw [← last, kept] at stored
    refine (Multiset.cons_inj_right (dict (first + m + 1))).mp ?_
    rw [Multiset.cons_swap, stored, Multiset.cons_swap, ih (by omega), Multiset.cons_swap]

theorem keysIn_update_free {dict : Nat → Pair} {n s : Nat} (hs : s < n)
    (free : (dict s).key = invalidKey) {key : Key} (live : key ≠ invalidKey) (v : Option Value) :
    keysIn (update dict s ⟨key, v⟩) (Multiset.range n) =
      key ::ₘ keysIn dict (Multiset.range n) := by
  have stored := congrArg liveKeys (cells_update dict hs ⟨key, v⟩)
  rwa [liveKeys_cons_free free, liveKeys_cons_live (p := ⟨key, v⟩) live,
    liveKeys_cells, liveKeys_cells] at stored

theorem keysIn_shift {dict : Nat → Pair} {n first m : Nat} (hn : first + (m + 1) ≤ n)
    (old : (dict first).key ≠ invalidKey) {key : Key} (live : key ≠ invalidKey) (v : Option Value) :
    (dict first).key ::ₘ
        keysIn (update (shiftLeft first m dict) (first + m) ⟨key, v⟩) (Multiset.range n) =
      key ::ₘ keysIn dict (Multiset.range n) := by
  have stored := congrArg liveKeys (cells_shiftLeft dict hn ⟨key, v⟩)
  rwa [liveKeys_cons_live old, liveKeys_cons_live (p := ⟨key, v⟩) live,
    liveKeys_cells, liveKeys_cells] at stored

section
variable (h : Key → BitVec 64)

/-- A capacity that is a multiple of 16 keeps the whole cluster inside the table. -/
theorem firstIndex_cluster {t : LinearProbingHash} (hpos : 0 < t.capacity)
    (hdvd : locksize ∣ t.capacity) (key : Key) :
    t.firstIndex h key + locksize ≤ t.capacity := by
  obtain ⟨n, hn⟩ := hdvd
  have hlt := Nat.mod_lt (h key).toNat hpos
  simp only [firstIndex, locksize] at hn ⊢
  omega

theorem freeSlot_some {t : LinearProbingHash} {first j : Nat} (found : t.freeSlot first = some j) :
    j < locksize - 1 ∧ (t.dict (first + j)).key = invalidKey := by
  have hmem := List.mem_of_find?_eq_some found
  have htest := List.find?_some found
  exact ⟨List.mem_range.mp hmem, of_decide_eq_true htest⟩

theorem freeSlot_none {t : LinearProbingHash} {first : Nat} (full : t.freeSlot first = none)
    {j : Nat} (hj : j < locksize - 1) : (t.dict (first + j)).key ≠ invalidKey := by
  have := List.find?_eq_none.mp full j (List.mem_range.mpr hj)
  exact fun free => this (decide_eq_true free)

theorem insert_isSome {t : LinearProbingHash} (hpos : 0 < t.capacity) (key : Key) (value : Value) :
    ∃ r, t.insert h key value = some r := by
  simp only [insert, if_neg hpos.ne']
  cases t.freeSlot (t.firstIndex h key) with
  | some j => exact ⟨_, rfl⟩
  | none => exact ⟨_, rfl⟩

/-- The key that `insert` returns is the one occurrence that left the table. -/
theorem keys_insert {t t' : LinearProbingHash} (hdvd : locksize ∣ t.capacity) {key d : Key}
    {value : Value} (live : key ≠ invalidKey) (step : t.insert h key value = some (t', d)) :
    t'.capacity = t.capacity ∧
      (d = -1 ∧ t'.keys = key ::ₘ t.keys ∨
        d ≠ -1 ∧ d = (t.dict (t.firstIndex h key)).key ∧ d ::ₘ t'.keys = key ::ₘ t.keys) := by
  by_cases hcap : t.capacity = 0
  · simp only [insert, if_pos hcap, reduceCtorEq] at step
  have inside := firstIndex_cluster h (Nat.pos_of_ne_zero hcap) hdvd key
  simp only [insert, if_neg hcap] at step
  cases found : t.freeSlot (t.firstIndex h key) with
  | some j =>
    rw [found] at step
    cases step
    obtain ⟨hj, free⟩ := freeSlot_some found
    have inTable : t.firstIndex h key + j < t.capacity := by
      simp only [locksize] at hj inside
      omega
    exact ⟨rfl, Or.inl ⟨rfl, keysIn_update_free inTable free live _⟩⟩
  | none =>
    rw [found] at step
    cases step
    have old : (t.dict (t.firstIndex h key)).key ≠ invalidKey :=
      freeSlot_none found (j := 0) (by decide)
    exact ⟨rfl, Or.inr ⟨old, rfl, keysIn_shift inside old live _⟩⟩

end

end LinearProbingHash

end Xcache
