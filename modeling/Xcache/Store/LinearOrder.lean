import Mathlib.Data.List.GetD
import Xcache.Store.LinearReads

/-! In which order a full cluster of `server/src/linear_probing.cpp` gives up its keys. -/

namespace Xcache.LinearProbingHash

/-- The sixteenth and the seventeenth key of a cluster stand in each other's place. -/
def swapped (k : Nat) : Nat := if k = 15 then 16 else if k = 16 then 15 else k

/-- Which of the `n` keys that a cluster has received stands in its slot `i`. -/
def place (n i : Nat) : Option Nat :=
  if n ≤ 15 then if i < n then some i else none
  else if n = 16 then if i < 14 then some (i + 1) else if i = 14 then none else some 15
  else some (swapped (n - 16 + i))

/-- The slot that the next key fills, when there is a free one among the first fifteen. -/
def opening (n : Nat) : Option Nat := if n < 15 then some n else if n = 16 then some 14 else none

theorem place_lt {n i k : Nat} (lt : i < 16) (here : place n i = some k) : k < n := by
  grind [place, swapped]

theorem place_fill {n i j : Nat} (free : opening n = some j) (lt : i < 16) :
    place (n + 1) i = if i = j then some n else place n i := by
  grind [opening, place, swapped]

theorem place_shift {n i : Nat} (full : opening n = none) (lt : i < 16) :
    place (n + 1) i = if i = 15 then some n else place n (i + 1) := by
  grind [opening, place, swapped]

theorem place_opening {n j : Nat} (free : opening n = some j) :
    j < 15 ∧ place n j = none ∧ ∀ i < j, ∃ k, place n i = some k := by
  refine ⟨by grind [opening], by grind [opening, place], fun i lt => ?_⟩
  exact Option.ne_none_iff_exists'.mp (by grind [opening, place])

theorem place_full {n i : Nat} (full : opening n = none) (lt : i < 15) :
    ∃ k, place n i = some k := by
  exact Option.ne_none_iff_exists'.mp (by grind [opening, place])

/-- The first slot holds the oldest of the keys, except after the thirty-first one. -/
theorem place_first_iff {n k : Nat} (full : opening n = none) (first : place n 0 = some k) :
    (∀ i < 16, ∀ k', place n i = some k' → k ≤ k') ↔ n ≠ 31 := by
  constructor
  · rintro least rfl
    cases first
    exact absurd (least 1 (by decide) 15 rfl) (by decide)
  · intro ne i lt k' here
    grind [opening, place, swapped]

/-- The key in slot `i` of a cluster that has received the keys `keys` in this order. -/
def content (keys : List Key) (i : Nat) : Key :=
  match place keys.length i with
  | some k => keys.getD k invalidKey
  | none => invalidKey

section
variable {keys : List Key} {i j : Nat}

theorem content_some {k : Nat} (here : place keys.length i = some k) :
    content keys i = keys.getD k invalidKey := by
  simp [content, here]

theorem content_none (here : place keys.length i = none) : content keys i = invalidKey := by
  simp [content, here]

theorem content_live (live : ∀ key ∈ keys, key ≠ invalidKey) (lt : i < 16) {k : Nat}
    (here : place keys.length i = some k) :
    content keys i ≠ invalidKey := by
  have bound := place_lt lt here
  rw [content_some here, List.getD_eq_getElem _ _ bound]
  exact live _ (List.getElem_mem bound)

/-- A key received later does not move the ones before. -/
theorem content_append (key : Key) (lt : i < 16) :
    (match place keys.length i with
      | some k => (keys ++ [key]).getD k invalidKey
      | none => invalidKey) = content keys i := by
  cases here : place keys.length i with
  | none => simp [content_none here]
  | some k =>
    rw [content_some here]
    exact List.getD_append _ _ _ _ (place_lt lt here)

theorem content_fill (free : opening keys.length = some j) (key : Key) (lt : i < 16) :
    content (keys ++ [key]) i = if i = j then key else content keys i := by
  rw [content, List.length_append, List.length_singleton, place_fill free lt]
  by_cases here : i = j
  · simp [here]
  · rw [if_neg here, if_neg here, content_append key lt]

theorem content_shift (full : opening keys.length = none) (key : Key) (lt : i < 16) :
    content (keys ++ [key]) i = if i = 15 then key else content keys (i + 1) := by
  rw [content, List.length_append, List.length_singleton, place_shift full lt]
  by_cases here : i = 15
  · simp [here]
  · rw [if_neg here, if_neg here, content_append key (by omega)]

end

section
variable (h : Key → BitVec 64)

/-- Where the cluster of a key begins, in every table of the capacity. -/
def cluster (capacity : Nat) (key : Key) : Nat := (new capacity).firstIndex h key

def received (capacity : Nat) (key : Key) (done : List Key) : List Key :=
  done.filter fun k => decide (cluster h capacity k = cluster h capacity key)

/-- The slots of every cluster, after some insertions. -/
def Arranged (t : LinearProbingHash) (done : List Key) : Prop :=
  ∀ key, ∀ i < locksize, (t.dict (cluster h t.capacity key + i)).key =
    content (received h t.capacity key done) i

end

section
variable {h : Key → BitVec 64} {t t' : LinearProbingHash} {done : List Key} {key d : Key}
  {value : Value} {first j : Nat}

theorem freeSlot_eq_opening {keys : List Key}
    (slots : ∀ i < locksize, (t.dict (first + i)).key = content keys i)
    (live : ∀ key ∈ keys, key ≠ invalidKey) : t.freeSlot first = opening keys.length := by
  cases free : opening keys.length with
  | some j =>
    obtain ⟨lt, none_, before⟩ := place_opening free
    refine freeSlot_eq_some_iff.mpr ⟨lt, Nat.zero_le j, ?_, fun i _ lt' => ?_⟩
    · rw [slots j (lt.trans (by decide)), content_none none_]
    · obtain ⟨k, here⟩ := before i lt'
      rw [slots i (lt'.trans (lt.trans (by decide)))]
      exact content_live live (lt'.trans (lt.trans (by decide))) here
  | none =>
    cases found : t.freeSlot first with
    | none => rfl
    | some j =>
      obtain ⟨lt, copy⟩ := freeSlot_eq_some_iff.mp found
      obtain ⟨k, here⟩ := place_full free lt
      have empty := copy.here
      rw [slots j (lt.trans (by decide))] at empty
      exact absurd empty (content_live live (lt.trans (by decide)) here)

/-- Two clusters are the same or have no slot in common. -/
theorem cluster_apart {capacity : Nat} {key other : Key}
    (ne : cluster h capacity other ≠ cluster h capacity key) :
    cluster h capacity other + locksize ≤ cluster h capacity key ∨
      cluster h capacity key + locksize ≤ cluster h capacity other := by
  simp only [cluster, firstIndex, locksize] at ne ⊢
  omega

theorem received_self {capacity : Nat} {other : Key}
    (same : cluster h capacity key = cluster h capacity other) :
    received h capacity other (done ++ [key]) = received h capacity other done ++ [key] := by
  simp [received, same]

theorem received_other {capacity : Nat} {other : Key}
    (ne : cluster h capacity key ≠ cluster h capacity other) :
    received h capacity other (done ++ [key]) = received h capacity other done := by
  simp [received, ne]

theorem received_congr {capacity : Nat} {other : Key}
    (same : cluster h capacity key = cluster h capacity other) :
    received h capacity other done = received h capacity key done := by
  simp [received, same]

theorem Arranged.change (arranged : Arranged h t done) {dict : Nat → Pair} {size : Nat}
    (outside : ∀ x, x < cluster h t.capacity key ∨ cluster h t.capacity key + locksize ≤ x →
      dict x = t.dict x)
    (inside : ∀ i < locksize, (dict (cluster h t.capacity key + i)).key =
      content (received h t.capacity key done ++ [key]) i) :
    Arranged h ⟨t.capacity, dict, size⟩ (done ++ [key]) := by
  intro other i lt
  change (dict (cluster h t.capacity other + i)).key =
    content (received h t.capacity other (done ++ [key])) i
  by_cases same : cluster h t.capacity key = cluster h t.capacity other
  · rw [received_self same, received_congr same, ← same]
    exact inside i lt
  · rw [received_other same, outside _ (by rcases cluster_apart same with le | le <;> omega)]
    exact arranged other i lt

/-- The key that the next insertion into this cluster gives up, with -1 for none. -/
def evicted (keys : List Key) : Key :=
  match opening keys.length with
  | some _ => -1
  | none => content keys 0

theorem Arranged.insert (arranged : Arranged h t done) (live : ∀ key ∈ done, key ≠ invalidKey)
    (hpos : 0 < t.capacity) (key : Key) (value : Value) :
    ∃ t', t.insert h key value = some (t', evicted (received h t.capacity key done)) ∧
      t'.capacity = t.capacity ∧
      Arranged h t' (done ++ [key]) := by
  have slots : ∀ i < locksize, (t.dict (t.firstIndex h key + i)).key =
      content (received h t.capacity key done) i :=
    arranged key
  have live' : ∀ k ∈ received h t.capacity key done, k ≠ invalidKey :=
    fun k mem => live k (List.mem_of_mem_filter mem)
  have next := freeSlot_eq_opening slots live'
  cases free : opening (received h t.capacity key done).length with
  | some j =>
    have gives : evicted (received h t.capacity key done) = -1 := by simp [evicted, free]
    rw [gives]
    refine ⟨_, insert_of_free hpos (next.trans free) value, rfl, ?_⟩
    have lt : j < 15 := (place_opening free).1
    refine arranged.change (fun x apart => Function.update_of_ne ?_ _ _) fun i lt' => ?_
    · change x ≠ cluster h t.capacity key + j
      simp only [locksize] at apart
      omega
    · rw [content_fill free key lt', ← slots i lt']
      by_cases here : i = j
      · subst here
        exact (congrArg Pair.key (Function.update_self ..)).trans (if_pos rfl).symm
      · rw [if_neg here]
        exact congrArg Pair.key (Function.update_of_ne
          (by change cluster h t.capacity key + i ≠ cluster h t.capacity key + j; omega) _ _)
  | none =>
    have head : (t.dict (t.firstIndex h key)).key = content (received h t.capacity key done) 0 :=
      slots 0 (by decide)
    have gives : evicted (received h t.capacity key done) = (t.dict (t.firstIndex h key)).key := by
      simp [evicted, free, head]
    rw [gives]
    refine ⟨_, insert_of_full hpos (next.trans free) value, rfl, ?_⟩
    have moved := fun x => shiftLeft_update_apply (t.firstIndex h key) 15 t.dict ⟨key, some value⟩ x
    refine arranged.change (fun x apart => (moved x).trans ?_) fun i lt' =>
      (congrArg Pair.key (moved _)).trans ?_
    · change x < t.firstIndex h key ∨ t.firstIndex h key + 16 ≤ x at apart
      rw [if_neg (by omega), if_neg (by omega)]
    · have eq : cluster h t.capacity key = t.firstIndex h key := rfl
      have lt'' : i < 16 := lt'
      rw [content_shift free key lt'', eq]
      by_cases last : i = 15
      · rw [if_pos (by omega), if_pos last]
      · rw [if_neg (by omega), if_pos (by omega), if_neg last, Nat.add_assoc]
        exact slots (i + 1) (by change i + 1 < 16; omega)

theorem insertAll_arranged {capacity : Nat} (hpos : 0 < capacity) (inserts : List (Key × Value))
    (live : ∀ p ∈ inserts, p.1 ≠ invalidKey) :
    ∃ t, insertAll h (new capacity) inserts = some t ∧ t.capacity = capacity ∧
      Arranged h t (inserts.map Prod.fst) := by
  induction inserts using List.reverseRecOn with
  | nil => exact ⟨new capacity, rfl, rfl, fun _ _ _ => rfl⟩
  | append_singleton done p ih =>
    obtain ⟨t, before, same, arranged⟩ := ih fun p mem => live p (List.mem_append_left _ mem)
    have old : ∀ key ∈ done.map Prod.fst, key ≠ invalidKey :=
      List.forall_mem_map.mpr fun p mem => live p (List.mem_append_left _ mem)
    obtain ⟨t', next, same', arranged'⟩ := arranged.insert old (same ▸ hpos) p.1 p.2
    refine ⟨t', ?_, same'.trans same, by simpa using arranged'⟩
    unfold insertAll at before ⊢
    rw [Runs.run_concat, before]
    simp [next]

/-- Among the keys stored in the cluster of `key` before it arrives, `d` was inserted first. -/
def Earliest (h : Key → BitVec 64) (t : LinearProbingHash) (order : List Key)
    (key d : Key) : Prop :=
  (∃ i < locksize, (t.dict (t.firstIndex h key + i)).key = d) ∧
    ∀ i < locksize, (t.dict (t.firstIndex h key + i)).key ≠ invalidKey →
      order.idxOf d ≤ order.idxOf (t.dict (t.firstIndex h key + i)).key

theorem idxOf_filter_le {α : Type*} [DecidableEq α] {p : α → Bool} {a b : α} (pa : p a) (pb : p b)
    (l : List α) :
    (l.filter p).idxOf a ≤ (l.filter p).idxOf b ↔ l.idxOf a ≤ l.idxOf b := by
  induction l with
  | nil => simp
  | cons x rest ih =>
    by_cases px : p x
    · rw [List.filter_cons_of_pos px]
      by_cases xa : x = a
      · simp [xa]
      · by_cases xb : x = b
        · subst xb
          simp [List.idxOf_cons_ne _ xa]
        · simpa [List.idxOf_cons_ne _ xa, List.idxOf_cons_ne _ xb] using ih
    · rw [List.filter_cons_of_neg px, ih]
      have xa : x ≠ a := fun eq => px (eq ▸ pa)
      have xb : x ≠ b := fun eq => px (eq ▸ pb)
      simp [List.idxOf_cons_ne _ xa, List.idxOf_cons_ne _ xb]

/-- In a full cluster the first slot holds the earliest key, except when the thirty-second key
arrives. -/
theorem earliest_iff (arranged : Arranged h t done) (live : ∀ key ∈ done, key ≠ invalidKey)
    (distinct : done.Nodup) (full : opening (received h t.capacity key done).length = none) :
    Earliest h t done key (content (received h t.capacity key done) 0) ↔
      (received h t.capacity key done).length ≠ 31 := by
  obtain ⟨k, first⟩ := place_full full (i := 0) (by decide)
  rw [← place_first_iff full first]
  have slots : ∀ i < locksize, (t.dict (t.firstIndex h key + i)).key =
      content (received h t.capacity key done) i :=
    arranged key
  have live' : ∀ k ∈ received h t.capacity key done, k ≠ invalidKey :=
    fun k mem => live k (List.mem_of_mem_filter mem)
  -- the order of the insertions is the order of the keys that the cluster has received
  have order : ∀ {a b : Nat}, a < (received h t.capacity key done).length →
    b < (received h t.capacity key done).length →
      (done.idxOf ((received h t.capacity key done).getD a invalidKey) ≤
        done.idxOf ((received h t.capacity key done).getD b invalidKey) ↔ a ≤ b) := by
    intro a b lt lt'
    have nodup : (received h t.capacity key done).Nodup := distinct.filter _
    have mem := List.of_mem_filter (List.getElem_mem lt)
    have mem' := List.of_mem_filter (List.getElem_mem lt')
    have filtered :=
      @idxOf_filter_le _ _ (fun k => decide (cluster h t.capacity k = cluster h t.capacity key))
        _ _ mem mem' done
    rw [List.getD_eq_getElem _ _ lt, List.getD_eq_getElem _ _ lt', ← filtered]
    change (received h t.capacity key done).idxOf _ ≤ (received h t.capacity key done).idxOf _ ↔
      a ≤ b
    rw [nodup.idxOf_getElem a lt, nodup.idxOf_getElem b lt']
  constructor
  · rintro ⟨-, least⟩ i lt k' here
    have le := least i lt (by rw [slots i lt]; exact content_live live' lt here)
    rw [slots i lt, content_some first, content_some here] at le
    exact (order (place_lt (by decide) first) (place_lt lt here)).mp le
  · intro least
    refine ⟨⟨0, by decide, slots 0 (by decide)⟩, fun i lt occupied => ?_⟩
    rw [slots i lt] at occupied ⊢
    cases here : place (received h t.capacity key done).length i with
    | none => exact absurd (content_none here) occupied
    | some k' =>
      rw [content_some first, content_some here]
      exact (order (place_lt (by decide) first) (place_lt lt here)).mpr (least i lt k' here)

/-- Every insertion returns, and the key that it gives up is the earliest of its cluster. -/
def Fifo (h : Key → BitVec 64) (capacity : Nat) (inserts : List (Key × Value)) : Prop :=
  ∀ done p, done ++ [p] <+: inserts → ∃ t t' d, insertAll h (new capacity) done = some t ∧
    t.insert h p.1 p.2 = some (t', d) ∧ (d ≠ -1 → Earliest h t (done.map Prod.fst) p.1 d)

theorem earliest_evicted_iff (arranged : Arranged h t done) (live : ∀ key ∈ done, key ≠ invalidKey)
    (distinct : done.Nodup) :
    (evicted (received h t.capacity key done) ≠ -1 →
      Earliest h t done key (evicted (received h t.capacity key done))) ↔
        (received h t.capacity key done).length ≠ 31 := by
  cases free : opening (received h t.capacity key done).length with
  | some j =>
    have few : (received h t.capacity key done).length ≠ 31 := by
      intro eq
      rw [eq] at free
      simp [opening] at free
    exact ⟨fun _ => few, fun _ ne => absurd (by simp [evicted, free]) ne⟩
  | none =>
    have eq : evicted (received h t.capacity key done) =
        content (received h t.capacity key done) 0 := by
      simp [evicted, free]
    obtain ⟨k, first⟩ := place_full free (i := 0) (by decide)
    have ne : content (received h t.capacity key done) 0 ≠ -1 :=
      content_live (fun k mem => live k (List.mem_of_mem_filter mem)) (by decide) first
    rw [eq, ← earliest_iff arranged live distinct free]
    exact ⟨fun first => first ne, fun first _ => first⟩

/-- The table evicts in the order of insertion exactly as long as no insertion is the thirty-second
of its cluster. -/
theorem fifo_iff_not_thirty_second (h : Key → BitVec 64) {capacity : Nat} (hpos : 0 < capacity)
    (inserts : List (Key × Value)) (distinct : (inserts.map Prod.fst).Nodup)
    (live : ∀ p ∈ inserts, p.1 ≠ invalidKey) :
    Fifo h capacity inserts ↔
      ∀ done p, done ++ [p] <+: inserts → (received h capacity p.1 (done.map Prod.fst)).length ≠
        31 := by
  refine forall_congr' fun done => forall_congr' fun p => forall_congr' fun le => ?_
  have early : done <+: inserts := (List.prefix_append _ _).trans le
  obtain ⟨t, reached, same, arranged⟩ :=
    @insertAll_arranged h capacity hpos done fun p mem => live p (early.subset mem)
  have distinct' : (done.map Prod.fst).Nodup := distinct.sublist (early.sublist.map _)
  have live' : ∀ key ∈ done.map Prod.fst, key ≠ invalidKey :=
    List.forall_mem_map.mpr fun p mem => live p (early.subset mem)
  obtain ⟨t', next, -, -⟩ := arranged.insert live' (same ▸ hpos) p.1 p.2
  rw [← same, ← earliest_evicted_iff arranged live' distinct', same]
  constructor
  · rintro ⟨u, u', d, reached', next', first⟩
    cases reached.symm.trans reached'
    cases next.symm.trans next'
    rwa [same] at first
  · intro first
    exact ⟨t, t', _, reached, next, same ▸ first⟩

def thirtyOne : List (Key × Value) := (List.range 31).map fun i => (BitVec.ofNat 64 i, 7)

theorem live_thirtyOne : ∀ p ∈ thirtyOne, p.1 ≠ invalidKey := by
  intro p mem same
  obtain ⟨i, lt, rfl⟩ := List.mem_map.mp mem
  have value := congrArg BitVec.toNat same
  simp only [List.mem_range] at lt
  simp [invalidKey] at value
  omega

/-- Fifteen keys are given up, in the order in which they came. -/
theorem fifo_iff_not_thirty_second_once_round : Fifo (fun _ => 0) 16 thirtyOne := by
  refine (fifo_iff_not_thirty_second (fun _ => 0) (Nat.succ_pos 15) thirtyOne
    (by decide +kernel) live_thirtyOne).mpr ?_
  intro done p le
  have before := le.length_le
  have some := List.length_filter_le (fun k =>
    decide (cluster (fun _ => 0) 16 k = cluster (fun _ => 0) 16 p.1))
    (done.map Prod.fst)
  rw [List.length_append, List.length_singleton, thirtyOne, List.length_map, List.length_range]
    at before
  rw [List.length_map] at some
  exact ((some.trans (Nat.le_of_lt_succ before)).trans_lt (by decide)).ne

/-- The thirty-second key of a cluster drives out the key 16 while the older key 15 stays. -/
theorem thirty_second_not_fifo : ¬ Fifo (fun _ => 0) 16 (thirtyOne ++ [(31, 7)]) := by
  intro fifo
  obtain ⟨t, t', d, reached, next, first⟩ := fifo thirtyOne (31, 7) (List.prefix_refl _)
  have live : ∀ key ∈ thirtyOne.map Prod.fst, key ≠ invalidKey :=
    List.forall_mem_map.mpr live_thirtyOne
  obtain ⟨u, reached', same, arranged⟩ :=
    @insertAll_arranged (fun _ => 0) 16 (Nat.succ_pos 15) thirtyOne live_thirtyOne
  cases reached.symm.trans reached'
  obtain ⟨u', next', -, -⟩ := arranged.insert live (same ▸ Nat.succ_pos 15) 31 7
  cases next.symm.trans next'
  have all : received (fun _ => 0) t.capacity 31 (thirtyOne.map Prod.fst) =
      thirtyOne.map Prod.fst := by
    simp [received, cluster, firstIndex]
  have many := (earliest_evicted_iff arranged live (by decide +kernel)).mp first
  rw [all] at many
  exact many rfl

end

end Xcache.LinearProbingHash
