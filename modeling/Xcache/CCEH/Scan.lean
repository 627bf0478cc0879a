import Mathlib.Algebra.Order.BigOperators.Group.Finset
import Mathlib.Order.Interval.Finset.Nat
import Xcache.CCEH.Doubling

/-! The functions of `server/src/cceh.cpp` that look at the whole table. `Utilization` walks over
the directory by the width of the blocks, `Capacity` collects the segments of all entries, and
`FindAnyway` looks at every slot of every entry. -/

namespace Xcache.CCEH
open Blocks (top)

def Segment.numElem (s : Segment) : Nat :=
  (List.finRange kNumSlot).countP fun j => decide ((s.slots j).key ≠ invalidKey)

namespace Table

/-- The slots that `Utilization` counts at entry `i`. -/
def countAt (h : Key → BitVec 64) (t : Table) (i : Nat) : Nat :=
  let s := t.segs (t.cur.entries i)
  (List.finRange kNumSlot).countP fun j =>
    decide (index s.localDepth (h (s.slots j).key) = patternOf t.cur.depth s.localDepth i ∧
      (s.slots j).key ≠ invalidKey)

/-- The loop of `Utilization` from entry `i` on: what it adds to `sum` and to `cnt`. -/
def utilizationLoop (h : Key → BitVec 64) (t : Table) : Nat → Nat → Option (Nat × Nat)
  | 0, _ => none
  | fuel + 1, i =>
    if i < t.cur.capacity then
      (utilizationLoop h t fuel (i + 2 ^ (t.cur.depth - (t.segs (t.cur.entries i)).localDepth))).map
          fun rest =>
        (t.countAt h i + rest.1, rest.2 + 1)
    else some (0, 0)

def segmentSet (t : Table) : Finset Nat := (Finset.range t.cur.capacity).image t.cur.entries

def capacity (t : Table) : Nat := t.segmentSet.card * kNumSlot

/-- The entry and the slot that `FindAnyway` stops at. -/
def scan (t : Table) (key : Key) : Option (Nat × Fin kNumSlot) :=
  (List.range t.cur.capacity).findSome? fun i =>
    ((List.finRange kNumSlot).find? fun j => decide
      (((t.segs (t.cur.entries i)).slots j).key = key)).map (Prod.mk i)

def findAnyway (t : Table) (key : Key) : Option Value :=
  match t.scan key with
  | some p => ((t.segs (t.cur.entries p.1)).slots p.2).value
  | none => some noneValue

variable {h : Key → BitVec 64} {t : Table}

theorem scan_some {key : Key} {p : Nat × Fin kNumSlot} (found : t.scan key = some p) :
    p.1 < t.cur.capacity ∧ ((t.segs (t.cur.entries p.1)).slots p.2).key = key := by
  obtain ⟨i, inside, here⟩ := List.exists_of_findSome?_eq_some found
  obtain ⟨j, hit, rfl⟩ := Option.map_eq_some_iff.mp here
  have test := List.find?_some hit
  exact ⟨List.mem_range.mp inside, of_decide_eq_true test⟩

theorem scan_none {key : Key} (missing : t.scan key = none) {i : Nat} (lt : i < t.cur.capacity)
    (j : Fin kNumSlot) :
    ((t.segs (t.cur.entries i)).slots j).key ≠ key := by
  have here := Option.map_eq_none_iff.mp (List.findSome?_eq_none_iff.mp missing i
    (List.mem_range.mpr lt))
  intro same
  exact List.find?_eq_none.mp here j (List.mem_finRange j) (decide_eq_true same)

theorem Inv.segment_of_live (inv : Inv h t) {i : Nat} (lt : i < 2 ^ t.cur.depth) {j : Fin kNumSlot}
    (live : ((t.segs (t.cur.entries i)).slots j).Live) :
    t.target h ((t.segs (t.cur.entries i)).slots j).key = t.cur.entries i ∧
      j ∈ windowSlots (window (h ((t.segs (t.cur.entries i)).slots j).key)) := by
  obtain ⟨pre, mem⟩ := inv.placed i lt j live
  have le : (t.segs (t.cur.entries i)).localDepth ≤ t.cur.depth := inv.owned.level_le i lt
  have deep := inv.depth_le
  refine ⟨(inv.owned.block i lt _ (inv.index_lt _)).mpr ?_, mem⟩
  rw [← pre, index_eq inv.depth_pos (by omega), Blocks.top_div le (by omega)]

/-- The test of `Utilization` for the prefix drops no pair. -/
theorem Inv.countAt_eq (inv : Inv h t) {i : Nat} (lt : i < 2 ^ t.cur.depth) :
    t.countAt h i = (t.segs (t.cur.entries i)).numElem := by
  have le : (t.segs (t.cur.entries i)).localDepth ≤ t.cur.depth := inv.owned.level_le i lt
  have deep := inv.depth_le
  have small : i < 2 ^ 64 := lt.trans (Nat.pow_lt_pow_right (by decide) (by omega))
  refine List.countP_congr fun j _ => ?_
  rw [decide_eq_true_iff, decide_eq_true_iff]
  refine and_iff_right_of_imp fun live => ?_
  rw [index_eq (inv.local_pos i lt) (by omega), patternOf_eq le (by omega) small]
  exact (inv.placed i lt j live).1

theorem Inv.image_entries (inv : Inv h t) {i : Nat} (lt : i < 2 ^ t.cur.depth)
    (start : i % 2 ^ (t.cur.depth - (t.segs (t.cur.entries i)).localDepth) = 0) :
    (Finset.Ico i (2 ^ t.cur.depth)).image t.cur.entries = Insert.insert (t.cur.entries i)
      ((Finset.Ico (i + 2 ^ (t.cur.depth - (t.segs (t.cur.entries i)).localDepth))
        (2 ^ t.cur.depth)).image t.cur.entries) := by
  ext a
  simp only [Finset.mem_image, Finset.mem_insert, Finset.mem_Ico]
  constructor
  · rintro ⟨j, ⟨le, below⟩, rfl⟩
    by_cases inside : j < i + 2 ^ (t.cur.depth - (t.segs (t.cur.entries i)).localDepth)
    · exact Or.inl (inv.owned.entry_eq start le inside below)
    · exact Or.inr ⟨j, ⟨not_lt.mp inside, below⟩, rfl⟩
  · rintro (rfl | ⟨j, ⟨le, below⟩, rfl⟩)
    · exact ⟨i, ⟨le_refl i, lt⟩, rfl⟩
    · exact ⟨j, ⟨(Nat.le_add_right _ _).trans le, below⟩, rfl⟩

/-- From the start of a block on, the walk comes to each segment once. -/
theorem Inv.utilizationLoop_eq (inv : Inv h t) (fuel : Nat) {i : Nat} (le : i ≤ 2 ^ t.cur.depth)
    (enough : 2 ^ t.cur.depth < fuel + i)
    (start : i < 2 ^ t.cur.depth → i % 2 ^ (t.cur.depth - (t.segs (t.cur.entries i)).localDepth) =
      0) :
    t.utilizationLoop h fuel i = some (∑ a ∈ (Finset.Ico i (2 ^ t.cur.depth)).image t.cur.entries,
      (t.segs a).numElem,
      ((Finset.Ico i (2 ^ t.cur.depth)).image t.cur.entries).card) := by
  induction fuel generalizing i with
  | zero => omega
  | succ fuel ih =>
    rw [utilizationLoop, inv.capacity]
    by_cases lt : i < 2 ^ t.cur.depth
    · have begins := start lt
      have fits : i + 2 ^ (t.cur.depth - (t.segs (t.cur.entries i)).localDepth) ≤ 2 ^ t.cur.depth :=
        @Blocks.Owned.end_le _ _ _ (fun a => (t.segs a).localDepth) _ begins lt
      have width : 0 < 2 ^ (t.cur.depth - (t.segs (t.cur.entries i)).localDepth) := by positivity
      have rest := ih fits (by omega) fun next => inv.owned.next_start begins rfl next
      have new : t.cur.entries i ∉ (Finset.Ico
        (i + 2 ^ (t.cur.depth - (t.segs (t.cur.entries i)).localDepth))
          (2 ^ t.cur.depth)).image t.cur.entries := by
        intro mem
        obtain ⟨j, inside, same⟩ := Finset.mem_image.mp mem
        obtain ⟨behind, below⟩ := Finset.mem_Ico.mp inside
        exact inv.owned.entry_ne behind below same
      rw [if_pos lt, rest, inv.image_entries lt begins, Finset.sum_insert new,
        Finset.card_insert_of_notMem new, Option.map_some, inv.countAt_eq lt]
    · rw [if_neg lt, Finset.Ico_eq_empty lt]
      rfl

theorem numElem_le (s : Segment) : s.numElem ≤ kNumSlot :=
  List.countP_le_length.trans_eq (List.length_finRange)

theorem Inv.findAnyway_eq (inv : Inv h t) {key : Key} (valid : key ≠ invalidKey)
    (once : ∀ j j', ((t.segs (t.target h key)).slots j).key = key →
      ((t.segs (t.target h key)).slots j').key = key → j = j') :
    t.findAnyway key = t.get h key := by
  unfold findAnyway get
  rw [if_neg (by rw [inv.free]; decide)]
  dsimp only
  cases hit : (windowSlots (window (h key))).find? fun i =>
    ((t.segs (t.target h key)).slots i).key = key with
  | some j =>
    have test := List.find?_some hit
    have stored : ((t.segs (t.target h key)).slots j).key = key := of_decide_eq_true test
    cases found : t.scan key with
    | none => exact absurd stored (scan_none found (inv.capacity ▸ inv.index_lt key) j)
    | some p =>
      obtain ⟨lt, same⟩ := scan_some found
      have place :=
        (inv.segment_of_live (inv.capacity ▸ lt) (show Pair.Live _ by rwa [Pair.Live, same])).1
      rw [same] at place
      rw [← place] at same
      obtain rfl := once p.2 j same stored
      dsimp only
      rw [place]
  | none =>
    cases found : t.scan key with
    | none => rfl
    | some p =>
      obtain ⟨lt, same⟩ := scan_some found
      obtain ⟨place, mem⟩ :=
        inv.segment_of_live (inv.capacity ▸ lt) (show Pair.Live _ by rwa [Pair.Live, same])
      rw [same] at place mem
      rw [← place] at same
      exact absurd (decide_eq_true same) (List.find?_eq_none.mp hit p.2 mem)

/-- In every table that passes of calls, one after another, lead to: the walk of `Utilization` ends,
comes to each segment of the directory once and counts all its pairs, so that it divides by the
slots that `Capacity` counts and never gives more than 100; and `FindAnyway`, which looks
everywhere, gives what `Get` gives for every key that its segment has in one slot at most, the
missing keys included. -/
theorem scans_agree {depth : Nat} (pos : 1 ≤ depth) {t₀ : Table} (made : construct depth = some t₀)
    (run : Relation.ReflTransGen (Pass h) t₀ t) :
    (∃ sum cnt, t.utilizationLoop h (t.cur.capacity + 1) 0 = some (sum, cnt) ∧
      sum = ∑ a ∈ t.segmentSet, (t.segs a).numElem ∧ cnt * kNumSlot = t.capacity ∧
        sum ≤ t.capacity) ∧
    ∀ key, key ≠ invalidKey → (∀ j j', ((t.segs (t.target h key)).slots j).key = key →
      ((t.segs (t.target h key)).slots j').key = key → j = j') →
        t.findAnyway key = t.get h key := by
  have inv : Inv h t := (inv_construct pos made).passes run
  refine ⟨?_, fun key valid once => inv.findAnyway_eq valid once⟩
  have walk := inv.utilizationLoop_eq (t.cur.capacity + 1) (Nat.zero_le _)
    (by rw [inv.capacity]; omega) fun _ => Nat.zero_mod _
  have all : (Finset.Ico 0 (2 ^ t.cur.depth)).image t.cur.entries = t.segmentSet := by
    rw [segmentSet, inv.capacity, Finset.range_eq_Ico]
  rw [all] at walk
  refine ⟨_, _, walk, rfl, rfl, ?_⟩
  have bound := Finset.sum_le_card_nsmul t.segmentSet (fun a => (t.segs a).numElem) kNumSlot
    fun a _ => numElem_le (t.segs a)
  rwa [smul_eq_mul] at bound

/-- Three segments, two of them split off: the walk counts each once, and `midKey` is found in its
new segment. -/
theorem scans_agree_doubled : ∃ t₀ t, construct 1 = some t₀ ∧ Relation.ReflTransGen (Pass id) t₀ t ∧
    (t.segs (t.cur.entries 0)).localDepth = 2 ∧ (t.segs (t.cur.entries 2)).localDepth = 1 ∧
    (∃ sum, t.utilizationLoop id 5 0 = some (sum, 3) ∧ 0 < sum ∧ t.capacity = 3 * kNumSlot) ∧
      t.findAnyway midKey = some 1 ∧ t.get id midKey = some 1 := by
  obtain ⟨t₀, made⟩ : ∃ t₀, construct 1 = some t₀ := ⟨_, rfl⟩
  obtain ⟨t, stores, two⟩ := twoFull_stores made
  have run := (passes_of_calls stores.calls).tail ⟨0, 1, Or.inr (two.doubles 1)⟩
  obtain ⟨inv, moved, _⟩ := two.grown
  obtain ⟨e₀, e₁, e₂, e₃⟩ := two.grown_entries
  obtain ⟨target, seg⟩ := two.grown_mid
  obtain ⟨j, mem, pair⟩ := two.mid_kept
  have four : (t.doubleDir id 0).cur.capacity = 4 := by
    rw [inv.capacity, two.grown_depth]
    rfl
  have set : (t.doubleDir id 0).segmentSet = {2, 3, 1} := by
    rw [segmentSet, four, show Finset.range 4 = {0, 1, 2, 3} by decide, Finset.image_insert,
      Finset.image_insert, Finset.image_insert, Finset.image_singleton, e₀, e₁, e₂, e₃]
    decide
  have three : (t.doubleDir id 0).capacity = 3 * kNumSlot := by rw [capacity, set]; rfl
  have once : ∀ j', (((t.doubleDir id 0).segs ((t.doubleDir id 0).target id midKey)).slots j').key =
    midKey → j' = j := by
    rw [target, seg]
    intro j' key
    exact two.mid_once (by rw [Pair.Live, key]; decide) (by rw [pair]; decide)
  have got : (t.doubleDir id 0).get id midKey = some 1 := by
    unfold get
    rw [if_neg (by rw [inv.free]; decide)]
    dsimp only
    cases hit : (windowSlots (window (id midKey))).find? fun i => decide
        ((((t.doubleDir id 0).segs ((t.doubleDir id 0).target id midKey)).slots i).key = midKey)
          with
    | none =>
      have differs := List.find?_eq_none.mp hit j mem
      rw [target, seg, pair] at differs
      exact absurd (decide_eq_true rfl) differs
    | some j' =>
      have test := List.find?_some hit
      obtain rfl := once j' (of_decide_eq_true test)
      rw [target, seg]
      exact congrArg Pair.value pair
  obtain ⟨⟨sum, cnt, walk, total, slots, _⟩, agree⟩ := scans_agree (h := id) (le_refl 1) made run
  rw [three] at slots
  obtain rfl := Nat.eq_of_mul_eq_mul_right (by decide) slots
  rw [four] at walk
  have live : (((t.doubleDir id 0).segs 3).slots j).key ≠ invalidKey := by rw [seg, pair]; decide
  have positive : 0 < sum := by
    rw [total]
    exact Finset.sum_pos' (fun _ _ => Nat.zero_le _) ⟨3, by rw [set]; decide,
      List.countP_pos_iff.mpr ⟨j, List.mem_finRange j, decide_eq_true live⟩⟩
  refine ⟨t₀, _, made, run, ?_, ?_, ⟨sum, walk, positive, three⟩, ?_, got⟩
  · have low := moved.child
    rw [two.grown_low, two.low] at low
    rw [e₀, low, child_localDepth, two.levels 0 (by decide)]
  · rw [e₂, two.grown_high, two.levels 1 (by decide)]
  · rw [agree midKey (by decide) fun a b ha hb => (once a ha).trans (once b hb).symm, got]

end Table

end Xcache.CCEH
