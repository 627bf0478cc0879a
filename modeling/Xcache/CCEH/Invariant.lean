import Xcache.CCEH.Table

/-! What one thread's passes through `Insert` keep: every segment owns one aligned
block of the directory, and its pairs have the prefix of the block and lie in their
windows. -/

namespace Xcache.CCEH
open Blocks (top writeAll writeAll_apply halved doubled Owned)

theorem stores_spec {x k s0 s1 : Nat} (pos : 1 ≤ k) (le : k ≤ 30) :
    (∀ p ∈ stores x k s0 s1, p.1 / 2 ^ k = x / 2 ^ k ∧
      p.2 = if p.1 / 2 ^ (k - 1) % 2 = 0 then s0 else s1) ∧
    ∀ j, j / 2 ^ k = x / 2 ^ k → j ∈ (stores x k s0 s1).map Prod.fst := by
  obtain ⟨n, rfl⟩ : ∃ n, k = n + 1 := ⟨k - 1, by omega⟩
  rw [Nat.add_sub_cancel]
  by_cases one : n = 0
  · subst one
    simp only [stores, zero_add, pow_one, pow_zero, Nat.div_one, if_true]
    split
    · constructor
      · rintro p hp
        rcases List.mem_pair.mp hp with rfl | rfl
        · exact ⟨by dsimp only; omega, by rw [if_neg (by dsimp only; omega)]⟩
        · exact ⟨rfl, by rw [if_pos (by assumption)]⟩
      · intro j hj
        simp only [List.map_cons, List.map_nil, List.mem_cons, List.not_mem_nil, or_false]
        omega
    · constructor
      · rintro p hp
        rcases List.mem_pair.mp hp with rfl | rfl
        · exact ⟨rfl, by rw [if_neg (by assumption)]⟩
        · exact ⟨by dsimp only; omega, by rw [if_pos (by dsimp only; omega)]⟩
      · intro j hj
        simp only [List.map_cons, List.map_nil, List.mem_cons, List.not_mem_nil, or_false]
        omega
  · have width : stride (n + 1) = 2 * 2 ^ n := by rw [stride, if_pos (by omega), pow_succ']
    have half : 2 * 2 ^ n / 2 = 2 ^ n := Nat.mul_div_cancel_left _ (by decide)
    have mpos : 0 < 2 ^ n := by positivity
    have loc : x - x % (2 * 2 ^ n) = 2 * 2 ^ n * (x / (2 * 2 ^ n)) := by
      have := Nat.div_add_mod x (2 * 2 ^ n)
      omega
    rw [stores, if_neg (by omega), width, half, loc, pow_succ']
    generalize 2 ^ n = m at mpos ⊢
    generalize x / (2 * m) = q
    have offset : ∀ r, r < 2 * m → (2 * m * q + r) / (2 * m) = q ∧
        (2 * m * q + r) / m = 2 * q + r / m := by
      intro r hr
      constructor
      · rw [Nat.mul_add_div (by omega), Nat.div_eq_of_lt hr, Nat.add_zero]
      · rw [Nat.mul_comm 2 m, Nat.mul_assoc, Nat.mul_add_div mpos]
    constructor
    · intro p hp
      rcases List.mem_append.mp hp with hp | hp
      · obtain ⟨i, hi, rfl⟩ := List.mem_map.mp hp
        rw [List.mem_range] at hi
        obtain ⟨block, side⟩ := offset (m + i) (by omega)
        have upper : (m + i) / m = 1 := by
          rw [Nat.add_div_left _ mpos, Nat.div_eq_of_lt hi]
        dsimp only
        rw [Nat.add_assoc, block, side, upper]
        exact ⟨rfl, by rw [if_neg (by omega)]⟩
      · obtain ⟨i, hi, rfl⟩ := List.mem_map.mp hp
        rw [List.mem_range] at hi
        obtain ⟨block, side⟩ := offset i (by omega)
        dsimp only
        rw [block, side, Nat.div_eq_of_lt hi]
        exact ⟨rfl, by rw [if_pos (by omega)]⟩
    · intro j hj
      have split := Nat.div_add_mod j (2 * m)
      have rest := Nat.mod_lt j (show 0 < 2 * m by omega)
      rw [hj] at split
      rw [List.map_append, List.mem_append, List.map_map, List.map_map]
      by_cases upper : m ≤ j % (2 * m)
      · refine Or.inl (List.mem_map.mpr ⟨j % (2 * m) - m, List.mem_range.mpr (by omega), ?_⟩)
        simp only [Function.comp_apply]
        omega
      · refine Or.inr (List.mem_map.mpr ⟨j % (2 * m), List.mem_range.mpr (by omega), ?_⟩)
        simp only [Function.comp_apply]
        omega

theorem stores_overflow {x k s0 s1 : Nat} (big : 31 ≤ k) : stores x k s0 s1 = [] := by
  have none : stride k = 0 := by rw [stride, if_neg (by omega)]
  rw [stores, if_neg (by omega), none]
  rfl

theorem stores_bounds {x k s0 s1 : Nat} {q : Nat × Nat}
    (mem : q ∈ stores x k s0 s1) : 1 ≤ k ∧ k ≤ 30 := by
  constructor
  · by_contra none
    obtain rfl : k = 0 := by omega
    exact absurd mem (List.not_mem_nil)
  · by_contra big
    rw [stores_overflow (by omega)] at mem
    exact absurd mem (List.not_mem_nil)

theorem stores_nodup (x k s0 s1 : Nat) : ((stores x k s0 s1).map Prod.fst).Nodup := by
  unfold stores
  split
  · split
    · simp
    · have : x ≠ x - 1 := by omega
      simpa using this
  · rw [List.map_append, List.map_map, List.map_map]
    refine List.Nodup.append ?_ ?_ ?_
    · exact List.nodup_range.map fun i j eq => by simpa using eq
    · exact List.nodup_range.map fun i j eq => by simpa using eq
    · intro j upper lower
      obtain ⟨i, _, rfl⟩ := List.mem_map.mp upper
      obtain ⟨i', small, eq⟩ := List.mem_map.mp lower
      rw [List.mem_range] at small
      simp only [Function.comp_apply] at eq
      omega

theorem writeAll_stores {x k s0 s1 : Nat} (pos : 1 ≤ k) (le : k ≤ 30) (e : Nat → Nat) :
    writeAll e (stores x k s0 s1) = halved e k x s0 s1 := by
  obtain ⟨agree, all⟩ := @stores_spec x k s0 s1 pos le
  funext j
  rw [writeAll_apply (f := fun j => if j / 2 ^ (k - 1) % 2 = 0 then s0 else s1) fun p hp =>
    (agree p hp).2,
    halved]
  refine if_congr ⟨fun mem => ?_, all j⟩ rfl rfl
  obtain ⟨p, hp, rfl⟩ := List.mem_map.mp mem
  exact (agree p hp).1

theorem writeAll_doublingStores (d : Directory) (e : Nat → Nat) {x s0 s1 j : Nat}
    (hj : j < 2 * d.capacity) :
    writeAll e (doublingStores d x s0 s1) j = doubled d.entries x s0 s1 j := by
  rw [writeAll_apply (f := doubled d.entries x s0 s1), if_pos]
  · refine List.mem_map.mpr ⟨(j, doubled d.entries x s0 s1 j), ?_, rfl⟩
    refine List.mem_flatMap.mpr ⟨j / 2, List.mem_range.mpr (by omega), ?_⟩
    unfold doubled
    rcases Nat.mod_two_eq_zero_or_one j with even | odd
    · have back : j = 2 * (j / 2) := by omega
      split <;> simp [← back]
    · have back : j = 2 * (j / 2) + 1 := by omega
      split <;> simp [odd, ← back]
  · intro p hp
    obtain ⟨i, _, mem⟩ := List.mem_flatMap.mp hp
    have even : 2 * i / 2 = i := by omega
    have odd : (2 * i + 1) / 2 = i := by omega
    split at mem
    · rename_i here
      rcases List.mem_pair.mp mem with rfl | rfl
      · rw [doubled, if_pos (even.trans here), if_pos (Nat.mul_mod_right 2 i)]
      · rw [doubled, if_pos (odd.trans here), if_neg (by omega)]
    · rename_i away
      rcases List.mem_pair.mp mem with rfl | rfl
      · rw [doubled, if_neg (by rwa [even]), even]
      · rw [doubled, if_neg (by rwa [odd]), odd]

namespace Table
variable {h : Key → BitVec 64} {t : Table}

/-- The state between two passes. A target whose split could not be stored, because the
block is too wide for an `int`, stays suspended. -/
structure Inv (h : Key → BitVec 64) (t : Table) : Prop where
  depth_pos : 1 ≤ t.cur.depth
  depth_le : t.cur.depth ≤ 32
  capacity : t.cur.capacity = 2 ^ t.cur.depth
  free : t.cur.sema = 0
  owned : Owned t.cur.depth (fun a => (t.segs a).localDepth) t.cur.entries
  alloc : ∀ i < 2 ^ t.cur.depth, t.cur.entries i < t.nseg
  local_pos : ∀ i < 2 ^ t.cur.depth, 1 ≤ (t.segs (t.cur.entries i)).localDepth
  placed : ∀ i < 2 ^ t.cur.depth, (t.segs (t.cur.entries i)).Placed h
    (i / 2 ^ (t.cur.depth - (t.segs (t.cur.entries i)).localDepth))
  unheld : ∀ i < 2 ^ t.cur.depth, (t.segs (t.cur.entries i)).sema = 0 ∨
    (t.segs (t.cur.entries i)).sema = -1 ∧ 31 ≤ t.cur.depth - (t.segs (t.cur.entries i)).localDepth

namespace Inv

theorem index_lt (inv : Inv h t) (key : Key) : index t.cur.depth (h key) < 2 ^ t.cur.depth :=
  CCEH.index_lt inv.depth_pos (by have := inv.depth_le; omega) _

theorem local_le (inv : Inv h t) (key : Key) :
    (t.segs (t.target h key)).localDepth ≤ t.cur.depth :=
  inv.owned.level_le _ (inv.index_lt key)

theorem target_pos (inv : Inv h t) (key : Key) : 1 ≤ (t.segs (t.target h key)).localDepth :=
  inv.local_pos _ (inv.index_lt key)

theorem target_lt (inv : Inv h t) (key : Key) : t.target h key < t.nseg :=
  inv.alloc _ (inv.index_lt key)

/-- The prefix of the target is the one of the key. -/
theorem target_prefix (inv : Inv h t) (key : Key) :
    index t.cur.depth (h key) / 2 ^ (t.cur.depth - (t.segs (t.target h key)).localDepth) =
      top 64 (t.segs (t.target h key)).localDepth (h key).toNat := by
  have := inv.depth_le
  rw [index_eq inv.depth_pos (by omega), Blocks.top_div (inv.local_le key) (by omega)]

theorem target_placed (inv : Inv h t) (key : Key) :
    (t.segs (t.target h key)).Placed h (top 64 (t.segs (t.target h key)).localDepth
      (h key).toNat) := by
  rw [← inv.target_prefix key]
  exact inv.placed _ (inv.index_lt key)

theorem pattern_eq (inv : Inv h t) (key : Key) :
    patternOf t.cur.depth (t.segs (t.target h key)).localDepth (index t.cur.depth (h key)) =
      top 64 (t.segs (t.target h key)).localDepth (h key).toNat :=
  patternOf_index (inv.local_le key) inv.depth_pos (by have := inv.depth_le; omega) _

end Inv

theorem Inv.findSlot_free (inv : Inv h t) {key : Key} {i : Fin kNumSlot}
    (found : (t.segs (t.target h key)).findSlot h (patternOf t.cur.depth
      (t.segs (t.target h key)).localDepth (index t.cur.depth (h key))) (window (h key)) = some i) :
    i ∈ windowSlots (window (h key)) ∧ ((t.segs (t.target h key)).slots i).key = invalidKey := by
  obtain ⟨mem, usable⟩ := Segment.findSlot_some found
  refine ⟨mem, ?_⟩
  rw [inv.pattern_eq key] at usable
  have le := inv.local_le key
  have := inv.depth_le
  exact not_not.mp ((inv.target_placed key).not_live_of_usable (inv.target_pos key)
    (by omega) usable)

theorem Inv.store (inv : Inv h t) {key : Key} {i : Fin kNumSlot} (value : Value)
    (mem : i ∈ windowSlots (window (h key))) :
    Inv h (t.setSeg (t.target h key) ((t.segs (t.target h key)).set i ⟨key, some value⟩)) := by
  have depth : ∀ b, (Function.update t.segs (t.target h key)
      ((t.segs (t.target h key)).set i ⟨key, some value⟩) b).localDepth =
        (t.segs b).localDepth := by
    intro b
    by_cases same : b = t.target h key
    · rw [same, Function.update_self, Segment.set_localDepth]
    · rw [Function.update_of_ne same]
  refine ⟨inv.depth_pos, inv.depth_le, inv.capacity, inv.free, ?_, inv.alloc, ?_, ?_, ?_⟩
  · simpa only [setSeg_segs, depth, setSeg_cur] using inv.owned
  · simpa only [setSeg_segs, depth, setSeg_cur] using inv.local_pos
  · intro j hj
    have placed := inv.placed j hj
    simp only [setSeg_segs, depth, setSeg_cur] at hj ⊢
    by_cases same : t.cur.entries j = t.target h key
    · rw [same] at placed ⊢
      rw [Function.update_self]
      refine placed.set fun live => ⟨?_, mem⟩
      rw [← inv.target_prefix key]
      -- entry `j` lies in the block of the target
      have block := (inv.owned.block _ (inv.index_lt key) j hj).mp same
      exact block.symm
    · rwa [Function.update_of_ne same]
  · intro j hj
    have unheld := inv.unheld j hj
    simp only [setSeg_segs, depth, setSeg_cur]
    by_cases same : t.cur.entries j = t.target h key
    · rw [same] at unheld ⊢
      rwa [Function.update_self, Segment.set_sema]
    · rwa [Function.update_of_ne same]

/-- What a split may leave in entry `i` of a directory of depth `depth`: an old segment
other than the target, at an index with the same prefix, or one of the halves. -/
def SplitEntry (h : Key → BitVec 64) (t : Table) (key : Key) (depth i entry : Nat) : Prop :=
  (∃ j < 2 ^ t.cur.depth, entry = t.cur.entries j ∧ entry ≠ t.target h key ∧
    i / 2 ^ (depth - (t.segs entry).localDepth) =
      j / 2 ^ (t.cur.depth - (t.segs entry).localDepth)) ∨
  (entry = t.nseg ∧ i / 2 ^ (depth - ((t.segs (t.target h key)).localDepth + 1)) =
    2 * top 64 (t.segs (t.target h key)).localDepth (h key).toNat) ∨
  (entry = t.nseg + 1 ∧ i / 2 ^ (depth - ((t.segs (t.target h key)).localDepth + 1)) =
    2 * top 64 (t.segs (t.target h key)).localDepth (h key).toNat + 1)

/-- The state after a split, for any directory that `SplitEntry` describes. -/
theorem Inv.replace (inv : Inv h t) (key : Key) {t' : Table}
    (segs : t'.segs = (t.splitOff h (t.target h key)).segs)
    (nseg : t'.nseg = t.nseg + 2) (grown : t.cur.depth ≤ t'.cur.depth) (le : t'.cur.depth ≤ 32)
    (capacity : t'.cur.capacity = 2 ^ t'.cur.depth) (free : t'.cur.sema = 0)
    (owned : Owned t'.cur.depth (fun a => (t'.segs a).localDepth) t'.cur.entries)
    (entries : ∀ i < 2 ^ t'.cur.depth, SplitEntry h t key t'.cur.depth i (t'.cur.entries i)) :
    Inv h t' := by
  have deep : (t.segs (t.target h key)).localDepth < 64 := by
    have := inv.local_le key
    omega
  have halves := (inv.target_placed key).split deep
  have levels := Segment.split_localDepth (h := h) (t.segs (t.target h key))
  have semas := Segment.split_sema (h := h) (t.segs (t.target h key))
  have each : ∀ i < 2 ^ t'.cur.depth, t'.cur.entries i < t'.nseg ∧
      1 ≤ (t'.segs (t'.cur.entries i)).localDepth ∧
      (t'.segs (t'.cur.entries i)).Placed h
        (i / 2 ^ (t'.cur.depth - (t'.segs (t'.cur.entries i)).localDepth)) ∧
      ((t'.segs (t'.cur.entries i)).sema = 0 ∨ (t'.segs (t'.cur.entries i)).sema = -1 ∧
        31 ≤ t'.cur.depth - (t'.segs (t'.cur.entries i)).localDepth) := by
    intro i hi
    rw [segs, nseg]
    rcases entries i hi with ⟨j, hj, eq, other, pre⟩ | ⟨eq, pre⟩ | ⟨eq, pre⟩
    · have old : t'.cur.entries i < t.nseg := eq ▸ inv.alloc j hj
      rw [splitOff_old _ _ _ old, if_neg other, pre, eq]
      refine ⟨(inv.alloc j hj).trans (by omega), inv.local_pos j hj, inv.placed j hj, ?_⟩
      exact (inv.unheld j hj).imp id fun stuck => ⟨stuck.1, by omega⟩
    · rw [eq, splitOff_low, levels.1, pre]
      exact ⟨by omega, by omega, halves.1, Or.inl semas.1⟩
    · rw [eq, splitOff_high, levels.2, pre]
      exact ⟨by omega, by omega, halves.2, Or.inl semas.2⟩
  exact ⟨inv.depth_pos.trans grown, le, capacity, free, owned, fun i hi => (each i hi).1,
    fun i hi => (each i hi).2.1, fun i hi => (each i hi).2.2.1, fun i hi => (each i hi).2.2.2⟩

theorem Inv.fresh (inv : Inv h t) (key : Key) :
    (∀ i < 2 ^ t.cur.depth, t.cur.entries i ≠ t.nseg) ∧
    (∀ i < 2 ^ t.cur.depth, t.cur.entries i ≠ t.nseg + 1) ∧
    ∀ i < 2 ^ t.cur.depth, ((t.splitOff h (t.target h key)).segs (t.cur.entries i)).localDepth =
      (t.segs (t.cur.entries i)).localDepth :=
  ⟨fun i hi eq => by have := inv.alloc i hi; omega, fun i hi eq => by have := inv.alloc i hi; omega,
    fun i hi => splitOff_localDepth h t _ (inv.alloc i hi)⟩

theorem Inv.doubling_entries (inv : Inv h t) {key : Key}
    (full : (t.segs (t.target h key)).localDepth = t.cur.depth) {i : Nat}
    (hi : i < 2 ^ (t.cur.depth + 1)) :
    SplitEntry h t key (t.cur.depth + 1) i
      (doubled t.cur.entries (index t.cur.depth (h key)) t.nseg (t.nseg + 1) i) := by
  have hx := inv.index_lt key
  have half : i / 2 < 2 ^ t.cur.depth := by
    rw [pow_succ] at hi
    omega
  have parent : top 64 (t.segs (t.target h key)).localDepth (h key).toNat =
      index t.cur.depth (h key) := by
    rw [← inv.target_prefix key, full, Nat.sub_self, pow_zero, Nat.div_one]
  have level : t.cur.depth + 1 - ((t.segs (t.target h key)).localDepth + 1) = 0 := by omega
  rw [doubled, SplitEntry, parent, level, pow_zero, Nat.div_one]
  by_cases here : i / 2 = index t.cur.depth (h key)
  · rw [if_pos here]
    rcases Nat.mod_two_eq_zero_or_one i with even | odd
    · exact Or.inr (Or.inl ⟨if_pos even, by omega⟩)
    · exact Or.inr (Or.inr ⟨if_neg (by omega), by omega⟩)
  · rw [if_neg here]
    refine Or.inl ⟨i / 2, half, rfl, fun eq => here ?_, ?_⟩
    · have single : t.cur.depth - (t.segs (t.cur.entries (index t.cur.depth (h key)))).localDepth =
          0 :=
        Nat.sub_eq_zero_of_le full.ge
      simpa only [single, pow_zero, Nat.div_one] using (inv.owned.block _ hx _ half).mp eq
    · rw [Nat.succ_sub (inv.owned.level_le _ half), pow_succ', Nat.div_div_eq_div_mul]

theorem Inv.halving_entries (inv : Inv h t) {key : Key}
    (below : (t.segs (t.target h key)).localDepth < t.cur.depth) {i : Nat}
    (hi : i < 2 ^ t.cur.depth) :
    SplitEntry h t key t.cur.depth i
      (halved t.cur.entries (t.cur.depth - (t.segs (t.target h key)).localDepth)
        (index t.cur.depth (h key)) t.nseg (t.nseg + 1) i) := by
  have hx := inv.index_lt key
  obtain ⟨k, hk⟩ : ∃ k, t.cur.depth - (t.segs (t.target h key)).localDepth = k + 1 :=
    ⟨t.cur.depth - (t.segs (t.target h key)).localDepth - 1, by omega⟩
  have level : t.cur.depth - ((t.segs (t.target h key)).localDepth + 1) = k := by omega
  have parent := inv.target_prefix key
  rw [hk] at parent ⊢
  rw [halved, SplitEntry, level, ← parent, Nat.add_sub_cancel]
  by_cases here : i / 2 ^ (k + 1) = index t.cur.depth (h key) / 2 ^ (k + 1)
  · rw [if_pos here, ← here, Blocks.div_two_pow_succ]
    rcases Nat.mod_two_eq_zero_or_one (i / 2 ^ k) with even | odd
    · exact Or.inr (Or.inl ⟨if_pos even, by omega⟩)
    · exact Or.inr (Or.inr ⟨if_neg (by omega), by omega⟩)
  · rw [if_neg here]
    refine Or.inl ⟨i, hi, rfl, fun eq => here ?_, rfl⟩
    have width : t.cur.depth - (t.segs (t.cur.entries (index t.cur.depth (h key)))).localDepth =
      k + 1 := hk
    simpa only [width] using (inv.owned.block _ hx _ hi).mp eq

theorem Inv.doubleDir_entries (inv : Inv h t) (key : Key) {j : Nat}
    (hj : j < 2 ^ (t.cur.depth + 1)) :
    (t.doubleDir h key).cur.entries j =
      doubled t.cur.entries (index t.cur.depth (h key)) t.nseg (t.nseg + 1) j := by
  rw [doubleDir_cur]
  rw [pow_succ'] at hj
  exact writeAll_doublingStores t.cur _ (inv.capacity ▸ hj)

theorem storeSplit_entries {key : Key} (below : (t.segs (t.target h key)).localDepth < t.cur.depth)
    (narrow : t.cur.depth - (t.segs (t.target h key)).localDepth ≤ 30) :
    (t.storeSplit h key).cur.entries = halved t.cur.entries
      (t.cur.depth - (t.segs (t.target h key)).localDepth)
        (index t.cur.depth (h key)) t.nseg (t.nseg + 1) := by
  rw [storeSplit_cur]
  exact writeAll_stores (by omega) narrow _

theorem Inv.doubling (inv : Inv h t) {key : Key}
    (full : (t.segs (t.target h key)).localDepth = t.cur.depth)
    (room : t.cur.capacity < unsignedLimit) :
    Inv h (t.doubleDir h key) := by
  obtain ⟨freshLow, freshHigh, same⟩ := inv.fresh key
  have low : t.cur.depth < 32 := by
    rw [inv.capacity, unsignedLimit] at room
    exact (Nat.pow_lt_pow_iff_right (by decide)).mp room
  have levels := Segment.split_localDepth (h := h) (t.segs (t.target h key))
  have depth : (t.doubleDir h key).cur.depth = t.cur.depth + 1 := by rw [doubleDir_cur]
  have entries := fun j => inv.doubleDir_entries key (j := j)
  refine inv.replace key rfl rfl ?_ ?_ (by rw [doubleDir_cur]) (by rw [doubleDir_cur]) ?_ ?_ <;>
    rw [depth]
  · exact Nat.le_succ _
  · exact low
  · refine Owned.congr ?_ entries
    exact inv.owned.double (inv.index_lt key) full freshLow freshHigh (by omega)
      (by rw [doubleDir_segs, splitOff_low, levels.1, full])
      (by rw [doubleDir_segs, splitOff_high, levels.2, full]) same
  · intro i hi
    rw [entries i hi]
    exact inv.doubling_entries full hi

theorem Inv.halving (inv : Inv h t) {key : Key}
    (below : (t.segs (t.target h key)).localDepth < t.cur.depth)
    (narrow : t.cur.depth - (t.segs (t.target h key)).localDepth ≤ 30) :
    Inv h (t.storeSplit h key) := by
  obtain ⟨freshLow, freshHigh, same⟩ := inv.fresh key
  have levels := Segment.split_localDepth (h := h) (t.segs (t.target h key))
  have depth : (t.storeSplit h key).cur.depth = t.cur.depth := by rw [storeSplit_cur]
  refine inv.replace key rfl rfl depth.ge ?_ ?_ ?_ ?_ ?_
  · rw [depth]
    exact inv.depth_le
  · rw [storeSplit_cur]
    exact inv.capacity
  · rw [storeSplit_cur]
    exact inv.free
  · rw [depth, storeSplit_entries below narrow]
    exact inv.owned.halve (inv.index_lt key) below freshLow freshHigh (by omega)
      (by rw [storeSplit_segs, splitOff_low, levels.1]; rfl)
      (by rw [storeSplit_segs, splitOff_high, levels.2]; rfl) same
  · rw [depth, storeSplit_entries below narrow]
    exact fun i hi => inv.halving_entries below hi

/-- A block too wide for the stride: nothing is stored. -/
theorem storeSplit_overflow {key : Key}
    (wide : 31 ≤ t.cur.depth - (t.segs (t.target h key)).localDepth) :
    (t.storeSplit h key).cur = t.cur := by
  rw [storeSplit_cur, stores_overflow wide]
  rfl

theorem Inv.overflow (inv : Inv h t) {key : Key}
    (wide : 31 ≤ t.cur.depth - (t.segs (t.target h key)).localDepth) :
    Inv h (t.storeSplit h key) := by
  obtain ⟨_, _, same⟩ := inv.fresh key
  constructor <;> rw [storeSplit_overflow wide]
  · exact inv.depth_pos
  · exact inv.depth_le
  · exact inv.capacity
  · exact inv.free
  · refine ⟨fun i hi => ?_, fun i hi j hj => ?_⟩
    · rw [storeSplit_segs, same i hi]
      exact inv.owned.level_le i hi
    · rw [storeSplit_segs, same i hi]
      exact inv.owned.block i hi j hj
  · intro i hi
    exact Nat.lt_add_right 2 (inv.alloc i hi)
  · intro i hi
    rw [storeSplit_segs, same i hi]
    exact inv.local_pos i hi
  · intro i hi
    rw [storeSplit_segs, same i hi]
    intro l
    rw [splitOff_slots _ _ _ (inv.alloc i hi), same i hi]
    exact inv.placed i hi l
  · intro i hi
    rw [storeSplit_segs, splitOff_old _ _ _ (inv.alloc i hi)]
    split
    · exact Or.inr ⟨rfl, wide⟩
    · exact inv.unheld i hi

/-- The ways a pass can go when the invariant holds. -/
theorem Inv.attempt_cases (inv : Inv h t) (key : Key) (value : Value) :
    ((t.segs (t.target h key)).sema = -1 ∧ t.attempt h key value = .retry t) ∨
    (t.segs (t.target h key)).sema = 0 ∧
    ((∃ i, (t.segs (t.target h key)).findSlot h
      (top 64 (t.segs (t.target h key)).localDepth (h key).toNat)
        (window (h key)) = some i ∧ t.attempt h key value =
          .stored (t.setSeg (t.target h key) ((t.segs (t.target h key)).set i ⟨key, some value⟩))) ∨
      (t.segs (t.target h key)).findSlot h (top 64 (t.segs (t.target h key)).localDepth
        (h key).toNat)
        (window (h key)) = none ∧
      ((t.segs (t.target h key)).localDepth = t.cur.depth ∧ (t.cur.capacity < unsignedLimit ∧
          t.attempt h key value = .retry (t.doubleDir h key) ∨
          unsignedLimit ≤ t.cur.capacity ∧ t.attempt h key value = .spins) ∨
        (t.segs (t.target h key)).localDepth < t.cur.depth ∧
          t.attempt h key value = .retry (t.storeSplit h key))) := by
  have held := inv.unheld _ (inv.index_lt key)
  rcases held with zero | ⟨minus, _⟩
  · refine Or.inr ⟨zero, ?_⟩
    have zero' : (t.segs (t.target h key)).sema = 0 := zero
    simp only [attempt, zero', inv.pattern_eq key, lt_irrefl, if_false, ne_eq, not_true_eq_false]
    cases found : (t.segs (t.target h key)).findSlot h
      (top 64 (t.segs (t.target h key)).localDepth (h key).toNat) (window (h key)) with
    | some i => exact Or.inl ⟨i, rfl, rfl⟩
    | none =>
      refine Or.inr ⟨rfl, ?_⟩
      simp only [splitTarget, inv.free, lt_irrefl, if_false, ne_eq, not_true_eq_false, false_or]
      rcases (inv.local_le key).eq_or_lt with full | below
      · refine Or.inl ⟨full, ?_⟩
        rw [if_pos full]
        by_cases room : t.cur.capacity < unsignedLimit
        · exact Or.inl ⟨room, if_neg (by omega)⟩
        · exact Or.inr ⟨by omega, if_pos (by omega)⟩
      · exact Or.inr ⟨below, if_neg (by omega)⟩
  · refine Or.inl ⟨minus, ?_⟩
    have minus' : (t.segs (t.target h key)).sema = -1 := minus
    simp only [attempt, minus']
    rfl

theorem Inv.pass (inv : Inv h t) {t' : Table} (step : t.Pass h t') : Inv h t' := by
  obtain ⟨key, value, step⟩ := step
  rcases inv.attempt_cases key value with ⟨_, eq⟩ | ⟨_,
    ⟨i, found, eq⟩ | ⟨_, ⟨full, ⟨room, eq⟩ | ⟨_, eq⟩⟩ | ⟨below, eq⟩⟩⟩
  · rw [eq] at step
    simp only [Attempt.retry.injEq, reduceCtorEq, false_or] at step
    exact step ▸ inv
  · rw [eq] at step
    simp only [Attempt.stored.injEq, reduceCtorEq, or_false] at step
    exact step ▸ inv.store value (Segment.findSlot_some found).1
  · rw [eq] at step
    simp only [Attempt.retry.injEq, reduceCtorEq, false_or] at step
    exact step ▸ inv.doubling full room
  · simp only [eq, reduceCtorEq, or_self] at step
  · rw [eq] at step
    simp only [Attempt.retry.injEq, reduceCtorEq, false_or] at step
    rw [← step]
    by_cases narrow : t.cur.depth - (t.segs (t.target h key)).localDepth ≤ 30
    · exact inv.halving below narrow
    · exact inv.overflow (by omega)

theorem Inv.passes (inv : Inv h t) {t' : Table}
    (run : Relation.ReflTransGen (Pass h) t t') : Inv h t' := by
  induction run with
  | refl => exact inv
  | tail _ step ih => exact ih.pass step

theorem inv_construct {depth : Nat} (pos : 1 ≤ depth)
    (made : construct depth = some t) : Inv h t := by
  obtain ⟨low, segs, nseg, _, depthEq, capacity, free, entries⟩ := construct_spec made
  have here : ∀ i < 2 ^ t.cur.depth, t.cur.entries i = i := by
    intro i hi
    rw [entries i, if_pos (depthEq ▸ hi)]
  refine ⟨by omega, by omega, by rw [capacity, depthEq], free, ⟨fun i _ => ?_, fun i hi j hj => ?_⟩,
    fun i hi => ?_, fun i _ => ?_, fun i _ => ?_, fun i _ => ?_⟩
  · rw [segs, depthEq]
    exact le_refl depth
  · rw [here i hi, here j hj, segs, depthEq, show (Segment.new depth).localDepth = depth from rfl,
      Nat.sub_self, pow_zero, Nat.div_one, Nat.div_one]
  · rw [here i hi, nseg, ← depthEq]
    exact hi
  · rw [segs]
    exact pos
  · rw [segs]
    exact Segment.placed_new h depth _
  · rw [segs]
    exact Or.inl rfl

theorem passes_of_insertLoop {key : Key} {value : Value} {fuel : Nat} {t' : Table}
    (returned : t.insertLoop h fuel key value = some t') : Relation.ReflTransGen (Pass h) t t' := by
  induction fuel generalizing t with
  | zero => cases returned
  | succ fuel ih =>
    rw [insertLoop] at returned
    split at returned
    · cases returned
      exact .single ⟨key, value, Or.inl ‹_›⟩
    · exact .head ⟨key, value, Or.inr ‹_›⟩ (ih returned)
    · cases returned

theorem passes_of_calls {t' : Table} (calls : Relation.ReflTransGen (Call h) t t') :
    Relation.ReflTransGen (Pass h) t t' := by
  induction calls with
  | refl => exact .refl
  | tail _ call ih =>
    obtain ⟨_, _, _, returned⟩ := call
    exact ih.trans (passes_of_insertLoop returned)

end Table

end Xcache.CCEH
