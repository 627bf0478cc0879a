import Xcache.CCEH.Invariant

/-! When the RETRY loop of `Insert` ends: exactly when a bounded number of splits on the
side of the key frees a slot of its window. -/

namespace Xcache.CCEH
open Blocks (top halved doubled)

namespace Segment
variable (h : Key → BitVec 64)

/-- The segment that holds the key after `n` more splits. -/
def descend (key : Key) : Nat → Segment → Segment
  | 0, s => s
  | n + 1, s => descend key n (s.child h key)

/-- The window of the key has a slot that `Insert` takes. -/
def HasRoom (s : Segment) (key : Key) : Prop :=
  (s.findSlot h (index s.localDepth (h key)) (window (h key))).isSome

end Segment

namespace Table
variable {h : Key → BitVec 64} {t : Table}

/-- No segment of the directory is locked or suspended. -/
def Idle (t : Table) : Prop := ∀ i < 2 ^ t.cur.depth, (t.segs (t.cur.entries i)).sema = 0

/-- Some number of splits, which the directory and its stride can follow, frees a slot. -/
def Room (h : Key → BitVec 64) (t : Table) (key : Key) : Prop :=
  ∃ n, (t.segs (t.target h key)).localDepth + n ≤ 32 ∧
    (n = 0 ∨ t.cur.depth - (t.segs (t.target h key)).localDepth ≤ 30) ∧
    ((t.segs (t.target h key)).descend h key n).HasRoom h key

theorem idle_construct {depth : Nat} (made : construct depth = some t) : t.Idle := by
  intro i _
  rw [(construct_spec made).2.1]
  rfl

theorem Idle.store (idle : t.Idle) (key : Key) (i : Fin kNumSlot) (p : Pair) :
    (t.setSeg (t.target h key) ((t.segs (t.target h key)).set i p)).Idle := by
  intro j hj
  rw [setSeg_segs, setSeg_cur]
  by_cases same : t.cur.entries j = t.target h key
  · rw [same, Function.update_self, Segment.set_sema, ← same]
    exact idle j hj
  · rw [Function.update_of_ne same]
    exact idle j hj

theorem Idle.replace (idle : t.Idle) (inv : Inv h t) (key : Key) {t' : Table}
    (segs : t'.segs = (t.splitOff h (t.target h key)).segs)
    (entries : ∀ i < 2 ^ t'.cur.depth, SplitEntry h t key t'.cur.depth i (t'.cur.entries i)) :
    t'.Idle := by
  intro i hi
  have semas := Segment.split_sema (h := h) (t.segs (t.target h key))
  rw [segs]
  rcases entries i hi with ⟨j, hj, eq, other, _⟩ | ⟨eq, _⟩ | ⟨eq, _⟩
  · rw [splitOff_old _ _ _ (eq ▸ inv.alloc j hj), if_neg other, eq]
    exact idle j hj
  · rw [eq, splitOff_low]
    exact semas.1
  · rw [eq, splitOff_high]
    exact semas.2

theorem Inv.child_eq (inv : Inv h t) (key : Key) {other : Key} {entry : Nat}
    (side : entry = if top 64 ((t.segs (t.target h key)).localDepth + 1) (h other).toNat % 2 = 0
      then t.nseg else t.nseg + 1) :
    (t.splitOff h (t.target h key)).segs entry = (t.segs (t.target h key)).child h other := by
  have deep : (t.segs (t.target h key)).localDepth < 64 := by
    have := inv.local_le key
    have := inv.depth_le
    omega
  have bit := splitBit_iff deep (h other)
  rw [Blocks.top_succ deep] at side
  unfold Segment.child
  cases splits : splitBit (t.segs (t.target h key)).localDepth (h other) with
  | true =>
    have one := bit.mp splits
    rw [side, if_neg (by omega), splitOff_high, if_pos rfl]
  | false =>
    have zero := bit.not.mp (by rw [splits]; decide)
    rw [side, if_pos (by omega), splitOff_low, if_neg (by decide)]

/-- Where the keys are after a split of the segment of `key`. -/
def Moved (h : Key → BitVec 64) (t : Table) (key : Key) (t' : Table) : Prop :=
  ∀ other, t'.segs (t'.target h other) =
    if t.target h other = t.target h key then (t.segs (t.target h key)).child h other
    else t.segs (t.target h other)

theorem Inv.target_eq_iff (inv : Inv h t) (key other : Key) : t.target h other = t.target h key ↔
    index t.cur.depth (h other) / 2 ^ (t.cur.depth - (t.segs (t.target h key)).localDepth) =
      index t.cur.depth (h key) / 2 ^ (t.cur.depth - (t.segs (t.target h key)).localDepth) :=
  inv.owned.block _ (inv.index_lt key) _ (inv.index_lt other)

theorem Inv.moved_doubleDir (inv : Inv h t) {key : Key}
    (atTop : (t.segs (t.target h key)).localDepth = t.cur.depth) (low : t.cur.depth < 32) :
    Moved h t key (t.doubleDir h key) := by
  intro other
  have depth : (t.doubleDir h key).cur.depth = t.cur.depth + 1 := by rw [doubleDir_cur]
  have half : index (t.cur.depth + 1) (h other) / 2 = index t.cur.depth (h other) := by
    have parent :=
      Blocks.top_div (w := 64) (x := (h other).toNat) (Nat.le_succ t.cur.depth) (by omega)
    rwa [Nat.succ_sub (le_refl _), Nat.sub_self, pow_one, ← index_eq (by omega) (by omega),
      ← index_eq inv.depth_pos (by omega)] at parent
  have entry : (t.doubleDir h key).target h other =
      doubled t.cur.entries (index t.cur.depth (h key)) t.nseg (t.nseg + 1)
        (index (t.cur.depth + 1) (h other)) := by
    rw [target, depth, inv.doubleDir_entries key (CCEH.index_lt (by omega) (by omega) _)]
  have same := inv.target_eq_iff key other
  rw [atTop, Nat.sub_self, pow_zero, Nat.div_one, Nat.div_one] at same
  rw [doubleDir_segs, entry, doubled, half]
  by_cases here : index t.cur.depth (h other) = index t.cur.depth (h key)
  · rw [if_pos here, if_pos (same.mpr here)]
    apply inv.child_eq key
    rw [atTop, index_eq (by omega) (by omega)]
  · rw [if_neg here, if_neg (same.not.mpr here)]
    exact (splitOff_old _ _ _ (inv.target_lt other)).trans (if_neg (same.not.mpr here))

theorem Inv.moved_storeSplit (inv : Inv h t) {key : Key}
    (below : (t.segs (t.target h key)).localDepth < t.cur.depth)
    (narrow : t.cur.depth - (t.segs (t.target h key)).localDepth ≤ 30) :
    Moved h t key (t.storeSplit h key) := by
  intro other
  have deep := inv.depth_le
  have depth : (t.storeSplit h key).cur.depth = t.cur.depth := by rw [storeSplit_cur]
  have same := inv.target_eq_iff key other
  have entry : (t.storeSplit h key).target h other = halved t.cur.entries
      (t.cur.depth - (t.segs (t.target h key)).localDepth)
        (index t.cur.depth (h key)) t.nseg (t.nseg + 1)
      (index t.cur.depth (h other)) := by
    rw [target, depth, storeSplit_entries below narrow]
  rw [storeSplit_segs, entry, halved]
  by_cases here : index t.cur.depth (h other) / 2 ^
    (t.cur.depth - (t.segs (t.target h key)).localDepth) =
      index t.cur.depth (h key) / 2 ^ (t.cur.depth - (t.segs (t.target h key)).localDepth)
  · rw [if_pos here, if_pos (same.mpr here)]
    apply inv.child_eq key
    have half := Blocks.top_div (w := 64) (m := (t.segs (t.target h key)).localDepth + 1)
      (n := t.cur.depth) (x := (h other).toNat) below (by omega)
    rw [← half, index_eq inv.depth_pos (by omega), Nat.sub_sub]
  · rw [if_neg here, if_neg (same.not.mpr here)]
    exact (splitOff_old _ _ _ (inv.target_lt other)).trans (if_neg (same.not.mpr here))

/-- A pass over a full window splits the target, and its keys move on to the children. -/
theorem Inv.split_pass (inv : Inv h t) (idle : t.Idle) {key : Key} (value : Value)
    (full : (t.segs (t.target h key)).findSlot h
      (top 64 (t.segs (t.target h key)).localDepth (h key).toNat) (window (h key)) = none)
    (room : (t.segs (t.target h key)).localDepth < 32)
    (narrow : t.cur.depth - (t.segs (t.target h key)).localDepth ≤ 30) :
    ∃ t', t.attempt h key value = .retry t' ∧ Inv h t' ∧ t'.Idle ∧ Moved h t key t' ∧
      t'.cur.depth - ((t.segs (t.target h key)).localDepth + 1) ≤ 30 := by
  have zero : (t.segs (t.target h key)).sema = 0 := idle _ (inv.index_lt key)
  have deep := inv.depth_le
  rcases inv.attempt_cases key value with ⟨minus, _⟩ | ⟨_, ⟨_, found, _⟩ |
    ⟨_, ⟨atTop, ⟨cap, eq⟩ | ⟨cap, _⟩⟩ | ⟨below, eq⟩⟩⟩
  · rw [zero] at minus
    cases minus
  · cases full.symm.trans found
  · have depth : (t.doubleDir h key).cur.depth = t.cur.depth + 1 := by rw [doubleDir_cur]
    refine ⟨_, eq, inv.doubling atTop cap, ?_,
      inv.moved_doubleDir atTop (by omega), by rw [depth]; omega⟩
    refine idle.replace inv key rfl fun i hi => ?_
    rw [depth] at hi ⊢
    rw [inv.doubleDir_entries key hi]
    exact inv.doubling_entries atTop hi
  · rw [inv.capacity, atTop.symm, unsignedLimit] at cap
    have := (Nat.pow_le_pow_iff_right (by decide : 1 < 2)).mp cap
    omega
  · have depth : (t.storeSplit h key).cur.depth = t.cur.depth := by rw [storeSplit_cur]
    refine ⟨_, eq, inv.halving below narrow, ?_,
      inv.moved_storeSplit below narrow, by rw [depth]; omega⟩
    refine idle.replace inv key rfl fun i hi => ?_
    rw [depth] at hi ⊢
    rw [storeSplit_entries below narrow]
    exact inv.halving_entries below hi

theorem Moved.child {key : Key} {t' : Table} (moved : Moved h t key t') :
    t'.segs (t'.target h key) = (t.segs (t.target h key)).child h key :=
  (moved key).trans (if_pos rfl)

theorem child_localDepth (s : Segment) (key : Key) :
    (s.child h key).localDepth = s.localDepth + 1 := by
  have levels := Segment.split_localDepth (h := h) s
  unfold Segment.child
  split
  · exact levels.2
  · exact levels.1

theorem Inv.hasRoom_iff (inv : Inv h t) (key : Key) :
    (t.segs (t.target h key)).HasRoom h key ↔ ∃ i, (t.segs (t.target h key)).findSlot h
      (top 64 (t.segs (t.target h key)).localDepth (h key).toNat) (window (h key)) = some i := by
  have := inv.local_le key
  have := inv.depth_le
  rw [Segment.HasRoom, index_eq (inv.target_pos key) (by omega), Option.isSome_iff_exists]

theorem Inv.store_pass (inv : Inv h t) (idle : t.Idle) {key : Key} (value : Value)
    (has : (t.segs (t.target h key)).HasRoom h key) :
    ∃ i ∈ windowSlots (window (h key)), ¬ ((t.segs (t.target h key)).slots i).Live ∧
      t.attempt h key value =
      .stored (t.setSeg (t.target h key) ((t.segs (t.target h key)).set i ⟨key, some value⟩)) := by
  obtain ⟨i, found⟩ := (inv.hasRoom_iff key).mp has
  rcases inv.attempt_cases key value with ⟨minus, _⟩ | ⟨_, ⟨j, found', eq⟩ | ⟨none, _⟩⟩
  · cases minus.symm.trans (idle _ (inv.index_lt key))
  · rw [← inv.pattern_eq key] at found'
    obtain ⟨mem, free⟩ := inv.findSlot_free found'
    exact ⟨j, mem, not_not_intro free, eq⟩
  · cases found.symm.trans none

theorem insertLoop_suspended {key : Key} (held : (t.segs (t.target h key)).sema < 0) (value : Value)
    (fuel : Nat) : t.insertLoop h fuel key value = none := by
  have again : t.attempt h key value = .retry t := by
    unfold attempt
    exact if_pos held
  induction fuel with
  | zero => rfl
  | succ fuel ih => rw [insertLoop_retry h again, ih]

theorem Inv.overflow_suspended (inv : Inv h t) {key : Key}
    (wide : 31 ≤ t.cur.depth - (t.segs (t.target h key)).localDepth) :
    ((t.storeSplit h key).segs ((t.storeSplit h key).target h key)).sema < 0 := by
  have same : (t.storeSplit h key).target h key = t.target h key := by
    rw [target, storeSplit_overflow wide, target]
  rw [same, storeSplit_segs, splitOff_old _ _ _ (inv.target_lt key), if_pos rfl]
  exact neg_one_lt_zero

/-- A call that returns had room, and leaves an idle table. -/
theorem insertLoop_spec {key : Key} {value : Value} {fuel : Nat} {t' : Table} (inv : Inv h t)
    (idle : t.Idle) (returned : t.insertLoop h fuel key value = some t') :
    Room h t key ∧ Inv h t' ∧ t'.Idle := by
  induction fuel generalizing t with
  | zero => cases returned
  | succ fuel ih =>
    have zero : (t.segs (t.target h key)).sema = 0 := idle _ (inv.index_lt key)
    have le := inv.local_le key
    have deep := inv.depth_le
    cases found : (t.segs (t.target h key)).findSlot h
        (top 64 (t.segs (t.target h key)).localDepth (h key).toNat) (window (h key)) with
    | some i =>
      have has := (inv.hasRoom_iff key).mpr ⟨i, found⟩
      obtain ⟨j, mem, _, eq⟩ := inv.store_pass idle value has
      rw [insertLoop_stored h eq (Nat.succ_pos fuel)] at returned
      cases returned
      exact ⟨⟨0, by omega, Or.inl rfl, has⟩, inv.store value mem, idle.store key j _⟩
    | none =>
      by_cases narrow : t.cur.depth - (t.segs (t.target h key)).localDepth ≤ 30
      · by_cases low : (t.segs (t.target h key)).localDepth < 32
        · obtain ⟨t₁, eq, inv₁, idle₁, moved, narrow₁⟩ := inv.split_pass idle value found low narrow
          rw [insertLoop_retry h eq] at returned
          obtain ⟨⟨n, bound, _, has⟩, rest⟩ := ih inv₁ idle₁ returned
          rw [moved.child] at bound has
          rw [child_localDepth] at bound
          exact ⟨⟨n + 1, by omega, Or.inr narrow, has⟩, rest⟩
        · -- at depth 32 the directory cannot be doubled
          rcases inv.attempt_cases key value with ⟨minus, _⟩ | ⟨_, ⟨_, found', _⟩ |
            ⟨_, ⟨_, ⟨cap, _⟩ | ⟨_, eq⟩⟩ | ⟨below, _⟩⟩⟩
          · rw [zero] at minus
            cases minus
          · cases found.symm.trans found'
          · rw [inv.capacity, unsignedLimit, Nat.pow_lt_pow_iff_right (by decide)] at cap
            omega
          · rw [insertLoop_spins h eq] at returned
            cases returned
          · omega
      · rcases inv.attempt_cases key value with ⟨minus, _⟩ | ⟨_, ⟨_, found', _⟩ |
          ⟨_, ⟨atTop, _⟩ | ⟨_, eq⟩⟩⟩
        · rw [zero] at minus
          cases minus
        · cases found.symm.trans found'
        · omega
        · rw [insertLoop_retry h eq, insertLoop_suspended (inv.overflow_suspended (by omega))]
            at returned
          cases returned

/-- With room after `n` splits, `n + 1` passes are enough. -/
theorem insertLoop_of_room {key : Key} {n : Nat} (value : Value) (inv : Inv h t) (idle : t.Idle)
    (bound : (t.segs (t.target h key)).localDepth + n ≤ 32)
    (narrow : n = 0 ∨ t.cur.depth - (t.segs (t.target h key)).localDepth ≤ 30)
    (has : ((t.segs (t.target h key)).descend h key n).HasRoom h key) :
    ∃ t', ∀ fuel, n < fuel → t.insertLoop h fuel key value = some t' := by
  induction n generalizing t with
  | zero =>
    obtain ⟨i, _, _, eq⟩ := inv.store_pass idle value has
    exact ⟨_, fun fuel pos => insertLoop_stored h eq pos⟩
  | succ n ih =>
    by_cases now : (t.segs (t.target h key)).HasRoom h key
    · obtain ⟨i, _, _, eq⟩ := inv.store_pass idle value now
      exact ⟨_, fun fuel pos => insertLoop_stored h eq (by omega)⟩
    · have full := Option.eq_none_iff_forall_ne_some.mpr
        (not_exists.mp ((inv.hasRoom_iff key).not.mp now))
      obtain ⟨t₁, eq, inv₁, idle₁, moved, narrow₁⟩ := inv.split_pass idle value full (by omega)
        (narrow.resolve_left (Nat.succ_ne_zero n))
      obtain ⟨t', run⟩ := ih inv₁ idle₁ (by rw [moved.child, child_localDepth]; omega)
        (Or.inr (by rwa [moved.child, child_localDepth])) (by rw [moved.child]; exact has)
      refine ⟨t', fun fuel pos => ?_⟩
      obtain ⟨fuel, rfl⟩ : ∃ m, fuel = m + 1 := ⟨fuel - 1, by omega⟩
      rw [insertLoop_retry h eq]
      exact run fuel (by omega)

theorem Inv.calls (inv : Inv h t) (idle : t.Idle) {t' : Table}
    (run : Relation.ReflTransGen (Call h) t t') : Inv h t' ∧ t'.Idle := by
  induction run with
  | refl => exact ⟨inv, idle⟩
  | tail _ call ih =>
    obtain ⟨_, _, _, returned⟩ := call
    exact (insertLoop_spec ih.1 ih.2 returned).2

theorem insertLoop_mono {key : Key} {value : Value} {fuel more : Nat} {t' : Table}
    (le : fuel ≤ more) (returned : t.insertLoop h fuel key value = some t') :
    t.insertLoop h more key value = some t' := by
  induction fuel generalizing t more with
  | zero => cases returned
  | succ fuel ih =>
    obtain ⟨more, rfl⟩ : ∃ m, more = m + 1 := ⟨more - 1, by omega⟩
    cases eq : t.attempt h key value with
    | stored u => rwa [insertLoop_stored h eq (Nat.succ_pos _)] at returned ⊢
    | retry u =>
      rw [insertLoop_retry h eq] at returned ⊢
      exact ih (by omega) returned
    | spins =>
      rw [insertLoop_spins h eq] at returned
      cases returned

/-- The passes of `insert` are enough: what more passes would reach, it reaches. -/
theorem insert_of_returns {key : Key} {value : Value} {t' : Table} (inv : Inv h t) (idle : t.Idle)
    (returned : t.Returns h key value t') : t.insert h key value = some (t', -1) := by
  obtain ⟨fuel, returned⟩ := returned
  obtain ⟨⟨n, bound, narrow, has⟩, _⟩ := insertLoop_spec inv idle returned
  obtain ⟨t₁, run⟩ := insertLoop_of_room value inv idle bound narrow has
  have pos := inv.target_pos key
  have more := run (max fuel (n + 1)) (by omega)
  rw [insertLoop_mono (le_max_left _ _) returned] at more
  rw [insert, run 33 (by omega), ← more]
  rfl

end Table

end Xcache.CCEH
