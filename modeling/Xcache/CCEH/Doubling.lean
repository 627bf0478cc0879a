import Xcache.CCEH.Crowding
import Xcache.CCEH.Split

/-! The table after any number of passes and of calls, and a table of two segments with full
windows, in which the next call doubles the directory. -/

namespace Xcache.CCEH.Table
open Blocks (top)

variable {h : Key → BitVec 64} {t : Table}

/-- After any number of passes, in whatever order the calls make them: the capacity is a
power of the depth, every segment in the directory owns one aligned block, its live pairs
have the prefix of the block and lie in their windows. A pass that stores writes one slot,
which was free. A pass that does not finds its segment suspended and changes nothing, or
finds its window full and splits the segment, unless the directory cannot be doubled. -/
theorem sequential_invariant {depth : Nat} (pos : 1 ≤ depth) {t₀ t : Table}
    (made : construct depth = some t₀) (run : Relation.ReflTransGen (Pass h) t₀ t) :
    t.cur.depth ≤ 32 ∧ t.cur.capacity = 2 ^ t.cur.depth ∧
    (∀ a, (∃ i < t.cur.capacity, t.cur.entries i = a) → (t.segs a).localDepth ≤ t.cur.depth ∧
      ∃ p < 2 ^ (t.segs a).localDepth,
        (∀ i < t.cur.capacity, t.cur.entries i = a ↔
          i / 2 ^ (t.cur.depth - (t.segs a).localDepth) = p) ∧
        ∀ slot, ((t.segs a).slots slot).Live →
          index (t.segs a).localDepth (h ((t.segs a).slots slot).key) = p ∧
          slot ∈ windowSlots (window (h ((t.segs a).slots slot).key))) ∧
    (∀ key value t', t.attempt h key value = .stored t' →
      ∃ slot, ((t.segs (t.target h key)).slots slot).key = invalidKey ∧
        t' = t.setSeg (t.target h key) ((t.segs (t.target h key)).set slot ⟨key, some value⟩)) ∧
    ∀ key value, (∀ t', t.attempt h key value ≠ .stored t') →
      (t.segs (t.target h key)).sema < 0 ∧ t.attempt h key value = .retry t ∨
      (∀ slot ∈ windowSlots (window (h key)), ((t.segs (t.target h key)).slots slot).Live) ∧
        ((t.segs (t.target h key)).localDepth = t.cur.depth ∧ t.cur.capacity < unsignedLimit ∧
            t.attempt h key value = .retry (t.doubleDir h key) ∨
          (t.segs (t.target h key)).localDepth = t.cur.depth ∧ unsignedLimit ≤ t.cur.capacity ∧
            t.attempt h key value = .spins ∨
          (t.segs (t.target h key)).localDepth < t.cur.depth ∧
            t.attempt h key value = .retry (t.storeSplit h key)) := by
  have inv : Inv h t := (inv_construct pos made).passes run
  refine ⟨inv.depth_le, inv.capacity, ?_, ?_, ?_⟩
  · rintro a ⟨i, hi, rfl⟩
    rw [inv.capacity] at hi ⊢
    have le := inv.owned.level_le i hi
    have deep := inv.depth_le
    refine ⟨le, i / 2 ^ (t.cur.depth - (t.segs (t.cur.entries i)).localDepth), ?_,
      fun j hj => inv.owned.block i hi j hj, fun slot live => ?_⟩
    · apply Nat.div_lt_of_lt_mul
      rwa [← pow_add, Nat.sub_add_cancel le]
    · obtain ⟨pre, mem⟩ := inv.placed i hi slot live
      exact ⟨(index_eq (inv.local_pos i hi) (by omega) _).trans pre, mem⟩
  · intro key value t' stored
    rcases inv.attempt_cases key value with ⟨_, eq⟩ | ⟨_, ⟨i, found, eq⟩ |
      ⟨_, ⟨_, ⟨_, eq⟩ | ⟨_, eq⟩⟩ | ⟨_, eq⟩⟩⟩
    · simp only [eq, reduceCtorEq] at stored
    · rw [eq] at stored
      refine ⟨i, (inv.findSlot_free ?_).2, (Attempt.stored.inj stored).symm⟩
      rwa [inv.pattern_eq key]
    · simp only [eq, reduceCtorEq] at stored
    · simp only [eq, reduceCtorEq] at stored
    · simp only [eq, reduceCtorEq] at stored
  · intro key value other
    rcases inv.attempt_cases key value with ⟨minus, eq⟩ | ⟨_, ⟨_, _, eq⟩ | ⟨none, splits⟩⟩
    · exact Or.inl ⟨by rw [minus]; decide, eq⟩
    · exact absurd eq (other _)
    · refine Or.inr ⟨fun slot mem => ?_, ?_⟩
      · by_contra free
        exact Segment.findSlot_none.mp none slot mem (Segment.usable_of_not_live free _)
      · rcases splits with ⟨full, ⟨low, eq⟩ | ⟨high, eq⟩⟩ | ⟨below, eq⟩
        · exact Or.inl ⟨full, low, eq⟩
        · exact Or.inr (Or.inl ⟨full, high, eq⟩)
        · exact Or.inr (Or.inr ⟨below, eq⟩)

/-- From every state that completed calls reach, a call returns exactly when a bounded
number of splits on the side of its key frees a slot of its window. No pass ever meets a
local depth of 64. -/
theorem insert_returns_iff_room {depth : Nat} (pos : 1 ≤ depth) {t₀ t : Table}
    (made : construct depth = some t₀) (calls : Relation.ReflTransGen (Call h) t₀ t) (key : Key)
    (value : Value) :
    ((∃ t', t.Returns h key value t') ↔ Room h t key) ∧
      ∀ t', Relation.ReflTransGen (Pass h) t t' → (t'.segs (t'.target h key)).localDepth < 64 := by
  obtain ⟨inv, idle⟩ := (inv_construct (h := h) pos made).calls (idle_construct made) calls
  refine ⟨⟨?_, ?_⟩, ?_⟩
  · rintro ⟨t', fuel, returned⟩
    exact (insertLoop_spec inv idle returned).1
  · rintro ⟨n, bound, narrow, has⟩
    obtain ⟨t', run⟩ := insertLoop_of_room value inv idle bound narrow has
    exact ⟨t', n + 1, run _ (Nat.lt_succ_self n)⟩
  · intro t' run
    have inv' := inv.passes run
    have := inv'.local_le key
    have := inv'.depth_le
    omega

/-- Thirty-two copies of key 0 under the identity hash, then one more: it never returns. -/
theorem insert_spins_on_repeated_key : ∃ t₀ t, construct 1 = some t₀ ∧
    Relation.ReflTransGen (Call id) t₀ t ∧ ∀ value t', ¬ t.Returns id 0 value t' := by
  obtain ⟨t₀, made⟩ : ∃ t₀, construct 1 = some t₀ := ⟨_, rfl⟩
  have inv : Inv id t₀ := inv_construct (le_refl 1) made
  have idle := idle_construct made
  have fresh := (construct_spec made).2.1 (t₀.target id 0)
  have live : (0 : Key) ≠ invalidKey := by decide
  obtain ⟨s, stores, _, count, pairs⟩ :=
    crowd (n := 32) live 1 inv idle (by rw [fresh, Segment.card_freeIn_new])
  rw [fresh, Segment.card_freeIn_new] at count
  obtain ⟨inv', idle'⟩ := inv.calls idle stores.calls
  have here : (t₀.setSeg (t₀.target id 0) s).segs ((t₀.setSeg (t₀.target id 0) s).target id 0) =
      s :=
    Function.update_self ..
  refine ⟨t₀, _, made, stores.calls, fun value t' returned => ?_⟩
  obtain ⟨fuel, returned⟩ := returned
  refine not_room_of_crowded live inv' ?_ ?_ (insertLoop_spec inv' idle' returned).1
  · rw [here]
    intro i alive
    rcases pairs i with same | new
    · rw [same, fresh] at alive
      exact absurd rfl alive
    · rw [new.2]
  · rw [here]
    exact Finset.card_eq_zero.mp count

def highKey : Key := 1#64 <<< 63

/-- It goes to the segment and the window of key 0, until the segment is split. -/
def midKey : Key := 1#64 <<< 62

/-- Thirty-one calls with key 0 and one with `midKey` fill one window, thirty-two with `highKey`
another one. -/
def twoWindows : List (Key × Value) :=
  List.replicate 31 (0, 1) ++ (List.replicate 1 (midKey, 1) ++ List.replicate 32 (highKey, 1))

theorem mem_twoWindows {op : Key × Value} (mem : op ∈ twoWindows) :
    op = (0, 1) ∨ op = (midKey, 1) ∨ op = (highKey, 1) := by
  unfold twoWindows at mem
  rcases List.mem_append.mp mem with low | rest
  · exact Or.inl (List.eq_of_mem_replicate low)
  · exact Or.inr ((List.mem_append.mp rest).imp List.eq_of_mem_replicate List.eq_of_mem_replicate)

theorem twoWindows_valid (op : Key × Value) (mem : op ∈ twoWindows) :
    op.1 ≠ invalidKey ∧ op.1 ≠ sentinelKey ∧ op.2 = 1 := by
  rcases mem_twoWindows mem with rfl | rfl | rfl <;> decide

/-- A directory of two segments whose windows of key 0 and of `highKey` are full. -/
structure TwoFull (t : Table) : Prop where
  inv : Inv id t
  idle : t.Idle
  depth : t.cur.depth = 1
  nseg : t.nseg = 2
  low : t.target id 0 = 0
  high : t.target id highKey = 1
  levels : ∀ a < 2, (t.segs a).localDepth = 1
  lowFull : (t.segs 0).freeIn (window 0) = ∅
  highFull : (t.segs 1).freeIn (window highKey) = ∅
  lowPairs : ∀ i, ((t.segs 0).slots i).Live → (t.segs 0).slots i = ⟨0, some 1⟩ ∨
    (t.segs 0).slots i = ⟨midKey, some 1⟩
  highPairs : ∀ i, ((t.segs 1).slots i).Live → (t.segs 1).slots i = ⟨highKey, some 1⟩
  mid : ∃ i, ∀ i', ((t.segs 0).slots i').key = midKey ↔ i' = i

theorem twoFull_stores {t₀ : Table} (made : construct 1 = some t₀) :
    ∃ t, Stores id t₀ twoWindows t ∧ t.TwoFull := by
  obtain ⟨_, fresh, nseg, _, depth, _, _, entries⟩ := construct_spec made
  have inv : Inv id t₀ := inv_construct (le_refl 1) made
  have idle := idle_construct made
  have low : t₀.target id 0 = 0 := by
    rw [target, depth, entries]
    rfl
  have mid : t₀.target id midKey = 0 := by
    rw [target, depth, entries]
    rfl
  have high : t₀.target id highKey = 1 := by
    rw [target, depth, entries]
    rfl
  have zero := crowd (n := 31) (by decide : (0 : Key) ≠ invalidKey) 1 inv idle
  rw [low, fresh, Segment.card_freeIn_new] at zero
  obtain ⟨s₀, stores₀, level₀, count₀, pairs₀⟩ := zero (by decide)
  obtain ⟨inv₀, idle₀⟩ := inv.calls idle stores₀.calls
  have one := crowd (n := 1) (by decide : midKey ≠ invalidKey) 1 inv₀ idle₀
  rw [show (t₀.setSeg 0 s₀).target id midKey = 0 from mid, setSeg_segs, Function.update_self,
    show window (id midKey) = window (id 0) by decide, count₀] at one
  obtain ⟨s₁, stores₁, level₁, count₁, pairs₁⟩ := one (by decide)
  obtain ⟨inv₁, idle₁⟩ := inv₀.calls idle₀ stores₁.calls
  have many := crowd (n := 32) (by decide : highKey ≠ invalidKey) 1 inv₁ idle₁
  rw [setSeg_setSeg] at stores₁ inv₁ idle₁ many
  rw [show (t₀.setSeg 0 s₁).target id highKey = 1 from high, setSeg_segs,
    Function.update_of_ne Nat.one_ne_zero, fresh, Segment.card_freeIn_new] at many
  obtain ⟨s₂, stores₂, level₂, count₂, pairs₂⟩ := many (by decide)
  obtain ⟨inv₂, idle₂⟩ := inv₁.calls idle₁ stores₂.calls
  have seg₁ : ((t₀.setSeg 0 s₁).setSeg 1 s₂).segs 1 = s₂ := by
    rw [setSeg_segs, Function.update_self]
  have seg₀ : ((t₀.setSeg 0 s₁).setSeg 1 s₂).segs 0 = s₁ := by
    rw [setSeg_segs, Function.update_of_ne Nat.zero_ne_one, setSeg_segs, Function.update_self]
  have empty : ∀ i, ¬ ((Segment.new 1).slots i).Live := fun _ => Pair.not_live_fresh
  have zeros : ∀ i, (s₀.slots i).Live → s₀.slots i = ⟨0, some 1⟩ := by
    intro i live
    rcases pairs₀ i with same | new
    · rw [same] at live
      exact absurd live (empty i)
    · exact new.2
  refine ⟨_, stores₀.append (stores₁.append stores₂),
    ⟨inv₂, idle₂, depth, nseg, low, high, ?_, ?_, ?_, ?_, ?_, ?_⟩⟩
  · intro a two
    rcases Nat.lt_succ_iff_lt_or_eq.mp two with none | rfl
    · rw [Nat.lt_one_iff.mp none, seg₀, level₁, level₀]
      rfl
    · rw [seg₁, level₂]
      rfl
  · rw [seg₀]
    exact Finset.card_eq_zero.mp count₁
  · rw [seg₁]
    exact Finset.card_eq_zero.mp count₂
  · rw [seg₀]
    intro i live
    rcases pairs₁ i with same | new
    · rw [same] at live ⊢
      exact Or.inl (zeros i live)
    · exact Or.inr new.2
  · rw [seg₁]
    intro i live
    rcases pairs₂ i with same | new
    · rw [same] at live
      exact absurd live (empty i)
    · exact new.2
  · -- only one slot was left for it
    rw [seg₀]
    obtain ⟨i, only⟩ := Finset.card_eq_one.mp count₀
    have here : ∀ i', (s₁.slots i').key = midKey → i' = i := by
      intro i' key
      rcases pairs₁ i' with same | new
      · rw [same] at key
        have zero := zeros i' (by rw [Pair.Live, key]; decide)
        rw [zero] at key
        exact absurd key (by decide)
      · exact Finset.mem_singleton.mp (only ▸ new.1)
    refine ⟨i, fun i' => ⟨here i', ?_⟩⟩
    rintro rfl
    rcases pairs₁ i' with same | new
    · have full : i' ∉ s₁.freeIn (window (id 0)) := by
        rw [Finset.card_eq_zero.mp count₁]
        exact Finset.notMem_empty i'
      have free := Segment.mem_freeIn.mp (only ▸ Finset.mem_singleton_self i' : i' ∈
        s₀.freeIn (window (id 0)))
      exact absurd (Segment.mem_freeIn.mpr ⟨free.1, same ▸ free.2⟩) full
    · rw [new.2]

namespace TwoFull

theorem atTop (two : t.TwoFull) : (t.segs (t.target id 0)).localDepth = t.cur.depth := by
  rw [two.low, two.levels 0 (by decide), two.depth]

theorem doubles (two : t.TwoFull) (value : Value) :
    t.attempt id 0 value = .retry (t.doubleDir id 0) :=
  two.inv.crowded_doubles two.idle (two.low ▸ two.lowFull) two.atTop (by rw [two.depth]; decide)
    value

theorem grown_depth (two : t.TwoFull) : (t.doubleDir id 0).cur.depth = 2 := by
  rw [doubleDir_cur, two.depth]

theorem grown_entries (two : t.TwoFull) : (t.doubleDir id 0).cur.entries 0 = 2 ∧
    (t.doubleDir id 0).cur.entries 1 = 3 ∧ (t.doubleDir id 0).cur.entries 2 = 1 ∧
    (t.doubleDir id 0).cur.entries 3 = 1 := by
  have low : index t.cur.depth (id 0) = 0 := by rw [two.depth]; rfl
  have high : t.cur.entries 1 = 1 := by
    have := two.high
    rw [target, two.depth] at this
    exact this
  have entries : ∀ i < 4, (t.doubleDir id 0).cur.entries i =
      Blocks.doubled t.cur.entries 0 2 3 i := by
    intro i lt
    rw [two.inv.doubleDir_entries 0 (by rw [two.depth]; exact lt), low, two.nseg]
  exact ⟨entries 0 (by decide), entries 1 (by decide), (entries 2 (by decide)).trans high,
    (entries 3 (by decide)).trans high⟩

theorem grown_low (two : t.TwoFull) : (t.doubleDir id 0).target id 0 = 2 := by
  rw [target, two.grown_depth]
  exact two.grown_entries.1

theorem grown_high (two : t.TwoFull) : (t.doubleDir id 0).segs 1 = t.segs 1 := by
  rw [doubleDir_segs, splitOff_old _ _ _ (by rw [two.nseg]; decide), two.low]
  rfl

theorem split_high (two : t.TwoFull) : (t.splitOff id 0).segs 1 = t.segs 1 := by
  rw [splitOff_old _ _ _ (by rw [two.nseg]; decide)]
  rfl

theorem high_crowded (two : t.TwoFull) : (t.segs 1).findSlot id
    (patternOf t.cur.depth (t.segs 1).localDepth (index t.cur.depth highKey)) (window highKey) =
      none := by
  have full : (t.segs (t.target id highKey)).freeIn (window (id highKey)) = ∅ := by
    rw [two.high]
    exact two.highFull
  have crowded := two.inv.crowded full
  rwa [two.high] at crowded

theorem high_sema (two : t.TwoFull) : (t.segs 1).sema = 0 := by
  rw [← two.high]
  exact two.idle _ (two.inv.index_lt highKey)

theorem few (two : t.TwoFull) {a : Nat} (lt : a < 2) :
    (Finset.univ.filter fun i => ((t.segs a).slots i).Live).card ≤ 32 := by
  have inside : ∀ i, ((t.segs a).slots i).Live → i ∈ windowSlots (window 0) := by
    intro i live
    rcases Nat.lt_succ_iff_lt_or_eq.mp lt with none | rfl
    · obtain rfl := Nat.lt_one_iff.mp none
      have mem := (two.inv.target_placed 0 i (by rwa [two.low])).2
      rw [two.low] at mem
      rcases two.lowPairs i live with eq | eq <;> rwa [eq] at mem
    · have mem := (two.inv.target_placed highKey i (by rwa [two.high])).2
      rw [two.high, two.highPairs i live] at mem
      exact mem
  rw [← Segment.card_windowSlots (window 0)]
  exact Finset.card_le_card fun i mem => List.mem_toFinset.mpr
    (inside i (Finset.mem_filter.mp mem).2)

theorem kept (two : t.TwoFull) {a : Nat} (lt : a < 2) :
    ∀ i, ((t.segs a).slots i).Live → ¬ Segment.Dropped id (t.segs a) i :=
  Segment.not_dropped_of_few (two.few lt)

theorem bitOf_low (two : t.TwoFull) {i : Fin kNumSlot} (live : ((t.segs 0).slots i).Live) :
    Segment.bitOf id (t.segs 0) i = decide (((t.segs 0).slots i).key = midKey) := by
  rw [Segment.bitOf, two.levels 0 (by decide)]
  rcases two.lowPairs i live with eq | eq <;> rw [eq] <;> rfl

/-- The half of key 0 has a slot left, since `midKey` goes to the other one. -/
theorem room (two : t.TwoFull) : ((t.segs 0).child id 0).HasRoom id 0 := by
  obtain ⟨i, only⟩ := two.mid
  have mine : i ∈ Finset.univ.filter fun i => ((t.segs 0).slots i).Live :=
    Finset.mem_filter.mpr ⟨Finset.mem_univ i, by rw [Pair.Live, (only i).mpr rfl]; decide⟩
  have others : (Finset.univ.filter fun i => ((t.segs 0).slots i).Live ∧
    Segment.bitOf id (t.segs 0) i =
      splitBit (t.segs 0).localDepth (id 0)) ⊆ (Finset.univ.filter fun i =>
        ((t.segs 0).slots i).Live).erase i := by
    intro i' mem
    obtain ⟨_, live, bit⟩ := Finset.mem_filter.mp mem
    refine Finset.mem_erase.mpr ⟨?_, Finset.mem_filter.mpr ⟨Finset.mem_univ i', live⟩⟩
    rintro rfl
    rw [two.bitOf_low live, (only i').mpr rfl, two.levels 0 (by decide)] at bit
    exact absurd bit (by decide)
  have bound := Finset.card_le_card others
  have all := two.few (show 0 < 2 by decide)
  rw [Finset.card_erase_of_mem mine] at bound
  have kept := two.kept (show 0 < 2 by decide)
  obtain ⟨j, inside, free⟩ := Segment.exists_free_of_few kept 0
    (lt_of_le_of_lt bound (by unfold kNumPairPerCacheLine kNumCacheLine; omega)) (window (id 0))
  obtain ⟨k, found⟩ :=
    Segment.findSlot_of_not_live inside free (index ((t.segs 0).child id 0).localDepth (id 0))
  exact Option.isSome_iff_exists.mpr ⟨k, found⟩

/-- The doubled directory, in which key 0 finds a slot. -/
theorem grown (two : t.TwoFull) : Inv id (t.doubleDir id 0) ∧ Moved id t 0 (t.doubleDir id 0) ∧
    ∃ i, (t.doubleDir id 0).attempt id 0 1 =
      .stored ((t.doubleDir id 0).setSeg 2 (((t.segs 0).child id 0).set i ⟨0, some 1⟩)) := by
  have none := @Inv.crowded id t two.inv 0 (two.low ▸ two.lowFull)
  rw [two.inv.pattern_eq 0] at none
  obtain ⟨t', splits, inv, idle, moved, _⟩ := two.inv.split_pass two.idle 1 none
    (by rw [two.atTop, two.depth]; decide) (by rw [two.atTop, Nat.sub_self]; decide)
  obtain rfl := Attempt.retry.inj (splits.symm.trans (two.doubles 1))
  have here := moved.child
  rw [two.low] at here
  obtain ⟨i, _, _, stored⟩ := @Inv.store_pass id _ inv idle 0 1 (by rw [here]; exact two.room)
  rw [here, two.grown_low] at stored
  exact ⟨inv, moved, i, stored⟩

theorem grown_mid (two : t.TwoFull) : (t.doubleDir id 0).target id midKey = 3 ∧
    (t.doubleDir id 0).segs 3 = (t.segs 0).child id midKey := by
  have target : (t.doubleDir id 0).target id midKey = 3 := by
    rw [Table.target, two.grown_depth]
    exact two.grown_entries.2.1
  have moved := two.grown.2.1 midKey
  have same : t.target id midKey = t.target id 0 := by
    rw [Table.target, Table.target, two.depth]
    rfl
  rw [target, if_pos same, two.low] at moved
  exact ⟨target, moved⟩

theorem mid_kept (two : t.TwoFull) : ∃ j ∈ windowSlots (window midKey),
    ((t.segs 0).child id midKey).slots j = ⟨midKey, some 1⟩ := by
  obtain ⟨i, only⟩ := two.mid
  have here := (only i).mpr rfl
  have live : ((t.segs 0).slots i).Live := by
    rw [Pair.Live, here]
    decide
  have pair : (t.segs 0).slots i = ⟨midKey, some 1⟩ := by
    refine (two.lowPairs i live).resolve_left fun zero => ?_
    rw [zero] at here
    exact absurd here (by decide)
  obtain ⟨j, mem, stored⟩ :=
    Segment.stored_of_not_dropped live (two.kept (show 0 < 2 by decide) i live)
  rw [Segment.startOf, pair] at mem
  rw [Segment.bitOf, pair] at stored
  exact ⟨j, mem, stored⟩

theorem mid_once (two : t.TwoFull) {j j' : Fin kNumSlot}
    (live : (((t.segs 0).child id midKey).slots j).Live)
    (live' : (((t.segs 0).child id midKey).slots j').Live) : j = j' := by
  obtain ⟨i, only⟩ := two.mid
  have one : (Finset.univ.filter fun i => i.val < kNumSlot ∧ ((t.segs 0).slots i).Live ∧
      Segment.bitOf id (t.segs 0) i = true).card ≤ 1 := by
    refine Finset.card_le_one.mpr fun a ha b hb => ?_
    obtain ⟨_, _, liveA, bitA⟩ := Finset.mem_filter.mp ha
    obtain ⟨_, _, liveB, bitB⟩ := Finset.mem_filter.mp hb
    rw [two.bitOf_low liveA] at bitA
    rw [two.bitOf_low liveB] at bitB
    exact ((only a).mp (of_decide_eq_true bitA)).trans ((only b).mp (of_decide_eq_true bitB)).symm
  have count := Segment.card_half true (le_refl kNumSlot) fun i _ live _ =>
    two.kept (show 0 < 2 by decide) i live
  rw [Segment.splitUpTo_all] at count
  have half : (t.segs 0).child id midKey = Segment.half true ((t.segs 0).split id) := by
    rw [Segment.child, two.levels 0 (by decide)]
    rfl
  rw [half] at live live'
  exact Finset.card_le_one.mp (count.trans_le one) j
    (Finset.mem_filter.mpr ⟨Finset.mem_univ j, live⟩) j'
    (Finset.mem_filter.mpr ⟨Finset.mem_univ j', live'⟩)

end TwoFull

/-- The directory is doubled, the pair of `midKey` moves to a segment of its own, and key 0 is
stored. -/
theorem sequential_invariant_doubled : ∃ t₀ t t' : Table, construct 1 = some t₀ ∧
    Relation.ReflTransGen (Pass id) t₀ t' ∧ t.cur.depth = 1 ∧
      t.attempt id 0 1 = .retry (t.doubleDir id 0) ∧
    (t.doubleDir id 0).attempt id 0 1 = .stored t' ∧ t'.cur.capacity = 4 ∧
    ∃ slot ∈ windowSlots (window midKey), (t'.segs 3).slots slot = ⟨midKey, some 1⟩ ∧
      index (t'.segs 3).localDepth midKey = 1 := by
  obtain ⟨t₀, made⟩ : ∃ t₀, construct 1 = some t₀ := ⟨_, rfl⟩
  obtain ⟨t, stores, two⟩ := twoFull_stores made
  obtain ⟨_, _, i, stored⟩ := two.grown
  have run := ((passes_of_calls stores.calls).tail ⟨0, 1, Or.inr (two.doubles 1)⟩).tail
    ⟨0, 1, Or.inl stored⟩
  obtain ⟨_, capacity, segments, _⟩ := sequential_invariant (le_refl 1) made run
  obtain ⟨j, _, pair⟩ := two.mid_kept
  have seg : ((t.doubleDir id 0).setSeg 2 (((t.segs 0).child id 0).set i ⟨0, some 1⟩)).segs 3 =
      (t.segs 0).child id midKey := by
    rw [setSeg_segs, Function.update_of_ne (by decide), two.grown_mid.2]
  rw [setSeg_cur, two.grown_depth] at capacity segments
  obtain ⟨_, p, _, block, keys⟩ := segments 3 ⟨1, by rw [capacity]; decide, two.grown_entries.2.1⟩
  have first := (block 1 (by rw [capacity]; decide)).mp two.grown_entries.2.1
  rw [seg, child_localDepth, two.levels 0 (by decide)] at first
  obtain ⟨index, mem⟩ := keys j (by rw [seg, pair]; decide)
  rw [seg, pair] at index mem
  exact ⟨t₀, t, _, made, run, two.depth, two.doubles 1, stored, capacity, j, mem, by rw [seg, pair],
    by rw [seg]; exact index.trans first.symm⟩

/-- The call that doubles the directory returns. -/
theorem insert_returns_iff_room_doubled : ∃ t₀ t t', construct 1 = some t₀ ∧
    Relation.ReflTransGen (Call id) t₀ t ∧ (t.segs (t.target id 0)).freeIn (window 0) = ∅ ∧
    t.Returns id 0 1 t' := by
  obtain ⟨t₀, made⟩ : ∃ t₀, construct 1 = some t₀ := ⟨_, rfl⟩
  obtain ⟨t, stores, two⟩ := twoFull_stores made
  have room : Room id t 0 := by
    refine ⟨1, by rw [two.atTop, two.depth]; decide,
      Or.inr (by rw [two.atTop, Nat.sub_self]; decide), ?_⟩
    rw [two.low]
    exact two.room
  obtain ⟨t', returned⟩ := (insert_returns_iff_room (le_refl 1) made stores.calls 0 1).1.mpr room
  exact ⟨t₀, t, t', made, stores.calls, by rw [two.low]; exact two.lowFull, returned⟩

end Xcache.CCEH.Table
