import Mathlib.Data.Int.CardIntervalMod
import Xcache.Store.ExtendibleHash

/-! The store law of the extendible hash table. -/

namespace Xcache
open Function

namespace Block

variable {b : Block} {i n : Nat} {p : Pair} {h : Key → BitVec 64}

def contents (b : Block) : Multiset Pair := entries b.slots kNumSlot

theorem freeSlot_some (found : b.freeSlot = some i) : i < kNumSlot ∧ ¬ (b.slots i).Live := by
  have mem := List.mem_of_find?_eq_some found
  have free := List.find?_some found
  exact ⟨List.mem_range.mp mem, not_not_intro (of_decide_eq_true free)⟩

theorem freeSlot_none (full : b.freeSlot = none) (lt : i < kNumSlot) : (b.slots i).Live := by
  have used := List.find?_eq_none.mp full i (List.mem_range.mpr lt)
  exact fun free => used (decide_eq_true free)

theorem exists_freeSlot (room : b.contents.card < kNumSlot) : ∃ i, b.freeSlot = some i := by
  cases found : b.freeSlot with
  | some i => exact ⟨i, rfl⟩
  | none => exact absurd (card_entries_of_live fun i lt => freeSlot_none found lt) room.ne

theorem contents_store (found : b.freeSlot = some i) (live : p.Live) :
    (b.store i p).contents = p ::ₘ b.contents :=
  entries_update (freeSlot_some found).1 live (freeSlot_some found).2

theorem contents_insert4split (room : b.contents.card < kNumSlot) (live : p.Live) :
    (b.insert4split p).contents = p ::ₘ b.contents := by
  obtain ⟨i, found⟩ := exists_freeSlot room
  unfold insert4split
  rw [found]
  exact contents_store found live

theorem insert4split_same :
    (b.insert4split p).localDepth = b.localDepth ∧ (b.insert4split p).sema = b.sema := by
  unfold insert4split
  cases b.freeSlot with
  | some i => exact ⟨rfl, rfl⟩
  | none => exact ⟨rfl, rfl⟩

theorem and_one_shiftLeft_ne_zero (w : BitVec 64) (l : Nat) :
    w &&& (1#64 <<< l) ≠ 0 ↔ w.toNat / 2 ^ l % 2 = 1 := by
  have bit : w.getLsbD l = decide (w.toNat / 2 ^ l % 2 = 1) := Nat.testBit_eq_decide_div_mod_eq
  have one : ∀ i, (1#64 <<< l).getLsbD i = decide (i < 64 ∧ i = l) := by
    intro i
    rw [← BitVec.twoPow_eq, BitVec.getLsbD_twoPow]
    by_cases here : i = l
    · simp [here]
    · simp [here, Ne.symm here]
  constructor
  · intro ne
    by_contra clear
    refine ne (BitVec.eq_of_getLsbD_eq fun i lt => ?_)
    rw [BitVec.getLsbD_and, one]
    by_cases here : i = l
    · rw [here, bit, decide_eq_false clear, Bool.false_and]
      exact BitVec.getLsbD_zero.symm
    · rw [decide_eq_false fun both => here both.2, Bool.and_false]
      exact BitVec.getLsbD_zero.symm
  · intro set zero
    have lt : l < 64 := by
      by_contra ge
      have small : w.toNat < 2 ^ l :=
        w.isLt.trans_le (Nat.pow_le_pow_right (by decide) (not_lt.mp ge))
      rw [Nat.div_eq_of_lt small] at set
      cases set
    have same : (w &&& (1#64 <<< l)).getLsbD l = false := by rw [zero]; exact BitVec.getLsbD_zero
    rw [BitVec.getLsbD_and, one, bit, decide_eq_true set, decide_eq_true ⟨lt, rfl⟩] at same
    cases same

theorem toNat_and_mask (w : BitVec 64) {l : Nat} (lt : l < 64) :
    (w &&& (BitVec.ofNat 64 (2 ^ l) - 1)).toNat = w.toNat % 2 ^ l := by
  have pos : 1 ≤ 2 ^ l := Nat.one_le_two_pow
  have small : 2 ^ l < 2 ^ 64 := Nat.pow_lt_pow_right (by decide) lt
  have mask : (BitVec.ofNat 64 (2 ^ l) - 1).toNat = 2 ^ l - 1 := by
    rw [BitVec.toNat_sub_of_le, BitVec.toNat_ofNat, Nat.mod_eq_of_lt small]
    · rfl
    · rw [BitVec.le_def, BitVec.toNat_ofNat, Nat.mod_eq_of_lt small]
      exact pos
  rw [BitVec.toNat_and, mask, Nat.and_two_pow_sub_one_eq_mod]

/-- The pairs that go to one side when a block of depth `l` is split. -/
def Side (h : Key → BitVec 64) (l bit : Nat) (p : Pair) : Prop := (h p.key).toNat / 2 ^ l % 2 = bit

instance (l bit : Nat) : DecidablePred (Side h l bit) :=
  fun _ => inferInstanceAs (Decidable (_ = _))

/-- `Block::Insert` with the pattern of the block. -/
theorem insert_cases {keyHash : BitVec 64} (key : Key) (value : Value) (sema : b.sema = 0)
    (depth : b.localDepth < 64) (pattern : keyHash.toNat % 2 ^ b.localDepth = b.pattern.toNat) :
    (∃ i, b.freeSlot = some i ∧ b.insert key value keyHash =
      .ok (.slot (b.store i ⟨key, some value⟩))) ∨
    b.freeSlot = none ∧ b.insert key value keyHash = .ok .full := by
  have same : keyHash &&& (BitVec.ofNat 64 (2 ^ b.localDepth) - 1) = b.pattern :=
    BitVec.eq_of_toNat_eq ((toNat_and_mask keyHash depth).trans pattern)
  unfold insert
  rw [if_neg (by rw [sema]; decide), if_pos depth, if_neg (not_not_intro same)]
  cases found : b.freeSlot with
  | some i => exact Or.inl ⟨i, rfl, rfl⟩
  | none => exact Or.inr ⟨rfl, rfl⟩

/-- The two blocks of a split have the pairs of the full block, by the bit of its depth. -/
theorem moveSlots_spec (full : ∀ i < kNumSlot, (b.slots i).Live) (le : n ≤ kNumSlot) :
    ((b.moveSlots h n).1.contents = (entries b.slots n).filter (Side h b.localDepth 0) ∧
      (b.moveSlots h n).1.localDepth = b.localDepth + 1 ∧ (b.moveSlots h n).1.sema = 0) ∧
    (b.moveSlots h n).2.contents = (entries b.slots n).filter (Side h b.localDepth 1) ∧
      (b.moveSlots h n).2.localDepth = b.localDepth + 1 ∧ (b.moveSlots h n).2.sema = 0 := by
  have room : ∀ (P : Pair → Prop) [DecidablePred P] m, m < kNumSlot →
      ((entries b.slots m).filter P).card < kNumSlot :=
    fun P _ m lt => ((Multiset.card_le_card (Multiset.filter_le _ _)).trans
      (card_entries_le b.slots m)).trans_lt lt
  induction n with
  | zero =>
    have none : ∀ i, ¬ ((Block.new (b.localDepth + 1)).slots i).Live := fun i => Pair.not_live_fresh
    have nil : entries b.slots 0 = 0 := entries_of_free fun i lt => absurd lt (Nat.not_lt_zero i)
    unfold moveSlots
    rw [nil]
    exact ⟨⟨entries_of_free fun i _ => none i, rfl, rfl⟩, entries_of_free fun i _ => none i,
      rfl, rfl⟩
  | succ n ih =>
    have live := full n (by omega)
    obtain ⟨⟨contents0, depth0, sema0⟩, contents1, depth1, sema1⟩ := ih (by omega)
    unfold moveSlots
    rw [entries_succ_live live]
    by_cases bit : h (b.slots n).key &&& (1#64 <<< b.localDepth) ≠ 0
    · rw [if_pos bit]
      have set : Side h b.localDepth 1 (b.slots n) := (and_one_shiftLeft_ne_zero _ _).mp bit
      have clear : ¬ Side h b.localDepth 0 (b.slots n) := by unfold Side at set ⊢; omega
      rw [Multiset.filter_cons_of_neg _ clear, Multiset.filter_cons_of_pos _ set]
      refine ⟨⟨contents0, depth0, sema0⟩, ?_, insert4split_same.1.trans depth1,
        insert4split_same.2.trans sema1⟩
      rw [contents_insert4split (by rw [contents1]; exact room _ n (by omega)) live, contents1]
    · rw [if_neg bit]
      have clear : ¬ Side h b.localDepth 1 (b.slots n) := mt (and_one_shiftLeft_ne_zero _ _).mpr bit
      have set : Side h b.localDepth 0 (b.slots n) := by unfold Side at clear ⊢; omega
      rw [Multiset.filter_cons_of_pos _ set, Multiset.filter_cons_of_neg _ clear]
      refine ⟨⟨?_, insert4split_same.1.trans depth0, insert4split_same.2.trans sema0⟩, contents1,
        depth1, sema1⟩
      rw [contents_insert4split (by rw [contents0]; exact room _ n (by omega)) live, contents0]

end Block

namespace ExtendibleHash

open Block (kNumSlot Side)

variable {h : Key → BitVec 64} {t u : ExtendibleHash} {b s0 s1 : Block} {log : Multiset Pair}
  {d x l : Nat} {key : Key}

/-- The hash value of the key agrees with the index on `l` low bits. -/
def Agrees (h : Key → BitVec 64) (l d : Nat) (p : Pair) : Prop :=
  (h p.key).toNat % 2 ^ l = d % 2 ^ l

instance (l d : Nat) : DecidablePred (Agrees h l d) := fun _ => inferInstanceAs (Decidable (_ = _))

/-- The block has the pattern of the index and the pairs of the log that agree with it. -/
structure Holds (h : Key → BitVec 64) (log : Multiset Pair) (d : Nat) (b : Block) : Prop where
  sema : b.sema = 0
  pattern : b.pattern.toNat = d % 2 ^ b.localDepth
  contents : b.contents = log.filter (Agrees h b.localDepth d)

def block (t : ExtendibleHash) (d : Nat) : Block := t.blocks (t.entry d)

structure Good (h : Key → BitVec 64) (t : ExtendibleHash) (log : Multiset Pair) : Prop where
  capacity : t.capacity = 2 ^ t.globalDepth
  owned : LowOwned t.globalDepth (fun a => (t.blocks a).localDepth) t.entry
  known : ∀ d < t.capacity, t.entry d < t.fresh
  holds : ∀ d < t.capacity, Holds h log d (t.block d)

theorem Good.lt (good : t.Good h log) (w : Nat) : w % t.capacity < t.capacity :=
  Nat.mod_lt w (by rw [good.capacity]; positivity)

theorem Good.localDepth_le (good : t.Good h log) (lt : d < t.capacity) :
    (t.block d).localDepth ≤ t.globalDepth :=
  good.owned.level_le d (good.capacity ▸ lt)

theorem Good.mod_mod (good : t.Good h log) (le : l ≤ t.globalDepth) (w : Nat) :
    w % t.capacity % 2 ^ l = w % 2 ^ l := by
  rw [good.capacity]
  exact Nat.mod_mod_of_dvd w (Nat.pow_dvd_pow 2 le)

theorem filter_filter_side (log : Multiset Pair) (l d : Nat) :
    (log.filter (Agrees h l d)).filter (Side h l (d / 2 ^ l % 2)) =
      log.filter (Agrees h (l + 1) d) := by
  rw [Multiset.filter_filter]
  refine Multiset.filter_congr fun p _ => ?_
  unfold Agrees Side
  rw [mod_two_pow_succ_eq_iff]
  exact and_comm

/-- The two blocks that `Insert` makes of a full one. -/
structure Halves (h : Key → BitVec 64) (x : Nat) (b s0 s1 : Block) : Prop where
  depth0 : s0.localDepth = b.localDepth + 1
  depth1 : s1.localDepth = b.localDepth + 1
  sema0 : s0.sema = 0
  sema1 : s1.sema = 0
  pattern0 : s0.pattern.toNat = x % 2 ^ b.localDepth
  pattern1 : s1.pattern.toNat = x % 2 ^ b.localDepth + 2 ^ b.localDepth
  contents0 : s0.contents = b.contents.filter (Side h b.localDepth 0)
  contents1 : s1.contents = b.contents.filter (Side h b.localDepth 1)

theorem Halves.holds (halves : Halves h x b s0 s1) (holds : Holds h log x b)
    (near : d % 2 ^ b.localDepth = x % 2 ^ b.localDepth) :
    Holds h log d (if d / 2 ^ b.localDepth % 2 = 0 then s0 else s1) := by
  have same : log.filter (Agrees h b.localDepth x) = log.filter (Agrees h b.localDepth d) := by
    refine Multiset.filter_congr fun p _ => ?_
    unfold Agrees
    rw [near]
  rcases Nat.mod_two_eq_zero_or_one (d / 2 ^ b.localDepth) with bit | bit
  · rw [if_pos bit]
    refine ⟨halves.sema0, ?_, ?_⟩
    · rw [halves.pattern0, halves.depth0, Nat.mod_pow_succ, bit, Nat.mul_zero, Nat.add_zero, near]
    · rw [halves.contents0, halves.depth0, holds.contents, same, ← filter_filter_side, bit]
  · rw [if_neg (by omega)]
    refine ⟨halves.sema1, ?_, ?_⟩
    · rw [halves.pattern1, halves.depth1, Nat.mod_pow_succ, bit, Nat.mul_one, near]
    · rw [halves.contents1, halves.depth1, holds.contents, same, ← filter_filter_side, bit]

/-- The blocks after a split: the old one stays taken. -/
def splitBlocks (t : ExtendibleHash) (x : Nat) (s0 s1 : Block) : Nat → Block :=
  update (update (update t.blocks (t.entry x) { t.block x with
    sema := -1 }) t.fresh s0) (t.fresh + 1) s1

def divided (t : ExtendibleHash) (x : Nat) (entry : Nat → Nat) (s0 s1 : Block) : ExtendibleHash :=
  { t with entry := entry, blocks := t.splitBlocks x s0 s1, fresh := t.fresh + 2 }

theorem splitBlocks_fresh0 : t.splitBlocks x s0 s1 t.fresh = s0 := by
  unfold splitBlocks
  rw [update_of_ne (by omega), update_self]

theorem splitBlocks_fresh1 : t.splitBlocks x s0 s1 (t.fresh + 1) = s1 := update_self _ _ _

section
variable {a : Nat}

theorem splitBlocks_old (lt : a < t.fresh) (ne : a ≠ t.entry x) :
    t.splitBlocks x s0 s1 a = t.blocks a := by
  unfold splitBlocks
  rw [update_of_ne (by omega), update_of_ne (by omega), update_of_ne ne]

theorem splitBlocks_depth (lt : a < t.fresh) :
    (t.splitBlocks x s0 s1 a).localDepth = (t.blocks a).localDepth := by
  by_cases here : a = t.entry x
  · rw [here] at lt ⊢
    unfold splitBlocks
    rw [update_of_ne (by omega), update_of_ne (by omega), update_self]
    rfl
  · rw [splitBlocks_old lt here]

end

section
variable {entry : Nat → Nat}

theorem Good.divided (good : t.Good h log) (lt : x < t.capacity)
    (below : (t.block x).localDepth < t.globalDepth) (halves : Halves h x (t.block x) s0 s1)
    (redirects : ∀ d < t.capacity, entry d = redirected t.entry (t.block x).localDepth x t.fresh
      (t.fresh + 1) d) :
    (t.divided x entry s0 s1).Good h log := by
  have bound : x < 2 ^ t.globalDepth := good.capacity ▸ lt
  have known : ∀ d < 2 ^ t.globalDepth, t.entry d < t.fresh :=
    fun d less => good.known d (good.capacity ▸ less)
  have owned : LowOwned t.globalDepth (fun a => (t.splitBlocks x s0 s1 a).localDepth)
      (redirected t.entry (t.block x).localDepth x t.fresh (t.fresh + 1)) :=
    good.owned.redirect bound below (fun d less => (known d less).ne)
      (fun d less => by have := known d less; omega) (by omega)
      (by rw [splitBlocks_fresh0, halves.depth0]; rfl)
        (by rw [splitBlocks_fresh1, halves.depth1]; rfl)
      fun d less => splitBlocks_depth (known d less)
  refine ⟨good.capacity, owned.congr fun d less => redirects d (good.capacity ▸ less),
    fun d less => ?_, fun d less => ?_⟩
  · have less : d < t.capacity := less
    change entry d < t.fresh + 2
    rw [redirects d less]
    by_cases near : d % 2 ^ (t.block x).localDepth = x % 2 ^ (t.block x).localDepth
    · rw [redirected_of_eq near]
      split_ifs <;> omega
    · rw [redirected_of_ne near]
      exact (good.known d less).trans (by omega)
  · have less : d < t.capacity := less
    change Holds h log d (t.splitBlocks x s0 s1 (entry d))
    rw [redirects d less]
    by_cases near : d % 2 ^ (t.block x).localDepth = x % 2 ^ (t.block x).localDepth
    · have half := halves.holds (good.holds x lt) near
      rw [redirected_of_eq near]
      by_cases bit : d / 2 ^ (t.block x).localDepth % 2 = 0
      · rw [if_pos bit] at half ⊢
        rwa [splitBlocks_fresh0]
      · rw [if_neg bit] at half ⊢
        rwa [splitBlocks_fresh1]
    · have away : t.entry d ≠ t.entry x :=
        fun same => near ((good.owned.same_iff x bound d (good.capacity ▸ less)).mp same)
      rw [redirected_of_ne near, splitBlocks_old (good.known d less) away]
      exact good.holds d less

theorem divided_depth_of_ne
    (redirects : ∀ d < t.capacity, entry d = redirected t.entry l x t.fresh (t.fresh + 1) d)
    (lt : d < t.capacity) (known : t.entry d < t.fresh) (far : d % 2 ^ l ≠ x % 2 ^ l) :
    ((t.divided x entry s0 s1).block d).localDepth = (t.block d).localDepth := by
  change (t.splitBlocks x s0 s1 (entry d)).localDepth = _
  rw [redirects d lt, redirected_of_ne far]
  exact splitBlocks_depth known

end

/-- Two copies of the directory. -/
def doubled (t : ExtendibleHash) : ExtendibleHash :=
  { t with
    capacity := 2 * t.capacity, entry := fun d => t.entry (d % t.capacity),
    globalDepth := t.globalDepth + 1 }

theorem Good.doubled (good : t.Good h log) : t.doubled.Good h log := by
  refine ⟨?_, ?_, fun d _ => good.known _ (good.lt d), fun d _ => ?_⟩
  · change 2 * t.capacity = 2 ^ (t.globalDepth + 1)
    rw [good.capacity, pow_succ']
  · have extended := good.owned.extend
    rw [← good.capacity] at extended
    exact extended
  · have holds := good.holds _ (good.lt d)
    have le := good.localDepth_le (good.lt d)
    refine ⟨holds.sema, ?_, ?_⟩
    · exact holds.pattern.trans (good.mod_mod le d)
    · refine holds.contents.trans (Multiset.filter_congr fun p _ => ?_)
      unfold Agrees
      rw [good.mod_mod le d]
      rfl

def half0 (h : Key → BitVec 64) (b : Block) (key : Key) : Block :=
  { (b.split h).1 with pattern := h key % BitVec.ofNat 64 (2 ^ b.localDepth) }

def half1 (h : Key → BitVec 64) (b : Block) (key : Key) : Block :=
  { (b.split h).2 with
    pattern := h key % BitVec.ofNat 64 (2 ^ b.localDepth) + (1#32 <<< b.localDepth).signExtend 64 }

theorem toNat_mod_two_pow (w : BitVec 64) (lt : l < 64) :
    (w % BitVec.ofNat 64 (2 ^ l)).toNat = w.toNat % 2 ^ l := by
  have small : 2 ^ l < 2 ^ 64 := Nat.pow_lt_pow_right (by decide) lt
  rw [BitVec.toNat_umod, BitVec.toNat_ofNat, Nat.mod_eq_of_lt small]

theorem halves (full : ∀ i < kNumSlot, (b.slots i).Live) (small : b.localDepth < 31)
    (agree : x % 2 ^ b.localDepth = (h key).toNat % 2 ^ b.localDepth) :
    Halves h x b (half0 h b key) (half1 h b key) := by
  obtain ⟨⟨contents0, depth0, sema0⟩, contents1, depth1, sema1⟩ :=
    Block.moveSlots_spec (h := h) full le_rfl
  have pattern := toNat_mod_two_pow (h key) (l := b.localDepth) (by omega)
  have below : (h key).toNat % 2 ^ b.localDepth < 2 ^ b.localDepth := Nat.mod_lt _ (by positivity)
  have bound : 2 ^ b.localDepth < 2 ^ 31 := Nat.pow_lt_pow_right (by decide) small
  refine ⟨depth0, depth1, sema0, sema1, pattern.trans agree.symm, ?_, contents0, contents1⟩
  change (h key % BitVec.ofNat 64 (2 ^ b.localDepth) + (1#32 <<< b.localDepth).signExtend
    64).toNat = _
  rw [BitVec.toNat_add, pattern, toNat_int_shift small, agree]
  exact Nat.mod_eq_of_lt (by omega)

/-- The directory that `Insert` makes when the block has the global depth. -/
def copied (t : ExtendibleHash) (x : Nat) : Nat → Nat :=
  update (update (fun d => t.entry (d % t.capacity)) x t.fresh) (x + t.capacity)
    (t.fresh + 1)

theorem copied_eq (lt : x < t.capacity) (two : t.capacity = 2 ^ l) (less : d < 2 * t.capacity) :
    t.copied x d = redirected t.doubled.entry l x t.fresh (t.fresh + 1) d := by
  unfold copied redirected
  rw [← two, Nat.mod_eq_of_lt lt]
  by_cases high : d = x + t.capacity
  · have one : d / t.capacity = 1 := by
      rw [high, Nat.add_div_right _ (by omega), Nat.div_eq_of_lt lt]
    rw [if_pos (by rw [high, Nat.add_mod_right, Nat.mod_eq_of_lt lt]), if_neg (by rw [one]; decide),
      high, update_self]
  · rw [update_of_ne high]
    by_cases low : d = x
    · rw [if_pos (by rw [low, Nat.mod_eq_of_lt lt]), if_pos (by rw [low, Nat.div_eq_of_lt lt]),
        low, update_self]
    · rw [update_of_ne low, if_neg]
      · rfl
      · intro eq
        have whole := Nat.div_add_mod d t.capacity
        have quotient : d / t.capacity < 2 := Nat.div_lt_of_lt_mul (by omega)
        rcases Nat.lt_or_ge (d / t.capacity) 1 with zero | one
        · rw [Nat.lt_one_iff.mp zero, Nat.mul_zero] at whole
          omega
        · rw [show d / t.capacity = 1 by omega, Nat.mul_one] at whole
          omega

theorem block_doubled (lt : x < t.capacity) : t.doubled.block x = t.block x := by
  unfold block doubled
  dsimp only
  rw [Nat.mod_eq_of_lt lt]

theorem splitBlocks_doubled (lt : x < t.capacity) :
    t.doubled.splitBlocks x s0 s1 = t.splitBlocks x s0 s1 := by
  unfold splitBlocks
  rw [block_doubled lt]
  unfold doubled
  dsimp only
  rw [Nat.mod_eq_of_lt lt]

/-- The two ways in which `Insert` puts the halves of a full block into the directory. -/
theorem Good.splitBlock_eq (good : t.Good h log) (eq : (h key).toNat % t.capacity = x)
    (small : (t.block x).localDepth < 32) :
    t.splitBlock h key =
      if (t.block x).localDepth < t.globalDepth then
        (lsbUpdate t.capacity (half0 h (t.block x) key).localDepth t.globalDepth x (t.fresh,
          t.fresh + 1) t.entry).bind fun entry =>
          .ok (t.divided x entry (half0 h (t.block x) key) (half1 h (t.block x) key))
      else .ok (t.doubled.divided x (t.copied x) (half0 h (t.block x) key)
        (half1 h (t.block x) key)) := by
  have lt : x < t.capacity := eq ▸ good.lt _
  have sema : (t.blocks (t.entry x)).sema = 0 := (good.holds x lt).sema
  have small : (t.blocks (t.entry x)).localDepth < 32 := small
  have copy : t.doubled.divided x (t.copied x) (half0 h (t.block x) key) (half1 h (t.block x) key) =
      ⟨2 * t.capacity, t.copied x, t.globalDepth + 1,
        t.splitBlocks x (half0 h (t.block x) key) (half1 h (t.block x) key), t.fresh + 2⟩ := by
    unfold ExtendibleHash.divided
    rw [splitBlocks_doubled lt]
    rfl
  unfold ExtendibleHash.splitBlock
  dsimp only
  rw [copy, eq, if_pos sema, if_pos small]
  rfl

/-- A full block is split into two, and the law stays. The block of the key is one level deeper
afterwards, the others are where they were. -/
theorem Good.splitBlock (good : t.Good h log) (eq : (h key).toNat % t.capacity = x)
    (small : t.globalDepth < 31) (full : ∀ i < kNumSlot, ((t.block x).slots i).Live) :
    ∃ u, t.splitBlock h key = .ok u ∧ u.Good h log ∧ u.globalDepth ≤ 31 ∧
      (u.block ((h key).toNat % u.capacity)).localDepth = (t.block x).localDepth + 1 ∧
      u.globalDepth = (if (t.block x).localDepth < t.globalDepth then t.globalDepth
        else t.globalDepth + 1) ∧
      ∀ d < t.capacity, d % 2 ^ (t.block x).localDepth ≠ x % 2 ^ (t.block x).localDepth →
        (u.block d).localDepth = (t.block d).localDepth := by
  have lt : x < t.capacity := eq ▸ good.lt _
  have le := good.localDepth_le lt
  have agree : x % 2 ^ (t.block x).localDepth = (h key).toNat % 2 ^ (t.block x).localDepth := by
    rw [← good.mod_mod le (h key).toNat, eq]
  have made := halves full (by omega) agree
  -- the new entry of the key goes to one of the halves
  have deeper : ∀ (v : ExtendibleHash) entry, v.fresh = t.fresh →
      (∀ d < v.capacity, entry d = redirected v.entry (t.block x).localDepth x v.fresh
        (v.fresh + 1) d) →
      (∀ w, w % v.capacity % 2 ^ (t.block x).localDepth = w % 2 ^ (t.block x).localDepth) →
        0 < v.capacity →
      ((v.divided x entry (half0 h (t.block x) key) (half1 h (t.block x) key)).block
        ((h key).toNat % v.capacity)).localDepth = (t.block x).localDepth + 1 := by
    intro v entry _ redirects low pos
    have near : (h key).toNat % v.capacity % 2 ^ (t.block x).localDepth =
      x % 2 ^ (t.block x).localDepth := by rw [low, agree]
    change (v.splitBlocks x _ _ (entry _)).localDepth = _
    rw [redirects _ (Nat.mod_lt _ pos), redirected_of_eq near]
    split_ifs
    · rw [splitBlocks_fresh0, made.depth0]
    · rw [splitBlocks_fresh1, made.depth1]
  rw [good.splitBlock_eq eq (by omega)]
  by_cases below : (t.block x).localDepth < t.globalDepth
  · rw [if_pos below, if_pos below, made.depth0, good.capacity]
    obtain ⟨entry, updated, redirects, _⟩ :=
      lsbUpdate_spec (t.fresh, t.fresh + 1) t.entry below small (good.capacity ▸ lt)
    rw [updated]
    rw [← good.capacity] at redirects
    exact ⟨_, rfl, good.divided lt below made redirects, small.le,
      deeper t entry rfl redirects (good.mod_mod le) (by omega),
      rfl, fun d less => divided_depth_of_ne redirects (good.capacity ▸ less)
        (good.known d (good.capacity ▸ less))⟩
  · rw [if_neg below, if_neg below]
    have same : (t.block x).localDepth = t.globalDepth := by omega
    have redirects : ∀ d < t.doubled.capacity, t.copied x d =
        redirected t.doubled.entry (t.block x).localDepth x t.doubled.fresh (t.doubled.fresh + 1)
          d := fun d less =>
      copied_eq lt (same ▸ good.capacity) less
    have below' : (t.doubled.block x).localDepth < t.doubled.globalDepth := by
      rw [block_doubled lt, same]
      exact Nat.lt_succ_self _
    have wide : t.capacity ≤ t.doubled.capacity := Nat.le_mul_of_pos_left _ (by decide)
    refine ⟨_, rfl, good.doubled.divided (lt.trans_le wide) below' ?_ ?_, small, ?_, rfl,
      fun d less far => ?_⟩
    · rwa [block_doubled lt]
    · rwa [block_doubled lt]
    · exact deeper t.doubled (t.copied x) rfl redirects
        (good.doubled.mod_mod (le.trans (Nat.le_succ _))) (lt.trans_le wide).pos
    · have less' := less.trans_le wide
      rw [divided_depth_of_ne redirects less' (good.doubled.known d less') far, block_doubled less]

theorem Good.store {i : Nat} {p : Pair} (good : t.Good h log)
    (eq : (h p.key).toNat % t.capacity = x) (found : (t.block x).freeSlot = some i)
    (live : p.Live) :
    ({ t with blocks := update t.blocks (t.entry x) ((t.block x).store i p) } :
      ExtendibleHash).Good h (p ::ₘ log) := by
  have lt : x < t.capacity := eq ▸ good.lt _
  have depth : (fun a => (update t.blocks (t.entry x)
    ((t.block x).store i p) a).localDepth) = fun a => (t.blocks a).localDepth := by
    funext a
    by_cases here : a = t.entry x
    · rw [here, update_self]
      rfl
    · rw [update_of_ne here]
  refine ⟨good.capacity, ?_, good.known, fun d less => ?_⟩
  · change LowOwned t.globalDepth (fun a => (update t.blocks (t.entry x)
      ((t.block x).store i p) a).localDepth) t.entry
    rw [depth]
    exact good.owned
  · have less : d < t.capacity := less
    have inside : d < 2 ^ t.globalDepth := good.capacity ▸ less
    have inside' : x < 2 ^ t.globalDepth := good.capacity ▸ lt
    have holds := good.holds d less
    change Holds h (p ::ₘ log) d (update t.blocks (t.entry x) ((t.block x).store i p)
      (t.entry d))
    by_cases here : t.entry d = t.entry x
    · have same : t.block d = t.block x := congrArg t.blocks here
      have agree : Agrees h (t.block d).localDepth d p := by
        have near := (good.owned.same_iff d inside x inside').mp here.symm
        unfold Agrees
        rw [← good.mod_mod (good.localDepth_le less), eq]
        exact near
      rw [here, update_self, ← same]
      refine ⟨holds.sema, holds.pattern, ?_⟩
      rw [Block.contents_store (same ▸ found) live, holds.contents]
      exact (Multiset.filter_cons_of_pos _ agree).symm
    · have apart : ¬ Agrees h (t.block d).localDepth d p := by
        intro agree
        unfold Agrees at agree
        rw [← good.mod_mod (good.localDepth_le less), eq] at agree
        exact here ((good.owned.same_iff d inside x inside').mpr agree).symm
      rw [update_of_ne here]
      refine ⟨holds.sema, holds.pattern, ?_⟩
      exact holds.contents.trans (Multiset.filter_cons_of_neg _ apart).symm

theorem insert_of_slot {a turns : Nat} {value : Value} {b' : Block}
    (index : (h key).toNat % u.capacity = x) (entry : u.entry x = a)
    (stored : (u.blocks a).insert key value (h key) = .ok (.slot b')) :
    u.insert h (turns + 1) key value = ([], .ok
      { u with blocks := update u.blocks a b' }) := by
  rw [ExtendibleHash.insert, index, entry, stored]

/-- One turn of `Insert` stores the pair or splits the block of the key. -/
theorem Good.insert_succ (good : t.Good h log) (deep : t.globalDepth ≤ 31) (turns : Nat)
    (value : Value) (eq : (h key).toNat % t.capacity = x) :
    (∃ i, (t.block x).freeSlot = some i ∧ t.insert h (turns + 1) key value =
      ([], .ok { t with
        blocks := update t.blocks (t.entry x) ((t.block x).store i ⟨key, some value⟩) })) ∨
    (t.block x).freeSlot = none ∧ t.insert h (turns + 1) key value =
      match t.splitBlock h key with
      | .error stop => ([t.capacity], .error stop)
      | .ok u => (u.insert h turns key value).map (t.capacity :: ·) id := by
  have lt : x < t.capacity := eq ▸ good.lt _
  have holds := good.holds x lt
  have le := good.localDepth_le lt
  have pattern : (h key).toNat % 2 ^ (t.block x).localDepth = (t.block x).pattern.toNat := by
    rw [holds.pattern, ← eq, good.mod_mod (eq ▸ le)]
  rw [ExtendibleHash.insert, eq]
  rcases Block.insert_cases key value holds.sema (by omega) pattern with
    ⟨i, found, stored⟩ | ⟨full, stuck⟩
  · refine Or.inl ⟨i, found, ?_⟩
    rw [show (t.blocks (t.entry x)).insert key value (h key) = _ from stored]
  · refine Or.inr ⟨full, ?_⟩
    have stuck : (t.blocks (t.entry x)).insert key value (h key) = .ok .full := stuck
    exact stuck ▸ rfl

/-- `Insert` adds its pair when no block is split in a directory of 2^31 entries. -/
theorem Good.insert (turns : Nat) (value : Value) (good : t.Good h log) (deep : t.globalDepth ≤ 31)
    (valid : key ≠ invalidKey)
    (enough : 32 ≤ (t.block ((h key).toNat % t.capacity)).localDepth + turns)
    (splits : ∀ c ∈ (t.insert h turns key value).1, c < 2 ^ 31) :
    ∃ t', (t.insert h turns key value).2 = .ok t' ∧ t'.Good h (⟨key, some value⟩ ::ₘ log) ∧
      t'.globalDepth ≤ 31 := by
  induction turns generalizing t with
  | zero =>
    have le := good.localDepth_le (good.lt (h key).toNat)
    omega
  | succ turns ih =>
    rcases good.insert_succ deep turns value rfl with ⟨i, found, stored⟩ | ⟨full, divides⟩
    · rw [stored]
      exact ⟨_, rfl, good.store (p := ⟨key, some value⟩) rfl found valid, deep⟩
    · have small : t.globalDepth < 31 := by
        have least : t.capacity < 2 ^ 31 := splits t.capacity (by
          rw [divides]
          cases t.splitBlock h key with
          | error stop => exact List.mem_singleton_self _
          | ok u => exact List.mem_cons_self)
        rw [good.capacity] at least
        exact (Nat.pow_lt_pow_iff_right (by decide)).mp least
      obtain ⟨u, divided, good', deep', deeper, _⟩ :=
        good.splitBlock rfl small fun i lt => Block.freeSlot_none full lt
      rw [divides, divided] at splits ⊢
      exact ih good' deep' (by omega) fun c mem => splits c (List.mem_cons_of_mem _ mem)

/-- A key whose block has a slot left is stored in the first turn. -/
theorem Good.insert_of_room (good : t.Good h log) (deep : t.globalDepth ≤ 31) (turns : Nat)
    (value : Value) (valid : key ≠ invalidKey) (eq : (h key).toNat % t.capacity = x)
    (room : (t.block x).contents.card < kNumSlot) :
    ∃ t', t.insert h (turns + 1) key value = ([], .ok t') ∧ t'.Good h (⟨key, some value⟩ ::ₘ log) ∧
      t'.globalDepth = t.globalDepth ∧ ∀ d, (t'.block d).localDepth = (t.block d).localDepth := by
  rcases good.insert_succ deep turns value eq with ⟨i, found, stored⟩ | ⟨full, _⟩
  · refine ⟨_, stored, good.store (p := ⟨key, some value⟩) eq found valid, rfl, fun d => ?_⟩
    change (update t.blocks (t.entry x) _ (t.entry d)).localDepth = _
    by_cases here : t.entry d = t.entry x
    · rw [here, update_self]
      exact congrArg (fun a => (t.blocks a).localDepth) here.symm
    · rw [update_of_ne here]
      rfl
  · obtain ⟨i, found⟩ := Block.exists_freeSlot room
    exact absurd (full.symm.trans found) nofun

theorem Good.insert_of_full (good : t.Good h log) (deep : t.globalDepth ≤ 31) (turns : Nat)
    (value : Value) (eq : (h key).toNat % t.capacity = x)
    (full : (t.block x).contents.card = kNumSlot) :
    (∀ i < kNumSlot, ((t.block x).slots i).Live) ∧ t.insert h (turns + 1) key value =
      match t.splitBlock h key with
      | .error stop => ([t.capacity], .error stop)
      | .ok u => (u.insert h turns key value).map (t.capacity :: ·) id := by
  rcases good.insert_succ deep turns value eq with ⟨i, found, _⟩ | ⟨none, divides⟩
  · -- a free slot would leave fewer pairs than slots
    have more := Block.contents_store (p := ⟨0, none⟩) found (by decide)
    have bound := card_entries_le ((t.block x).store i ⟨0, none⟩).slots kNumSlot
    have card := congrArg Multiset.card more
    rw [Multiset.card_cons, full] at card
    unfold Block.contents at card
    omega
  · exact ⟨fun i lt => Block.freeSlot_none none lt, divides⟩

/-- A key whose block is full is stored in the second turn, if the half that it goes to has a slot
left. -/
theorem Good.insert_after_split (good : t.Good h log) (shallow : t.globalDepth < 31) (turns : Nat)
    (value : Value) (valid : key ≠ invalidKey) (eq : (h key).toNat % t.capacity = x)
    (full : (t.block x).contents.card = kNumSlot)
    (room : ∀ u : ExtendibleHash, u.Good h log →
      (u.block ((h key).toNat % u.capacity)).localDepth = (t.block x).localDepth + 1 →
        (u.block ((h key).toNat % u.capacity)).contents.card < kNumSlot) :
    ∃ v, t.insert h (turns + 2) key value = ([t.capacity], .ok v) ∧
      v.Good h (⟨key, some value⟩ ::ₘ log) ∧
      v.globalDepth = (if (t.block x).localDepth < t.globalDepth then t.globalDepth
        else t.globalDepth + 1) ∧
      ∀ d < t.capacity, d % 2 ^ (t.block x).localDepth ≠ x % 2 ^ (t.block x).localDepth →
        (v.block d).localDepth = (t.block d).localDepth := by
  obtain ⟨live, divides⟩ := good.insert_of_full shallow.le (turns + 1) value eq full
  obtain ⟨u, divided, good', deep, deeper, depth, levels⟩ := good.splitBlock eq shallow live
  obtain ⟨v, stored, good'', depth', levels'⟩ :=
    good'.insert_of_room deep turns value valid rfl (room u good' deeper)
  refine ⟨v, ?_, good'', depth'.trans depth, fun d lt far => (levels' d).trans (levels d lt far)⟩
  rw [divides, divided]
  dsimp only
  rw [stored]
  rfl

theorem insertAll_append {turns : Nat} {ops rest : List (Key × Value)} {splits : List Nat}
    (returned : t.insertAll h turns ops = (splits, .ok u)) :
    t.insertAll h turns (ops ++ rest) = (u.insertAll h turns rest).map (splits ++ ·) id := by
  induction ops generalizing t splits with
  | nil =>
    cases returned
    rfl
  | cons op ops ih =>
    rw [List.cons_append, ExtendibleHash.insertAll]
    rw [ExtendibleHash.insertAll] at returned
    cases inserted : t.insert h turns op.1 op.2 with
    | mk list result =>
      rw [inserted] at returned
      cases result with
      | error stop => cases congrArg Prod.snd returned
      | ok v =>
        have later : (v.insertAll h turns ops).2 = .ok u := congrArg Prod.snd returned
        have joined : list ++ (v.insertAll h turns ops).1 = splits := congrArg Prod.fst returned
        have next := ih (show v.insertAll h turns ops = (_, .ok u) from Prod.ext rfl later)
        dsimp only
        rw [next, ← joined]
        exact Prod.ext (List.append_assoc ..).symm rfl

theorem insertAll_last {turns : Nat} {op : Key × Value}
    (returned : (t.insert h turns op.1 op.2).2 = .ok u) :
    (t.insertAll h turns [op]).2 = .ok u := by
  rw [ExtendibleHash.insertAll]
  cases inserted : t.insert h turns op.1 op.2 with
  | mk list result =>
    rw [inserted] at returned
    obtain rfl : result = .ok u := returned
    rfl

theorem Good.insertAll {turns : Nat} (enough : 32 ≤ turns) (ops : List (Key × Value))
    (good : t.Good h log) (deep : t.globalDepth ≤ 31) (valid : ∀ op ∈ ops, op.1 ≠ invalidKey)
    (splits : ∀ c ∈ (t.insertAll h turns ops).1, c < 2 ^ 31) :
    ∃ t', (t.insertAll h turns ops).2 = .ok t' ∧ t'.Good h (↑(ops.map pairOf) + log) ∧
      t'.globalDepth ≤ 31 := by
  induction ops generalizing t log with
  | nil => exact ⟨t, rfl, by rwa [List.map_nil, Multiset.coe_nil, Multiset.zero_add], deep⟩
  | cons op ops ih =>
    unfold ExtendibleHash.insertAll at splits ⊢
    cases inserted : t.insert h turns op.1 op.2 with
    | mk list result =>
      rw [inserted] at splits
      have early : ∀ c ∈ list, c < 2 ^ 31 := by
        intro c mem
        refine splits c ?_
        cases result with
        | error stop => exact mem
        | ok u => exact List.mem_append_left _ mem
      obtain ⟨u, returned, good', deep'⟩ :=
        good.insert turns op.2 deep (valid op List.mem_cons_self) (by omega)
        (by rw [inserted]; exact early)
      rw [inserted] at returned
      obtain rfl : result = .ok u := returned
      have rest := ih good' deep' (fun op' mem => valid op' (List.mem_cons_of_mem op mem))
          fun c mem =>
        splits c (List.mem_append_right _ mem)
      rw [Multiset.add_cons] at rest
      rw [List.map_cons, ← Multiset.cons_coe, Multiset.cons_add]
      exact rest

/-- The store law: the size of the directory, the depths, patterns and keys of the blocks, and the
values of all keys. -/
structure Law (h : Key → BitVec 64) (t : ExtendibleHash) (ops : List (Key × Value)) : Prop where
  capacity : t.capacity = 2 ^ t.globalDepth
  depth : ∀ d < t.capacity, (t.block d).localDepth ≤ t.globalDepth
  pattern : ∀ d < t.capacity, (t.block d).pattern.toNat = d % 2 ^ (t.block d).localDepth
  keys : ∀ d < t.capacity, ∀ i < kNumSlot, ((t.block d).slots i).Live →
    (h ((t.block d).slots i).key).toNat % 2 ^ (t.block d).localDepth = (t.block d).pattern.toNat
  get : ∀ op ∈ ops, t.get h op.1 = some op.2

theorem Good.law {ops : List (Key × Value)} (good : t.Good h ↑(ops.map pairOf))
    (distinct : (ops.map Prod.fst).Nodup)
    (valid : ∀ op ∈ ops, op.1 ≠ invalidKey) : t.Law h ops := by
  refine ⟨good.capacity, fun d less => good.localDepth_le less, fun d less =>
    (good.holds d less).pattern,
    fun d less i lt live => ?_, fun op mem => ?_⟩
  · have inside : (t.block d).slots i ∈ (t.block d).contents := mem_entries.mpr ⟨i, lt, rfl, live⟩
    rw [(good.holds d less).contents] at inside
    rw [(good.holds d less).pattern]
    exact (Multiset.mem_filter.mp inside).2
  · have less := good.lt (h op.1).toNat
    have holds := good.holds _ less
    have agree : Agrees h (t.block ((h op.1).toNat % t.capacity)).localDepth
        ((h op.1).toNat % t.capacity) (pairOf op) :=
      (good.mod_mod (good.localDepth_le less) _).symm
    have inside : pairOf op ∈ (t.block ((h op.1).toNat % t.capacity)).contents := by
      rw [holds.contents]
      exact Multiset.mem_filter.mpr ⟨Multiset.mem_coe.mpr (List.mem_map_of_mem mem), agree⟩
    obtain ⟨i, lt, eq, _⟩ := mem_entries.mp inside
    -- whatever slot is found first, it has the key, and the log has the key once
    unfold ExtendibleHash.get
    dsimp only
    cases found : (List.range kNumSlot).find? fun i =>
      ((t.block ((h op.1).toNat % t.capacity)).slots i).key = op.1 with
    | none =>
      have missing := List.find?_eq_none.mp found i (List.mem_range.mpr lt)
      exact absurd (decide_eq_true (congrArg Pair.key eq)) missing
    | some j =>
      have hit := List.find?_some found
      have key : ((t.block ((h op.1).toNat % t.capacity)).slots j).key = op.1 :=
        of_decide_eq_true hit
      have there : (t.block ((h op.1).toNat % t.capacity)).slots j ∈
          (t.block ((h op.1).toNat % t.capacity)).contents :=
        mem_entries.mpr ⟨j, List.mem_range.mp (List.mem_of_find?_eq_some found), rfl,
          fun free => valid op mem (key ▸ free)⟩
      rw [holds.contents] at there
      obtain ⟨op', mem', same⟩ :=
        List.mem_map.mp (Multiset.mem_coe.mp (Multiset.mem_filter.mp there).1)
      obtain rfl : op' = op :=
        List.inj_on_of_nodup_map distinct mem' mem ((congrArg Pair.key same).trans key)
      rw [show (List.range kNumSlot).find? (fun i =>
        ((t.blocks (t.entry ((h op'.1).toNat % t.capacity))).slots i).key = op'.1) =
        some j from found]
      exact (congrArg Pair.value same).symm

theorem new_good {g : Nat} (small : g < 32) :
    ∃ t, new (2 ^ g) = .ok t ∧ t.Good h 0 ∧ t.globalDepth = g ∧
      ∀ d, (t.block d).localDepth = g := by
  have pow : 2 ^ g < 2 ^ 32 := Nat.pow_lt_pow_right (by decide) small
  unfold new
  rw [if_pos pow, Nat.log2_two_pow]
  refine ⟨_, rfl, ⟨rfl, ⟨fun d _ => le_rfl, fun d less e less' => ?_⟩, fun d less => less,
    fun d less => ⟨rfl, ?_, ?_⟩⟩, rfl, fun _ => rfl⟩
  · change e = d ↔ e % 2 ^ g = d % 2 ^ g
    rw [Nat.mod_eq_of_lt less, Nat.mod_eq_of_lt less']
  · have less : d < 2 ^ g := less
    change (BitVec.ofNat 64 d).toNat = d % 2 ^ g
    rw [BitVec.toNat_ofNat, Nat.mod_eq_of_lt (by omega), Nat.mod_eq_of_lt less]
  · exact entries_of_free fun _ _ => Pair.not_live_fresh

def firstKeys (n : Nat) : List (Key × Value) := (List.range n).map fun i => (BitVec.ofNat 64 i, 0)

theorem firstKeys_succ (n : Nat) : firstKeys (n + 1) = firstKeys n ++ [(BitVec.ofNat 64 n, 0)] := by
  unfold firstKeys
  rw [List.range_succ, List.map_append]
  rfl

theorem insertAll_firstKeys_succ {turns n : Nat} {splits more : List Nat} {v : ExtendibleHash}
    (run : t.insertAll h turns (firstKeys n) = (splits, .ok u))
    (stored : u.insert h turns (BitVec.ofNat 64 n) 0 = (more, .ok v)) :
    t.insertAll h turns (firstKeys (n + 1)) = (splits ++ more, .ok v) := by
  rw [firstKeys_succ, insertAll_append run, ExtendibleHash.insertAll, stored]
  exact Prod.ext (congrArg (splits ++ ·) (List.append_nil more)) rfl

theorem pairs_firstKeys_succ (n : Nat) : (↑((firstKeys (n + 1)).map pairOf) : Multiset Pair) =
    pairOf (BitVec.ofNat 64 n, 0) ::ₘ ↑((firstKeys n).map pairOf) := by
  rw [firstKeys_succ, List.map_append, ← Multiset.coe_add, Multiset.add_comm]
  rfl

section
variable {n : Nat} (small : n ≤ 2 ^ 63)

include small

theorem toNat_firstKey {i : Nat} (lt : i < n) : (BitVec.ofNat 64 i).toNat = i := by
  rw [BitVec.toNat_ofNat]
  exact Nat.mod_eq_of_lt (by omega)

theorem firstKeys_valid : ∀ op ∈ firstKeys n, op.1 ≠ invalidKey ∧ op.1 ≠ sentinelKey := by
  intro op mem
  obtain ⟨i, inside, rfl⟩ := List.mem_map.mp mem
  have lt := List.mem_range.mp inside
  have value := toNat_firstKey small lt
  refine ⟨fun eq => ?_, fun eq => ?_⟩
  · rw [show BitVec.ofNat 64 i = invalidKey from eq] at value
    have : (invalidKey : Key).toNat = 2 ^ 64 - 1 := rfl
    omega
  · rw [show BitVec.ofNat 64 i = sentinelKey from eq] at value
    have : (sentinelKey : Key).toNat = 2 ^ 64 - 2 := rfl
    omega

theorem firstKey_ne_invalid {i : Nat} (lt : i < n) : BitVec.ofNat 64 i ≠ invalidKey :=
  (firstKeys_valid small _ (List.mem_map_of_mem (List.mem_range.mpr lt))).1

theorem firstKeys_nodup : ((firstKeys n).map Prod.fst).Nodup := by
  unfold firstKeys
  rw [List.map_map]
  refine List.Nodup.map_on (fun i mem j mem' eq => ?_) List.nodup_range
  have same := congrArg BitVec.toNat (show BitVec.ofNat 64 i = BitVec.ofNat 64 j from eq)
  rwa [toNat_firstKey small (List.mem_range.mp mem), toNat_firstKey small (List.mem_range.mp mem')]
    at same

/-- With the identity as the hash function, the first keys spread evenly over the blocks. -/
theorem card_contents_firstKeys (good : t.Good id ↑((firstKeys n).map pairOf))
    (lt : d < t.capacity) :
    (t.block d).contents.card =
      n / 2 ^ (t.block d).localDepth +
        if d % 2 ^ (t.block d).localDepth < n % 2 ^ (t.block d).localDepth then 1 else 0 := by
  rw [(good.holds d lt).contents, ← Nat.count_modEq_card n (Nat.two_pow_pos _), Nat.count,
    firstKeys, List.map_map, ← Multiset.countP_eq_card_filter, Multiset.coe_countP, List.countP_map]
  refine List.countP_congr fun i mem => ?_
  simp only [Function.comp_apply, decide_eq_true_eq]
  unfold Agrees pairOf
  dsimp only [id]
  rw [toNat_firstKey small (List.mem_range.mp mem)]
  rfl

end

/-- The first keys fill two blocks. -/
theorem fill_two {t : ExtendibleHash} (good : t.Good id 0) (depth : t.globalDepth = 1)
    (levels : ∀ d, (t.block d).localDepth = 1) :
    ∀ n ≤ 2 * kNumSlot, ∃ u, t.insertAll id 32 (firstKeys n) = ([], .ok u) ∧
      u.Good id ↑((firstKeys n).map pairOf) ∧
      u.globalDepth = 1 ∧ ∀ d, (u.block d).localDepth = 1 := by
  have slots : kNumSlot = 16384 := by
    unfold Block.kNumSlot
    rfl
  intro n le
  induction n with
  | zero => exact ⟨t, rfl, good, depth, levels⟩
  | succ n ih =>
    obtain ⟨u, run, good, depth, levels⟩ := ih (by omega)
    have small : n + 1 ≤ 2 ^ 63 := by omega
    have card := card_contents_firstKeys (show n ≤ 2 ^ 63 by omega) good
      (good.lt (BitVec.ofNat 64 n).toNat)
    have capacity : u.capacity = 2 := by
      rw [good.capacity, depth]
      rfl
    rw [levels, capacity, toNat_firstKey small (Nat.lt_succ_self n)] at card
    obtain ⟨v, stored, good', depth', levels'⟩ := good.insert_of_room (by omega) 31 0
      (firstKey_ne_invalid small (Nat.lt_succ_self n)) rfl
      (by rw [capacity, id, toNat_firstKey small (Nat.lt_succ_self n)]; split at card <;> omega)
    exact ⟨v, insertAll_firstKeys_succ run stored, pairs_firstKeys_succ n ▸ good',
      depth'.trans depth, fun d => (levels' d).trans (levels d)⟩

/-- The law holds in every run whose directory has fewer than 2^31 entries whenever a block is
split, and `LSBUpdate` redirects exactly the entries of the split block in every directory of such a
size. -/
theorem insertAll_law (h : Key → BitVec 64) (g : Nat) (small : g < 32) (ops : List (Key × Value))
    (distinct : (ops.map Prod.fst).Nodup) (valid : ∀ op ∈ ops, op.1 ≠ invalidKey) (turns : Nat)
    (enough : 32 ≤ turns) :
    (∃ t, new (2 ^ g) = .ok t ∧ ((∀ c ∈ (t.insertAll h turns ops).1, c < 2 ^ 31) →
      ∃ t', (t.insertAll h turns ops).2 = .ok t' ∧ t'.Law h ops)) ∧
    ∀ (entry : Nat → Nat) (s : Nat × Nat) (depth localDepth x : Nat), depth < 31 → 1 ≤ localDepth →
      localDepth ≤ depth → x < 2 ^ depth →
      ∃ entry', lsbUpdate (2 ^ depth) localDepth depth x s entry = .ok entry' ∧
        ∀ d < 2 ^ depth, entry' d =
        if d % 2 ^ (localDepth - 1) = x % 2 ^
          (localDepth - 1) then (if d / 2 ^ (localDepth - 1) % 2 = 0 then s.1 else s.2)
        else entry d := by
  refine ⟨?_, fun entry s depth localDepth x small one le lt => ?_⟩
  · obtain ⟨t, made, good, depth, _⟩ := new_good (h := h) small
    refine ⟨t, made, fun splits => ?_⟩
    obtain ⟨t', returned, good', _⟩ := good.insertAll enough ops (by omega) valid splits
    rw [Multiset.add_zero] at good'
    exact ⟨t', returned, good'.law distinct valid⟩
  · obtain ⟨entry', eq, apply, _⟩ :=
      lsbUpdate_spec s entry (show localDepth - 1 < depth by omega) small lt
    rw [show localDepth - 1 + 1 = localDepth by omega] at eq
    exact ⟨entry', eq, apply⟩

/-- Two blocks are filled. The next key doubles the directory, and the one after it makes
`LSBUpdate` redirect the entries of the other block. -/
theorem insertAll_law_two_splits : ∃ t t', new (2 ^ 1) = .ok t ∧
    t.insertAll id 32 (firstKeys (2 * kNumSlot + 2)) = ([2, 4], .ok t') ∧ t'.capacity = 4 ∧
      t'.Law id (firstKeys (2 * kNumSlot + 2)) := by
  have slots : kNumSlot = 16384 := by
    unfold Block.kNumSlot
    rfl
  have small : 2 * kNumSlot + 2 ≤ 2 ^ 63 := by omega
  obtain ⟨t, made, good, depth, levels⟩ := new_good (h := id) (g := 1) (by decide)
  obtain ⟨u, run, good₁, depth₁, levels₁⟩ := fill_two good depth levels _ le_rfl
  have capacity : u.capacity = 2 := by
    rw [good₁.capacity, depth₁]
    rfl
  have index : ∀ i < 2 * kNumSlot + 2, (BitVec.ofNat 64 i).toNat = i :=
    fun i => toNat_firstKey small
  have valid : ∀ i < 2 * kNumSlot + 2, BitVec.ofNat 64 i ≠ invalidKey :=
    fun i => firstKey_ne_invalid small
  -- a quarter of the keys goes to a half of a full block
  have room : ∀ n (w : ExtendibleHash), 2 * kNumSlot ≤ n → n < 2 * kNumSlot + 2 →
      w.Good id ↑((firstKeys n).map pairOf) →
        ∀ key : Key, (w.block ((id key).toNat % w.capacity)).localDepth = 1 + 1 →
        (w.block ((id key).toNat % w.capacity)).contents.card < kNumSlot := by
    intro n w _ lt good key level
    have card := card_contents_firstKeys (by omega) good (good.lt (id key).toNat)
    rw [level] at card
    split at card <;> omega
  have card := card_contents_firstKeys (by omega) good₁ (d := 0) (by omega)
  rw [levels₁] at card
  obtain ⟨v, stored, good₂, depth₂, levels₂⟩ := good₁.insert_after_split (x := 0) (by omega) 30 0
    (valid (2 * kNumSlot) (by omega)) (by rw [id, index _ (by omega), capacity]; omega)
        (by split at card <;> omega) fun w good deeper =>
      room (2 * kNumSlot) w (by omega) (by omega) good _ (by rw [deeper, levels₁])
  rw [levels₁, depth₁, if_neg (lt_irrefl 1)] at depth₂
  rw [levels₁] at levels₂
  rw [capacity] at stored
  have run₂ := insertAll_firstKeys_succ run stored
  have good₂ : v.Good id ↑((firstKeys (2 * kNumSlot + 1)).map pairOf) :=
    pairs_firstKeys_succ _ ▸ good₂
  have capacity₂ : v.capacity = 4 := by
    rw [good₂.capacity, depth₂]
    rfl
  have level : (v.block 1).localDepth = 1 := (levels₂ 1 (by omega) (by decide)).trans (levels₁ 1)
  have card₂ := card_contents_firstKeys (by omega) good₂ (d := 1) (by omega)
  rw [level] at card₂
  obtain ⟨w, stored₂, good₃, depth₃, _⟩ := good₂.insert_after_split (x := 1) (by omega) 30 0
    (valid (2 * kNumSlot + 1) (by omega)) (by rw [id, index _ (by omega), capacity₂]; omega)
    (by split at card₂ <;> omega) fun w good deeper =>
      room (2 * kNumSlot + 1) w (by omega) (by omega) good _ (by rw [deeper, level])
  rw [level, depth₂, if_pos (by decide)] at depth₃
  rw [capacity₂] at stored₂
  have run₃ := insertAll_firstKeys_succ run₂ stored₂
  obtain ⟨⟨t', made', law⟩, _⟩ :=
    insertAll_law id 1 (by decide) (firstKeys (2 * kNumSlot + 2)) (firstKeys_nodup small)
    (fun op mem => (firstKeys_valid small op mem).1) 32 le_rfl
  obtain rfl : t = t' := Except.ok.inj (made.symm.trans made')
  rw [run₃] at law
  obtain ⟨_, eq, law⟩ := law (show ∀ c ∈ [2, 4], c < 2 ^ 31 by decide)
  cases eq
  refine ⟨t, w, made, run₃, ?_, law⟩
  rw [good₃.capacity, depth₃]
  rfl

/-- All keys of a table are in the block of the entry 0, which has the global depth. -/
structure Crowded (h : Key → BitVec 64) (t : ExtendibleHash) (log : Multiset Pair)
    (depth : Nat) : Prop where
  good : t.Good h log
  globalDepth : t.globalDepth = depth
  localDepth : (t.block 0).localDepth = depth
  zero : ∀ p ∈ log, (h p.key).toNat % 2 ^ 31 = 0

theorem mod_of_zero {w : Nat} (zero : w % 2 ^ 31 = 0) (le : l ≤ 31) : w % 2 ^ l = 0 := by
  rw [← Nat.mod_mod_of_dvd w (Nat.pow_dvd_pow 2 le), zero]
  exact Nat.zero_mod _

section
variable {depth : Nat}

theorem Crowded.contents (crowded : Crowded h t log depth) (le : depth ≤ 31) :
    (t.block 0).contents = log := by
  have pos : 0 < t.capacity := by rw [crowded.good.capacity]; positivity
  rw [(crowded.good.holds 0 pos).contents, crowded.localDepth]
  refine Multiset.filter_eq_self.mpr fun p mem => ?_
  exact (mod_of_zero (crowded.zero p mem) le).trans (Nat.zero_mod _).symm

theorem Crowded.index (crowded : Crowded h t log depth) (le : depth ≤ 31)
    (zero : (h key).toNat % 2 ^ 31 = 0) :
    (h key).toNat % t.capacity = 0 := by
  rw [crowded.good.capacity, crowded.globalDepth]
  exact mod_of_zero zero le

/-- A key finds a slot as long as there is one. -/
theorem Crowded.store (turns : Nat) (crowded : Crowded h t log depth) (le : depth ≤ 31)
    (room : log.card < kNumSlot) (value : Value) (valid : key ≠ invalidKey)
    (zero : (h key).toNat % 2 ^ 31 = 0) :
    ∃ t', t.insert h (turns + 1) key value = ([], .ok t') ∧
      Crowded h t' (⟨key, some value⟩ ::ₘ log) depth := by
  obtain ⟨t', stored, good, depth', levels⟩ :=
    crowded.good.insert_of_room (crowded.globalDepth ▸ le) turns value valid
    (crowded.index le zero) (by rwa [crowded.contents le])
  refine ⟨t', stored, good, depth'.trans crowded.globalDepth, (levels 0).trans crowded.localDepth,
    fun p mem => ?_⟩
  rcases Multiset.mem_cons.mp mem with rfl | mem
  · exact zero
  · exact crowded.zero p mem

theorem Crowded.fill (turns : Nat) (le : depth ≤ 31) (ops : List (Key × Value))
    (crowded : Crowded h t log depth) (room : log.card + ops.length ≤ kNumSlot)
    (valid : ∀ op ∈ ops, op.1 ≠ invalidKey) (zero : ∀ op ∈ ops, (h op.1).toNat % 2 ^ 31 = 0) :
    ∃ t', t.insertAll h (turns + 1) ops = ([], .ok t') ∧
      Crowded h t' (↑(ops.map pairOf) + log) depth := by
  induction ops generalizing t log with
  | nil => exact ⟨t, rfl, by rwa [List.map_nil, Multiset.coe_nil, Multiset.zero_add]⟩
  | cons op ops ih =>
    rw [List.length_cons] at room
    obtain ⟨u, stored, crowded'⟩ :=
      crowded.store turns le (by omega) op.2 (valid op List.mem_cons_self)
      (zero op List.mem_cons_self)
    obtain ⟨t', filled, crowded''⟩ := ih crowded' (by rw [Multiset.card_cons]; omega)
      (fun op' mem => valid op' (List.mem_cons_of_mem op mem)) fun op' mem =>
        zero op' (List.mem_cons_of_mem op mem)
    refine ⟨t', ?_, ?_⟩
    · rw [ExtendibleHash.insertAll, stored]
      dsimp only
      rw [filled]
      rfl
    · rw [Multiset.add_cons] at crowded''
      rw [List.map_cons, ← Multiset.cons_coe, Multiset.cons_add]
      exact crowded''

/-- Full of keys that agree on 31 bits, the table doubles until its depth is 31. -/
theorem Crowded.deepen (turns : Nat) (key : Key) (value : Value) (crowded : Crowded h t log depth)
    (full : log.card = kNumSlot) (zero : (h key).toNat % 2 ^ 31 = 0) (n : Nat)
    (le : depth + n = 31) :
    ∃ u, Crowded h u log 31 ∧ (t.insert h (turns + n) key value).2 =
      (u.insert h turns key value).2 := by
  induction n generalizing t depth with
  | zero => exact ⟨t, le ▸ crowded, rfl⟩
  | succ n ih =>
    have le' : t.globalDepth ≤ 31 := by
      rw [crowded.globalDepth]
      omega
    obtain ⟨live, divides⟩ :=
      crowded.good.insert_of_full le' (turns + n) value (crowded.index (by omega) zero)
      (by rwa [crowded.contents (by omega)])
    obtain ⟨u, divided, good, _, deeper, doubles, _⟩ :=
      crowded.good.splitBlock (crowded.index (by omega) zero)
      (by rw [crowded.globalDepth]; omega) live
    have depth' : u.globalDepth = depth + 1 := by
      rw [doubles, crowded.localDepth, crowded.globalDepth, if_neg (lt_irrefl depth)]
    have index : (h key).toNat % u.capacity = 0 := by
      rw [good.capacity, depth']
      exact mod_of_zero zero (by omega)
    rw [index, crowded.localDepth] at deeper
    obtain ⟨v, crowded', same⟩ := ih ⟨good, depth', deeper, crowded.zero⟩ (by omega)
    refine ⟨v, crowded', ?_⟩
    rw [← Nat.add_assoc, divides, divided]
    exact same

/-- The split at depth 31 gives the second half a pattern from a negative `int`. -/
theorem Crowded.overflow (turns : Nat) (key : Key) (value : Value) (crowded : Crowded h t log 31)
    (full : log.card = kNumSlot) (zero : (h key).toNat % 2 ^ 32 = 0)
    (other : ∃ p ∈ log, ¬ Side h 31 0 p) :
    ∃ t', (t.insert h (turns + 2) key value).2 = .ok t' ∧ 2 ^ 31 < t'.capacity ∧
      (t'.block (2 ^ 31)).localDepth = 32 ∧
      (t'.block (2 ^ 31)).pattern.toNat = 2 ^ 64 - 2 ^ 31 := by
  have zero31 : (h key).toNat % 2 ^ 31 = 0 := by omega
  have capacity : t.capacity = 2 ^ 31 := by rw [crowded.good.capacity, crowded.globalDepth]
  obtain ⟨live, divides⟩ :=
    crowded.good.insert_of_full crowded.globalDepth.le (turns + 1) value
      (crowded.index le_rfl zero31) (by rwa [crowded.contents le_rfl])
  have divided :=
    crowded.good.splitBlock_eq (crowded.index le_rfl zero31) (by rw [crowded.localDepth]; decide)
  rw [if_neg (by rw [crowded.localDepth, crowded.globalDepth]; exact lt_irrefl 31)] at divided
  obtain ⟨⟨contents0, depth0, sema0⟩, _, depth1, _⟩ := Block.moveSlots_spec (h := h) live le_rfl
  rw [crowded.localDepth] at contents0 depth0 depth1
  -- the key goes to the first half, which has room
  have entry0 : t.copied 0 0 = t.fresh := by
    unfold copied
    rw [update_of_ne (by omega), update_self]
  have entry1 : t.copied 0 (2 ^ 31) = t.fresh + 1 := by
    unfold copied
    rw [Nat.zero_add, capacity, update_self]
  have pattern0 : (h key).toNat % 2 ^ (half0 h (t.block 0) key).localDepth =
      (half0 h (t.block 0) key).pattern.toNat := by
    have low := toNat_mod_two_pow (h key) (l := 31) (by decide)
    change (h key).toNat % 2 ^ ((t.block 0).moveSlots h kNumSlot).1.localDepth =
      (h key % BitVec.ofNat 64 (2 ^ (t.block 0).localDepth)).toNat
    rw [depth0, crowded.localDepth, low, zero31, zero]
  rcases Block.insert_cases key value (b := half0 h (t.block 0) key) sema0
    (by change ((t.block 0).moveSlots h kNumSlot).1.localDepth < 64; rw [depth0]; decide) pattern0
      with ⟨i, _, stored⟩ | ⟨none, _⟩
  · have second : update (t.doubled.splitBlocks 0 (half0 h (t.block 0) key)
      (half1 h (t.block 0) key)) t.fresh
        ((half0 h (t.block 0) key).store i ⟨key, some value⟩) (t.copied 0 (2 ^ 31)) =
          half1 h (t.block 0) key := by
      rw [entry1, update_of_ne (by omega)]
      exact splitBlocks_fresh1
    refine ⟨{ t.doubled.divided 0 (t.copied 0) (half0 h (t.block 0) key)
          (half1 h (t.block 0) key) with
        blocks := update (t.doubled.splitBlocks 0 (half0 h (t.block 0) key)
          (half1 h (t.block 0) key)) t.fresh
          ((half0 h (t.block 0) key).store i ⟨key, some value⟩) }, ?_, ?_, ?_, ?_⟩
    · rw [divides, divided]
      refine congrArg Prod.snd (insert_of_slot (u := t.doubled.divided 0 (t.copied 0) _ _) ?_
        entry0 ?_)
      · change (h key).toNat % (2 * t.capacity) = 0
        rw [capacity]
        exact zero
      · change (t.doubled.splitBlocks 0 _ _ t.doubled.fresh).insert key value (h key) = _
        rw [splitBlocks_fresh0]
        exact stored
    · change 2 ^ 31 < 2 * t.capacity
      omega
    · exact (congrArg Block.localDepth second).trans depth1
    · have low : h key % BitVec.ofNat 64 (2 ^ 31) = 0 :=
        BitVec.eq_of_toNat_eq ((toNat_mod_two_pow (h key) (by decide)).trans zero31)
      refine (congrArg (fun b => b.pattern.toNat) second).trans ?_
      change (h key % BitVec.ofNat 64 (2 ^ (t.block 0).localDepth) +
        (1#32 <<< (t.block 0).localDepth).signExtend 64).toNat = _
      rw [crowded.localDepth, low]
      rfl
  · have card : (half0 h (t.block 0) key).contents.card = kNumSlot :=
      card_entries_of_live fun i lt => Block.freeSlot_none none lt
    have contents : (half0 h (t.block 0) key).contents = log.filter (Side h 31 0) := by
      rw [← crowded.contents le_rfl]
      exact contents0
    obtain ⟨p, mem, not⟩ := other
    rw [contents, ← full] at card
    have all := Multiset.eq_of_le_of_card_le (Multiset.filter_le (Side h 31 0) log) card.ge
    exact absurd (Multiset.filter_eq_self.mp all p mem) not

end

/-- One key more than a block has slots. -/
def crowd : List (Key × Value) := firstKeys 16385

theorem toNat_shiftLeft_mod (w : BitVec 64) : (w <<< 31).toNat % 2 ^ 31 = 0 := by
  rw [BitVec.toNat_shiftLeft, Nat.shiftLeft_eq, Nat.mod_mod_of_dvd _ (by decide)]
  exact Nat.mul_mod_left _ _

/-- 16385 keys whose hash values agree on 31 bits, inserted into the smallest table: the directory
grows to 2^32 entries, and the block of the entry 2^31 has the pattern of a negative `int`. -/
theorem deep_split_breaks_pattern :
    (crowd.map Prod.fst).Nodup ∧ (∀ op ∈ crowd, op.1 ≠ invalidKey ∧ op.1 ≠ sentinelKey) ∧
    ∃ t t', new 1 = .ok t ∧ (t.insertAll (fun key => key <<< 31) 64 crowd).2 = .ok t' ∧
      2 ^ 31 < t'.capacity ∧
      (t'.block (2 ^ 31)).pattern.toNat ≠ 2 ^ 31 % 2 ^ (t'.block (2 ^ 31)).localDepth := by
  refine ⟨firstKeys_nodup (by decide), firstKeys_valid (by decide), ?_⟩
  have slots : kNumSlot = 16384 := by
    unfold Block.kNumSlot
    rfl
  have length : (firstKeys 16384).length = kNumSlot := by
    unfold firstKeys
    rw [slots, List.length_map, List.length_range]
  obtain ⟨t, made, good, depth, levels⟩ :=
    new_good (h := fun key => key <<< 31) (g := 0) (by decide)
  have start : Crowded (fun key => key <<< 31) t 0 0 := ⟨good, depth, levels 0, nofun⟩
  obtain ⟨t₁, run, filled⟩ :=
    start.fill 63 (by decide) (firstKeys 16384) (by rw [Multiset.card_zero]; omega)
    (fun op mem => (firstKeys_valid (by decide) op mem).1) fun op _ => toNat_shiftLeft_mod op.1
  rw [Multiset.add_zero] at filled
  have full : Multiset.card (↑((firstKeys 16384).map pairOf) : Multiset Pair) = kNumSlot := by
    rw [Multiset.coe_card, List.length_map, length]
  have one : pairOf (1, 0) ∈ (↑((firstKeys 16384).map pairOf) : Multiset Pair) :=
    Multiset.mem_coe.mpr (List.mem_map_of_mem
      (List.mem_map.mpr ⟨1, List.mem_range.mpr (by decide), rfl⟩))
  obtain ⟨u, deep, later⟩ :=
    filled.deepen 33 (BitVec.ofNat 64 16384) 0 full (toNat_shiftLeft_mod _) 31 rfl
  obtain ⟨t', returned, capacity, level, pattern⟩ := deep.overflow 31 (BitVec.ofNat 64 16384) 0 full
    (by decide) ⟨_, one, by decide⟩
  refine ⟨t, t', made, ?_, capacity, ?_⟩
  · rw [crowd, firstKeys_succ, insertAll_append run]
    exact insertAll_last (later.trans returned)
  · rw [pattern, level]
    decide

end ExtendibleHash

end Xcache
