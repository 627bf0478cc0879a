import Xcache.Lib.Blocks
import Xcache.Pair

/-! Segments of the extendible hash table (`server/src/cceh.h`, `server/src/cceh.cpp`,
built without INPLACE): slots, probe windows and splits. The hash function is a
parameter. -/

namespace Xcache.CCEH
open Blocks (top top_succ)

def kMask : BitVec 64 := 255
def kNumPairPerCacheLine : Nat := 4
def kNumCacheLine : Nat := 8
def kNumSlot : Nat := 1024

/-- A right shift as the processor does it: only the low six bits of the count are used. -/
def shr64 (x count : BitVec 64) : BitVec 64 := x >>> (count.toNat % 64)

/-- `key_hash >> (64 - depth)`, for a directory index or for the prefix of a segment. -/
def index (depth : Nat) (hash : BitVec 64) : Nat :=
  (shr64 hash (64#64 - BitVec.ofNat 64 depth)).toNat

/-- `x >> (dir_depth - local_depth)`. -/
def patternOf (dirDepth localDepth x : Nat) : Nat :=
  (shr64 (BitVec.ofNat 64 x) (BitVec.ofNat 64 dirDepth - BitVec.ofNat 64 localDepth)).toNat

/-- The test `key_hash & pattern` of a split. -/
def splitBit (localDepth : Nat) (hash : BitVec 64) : Bool :=
  hash &&& 1#64 <<< ((64#64 - BitVec.ofNat 64 localDepth - 1#64).toNat % 64) ≠ 0

/-- The first slot of the probe window. -/
def window (hash : BitVec 64) : Nat :=
  ((hash &&& kMask) * BitVec.ofNat 64 kNumPairPerCacheLine).toNat

def slotAt (y i : Nat) : Fin kNumSlot := ⟨(y + i) % kNumSlot, Nat.mod_lt _ (by decide)⟩

/-- The slots that a probe loop visits, in its order. -/
def windowSlots (y : Nat) : List (Fin kNumSlot) :=
  (List.range (kNumPairPerCacheLine * kNumCacheLine)).map (slotAt y)

theorem shr64_toNat {x : BitVec 64} {a b : Nat} (hb : b ≤ a) (hsub : a - b < 64) (ha : a ≤ 64) :
    (shr64 x (BitVec.ofNat 64 a - BitVec.ofNat 64 b)).toNat = x.toNat / 2 ^ (a - b) := by
  have count : (BitVec.ofNat 64 a - BitVec.ofNat 64 b).toNat % 64 = a - b := by
    rw [BitVec.toNat_sub, BitVec.toNat_ofNat, BitVec.toNat_ofNat]
    omega
  rw [shr64, BitVec.toNat_ushiftRight, count, Nat.shiftRight_eq_div_pow]

theorem index_eq {depth : Nat} (pos : 1 ≤ depth) (le : depth ≤ 64) (hash : BitVec 64) :
    index depth hash = top 64 depth hash.toNat :=
  shr64_toNat le (by omega) (le_refl 64)

theorem index_lt {depth : Nat} (pos : 1 ≤ depth) (le : depth ≤ 64) (hash : BitVec 64) :
    index depth hash < 2 ^ depth := by
  rw [index_eq pos le]
  exact Blocks.top_lt hash.isLt le

theorem patternOf_eq {dirDepth localDepth x : Nat} (hl : localDepth ≤ dirDepth) (hd : dirDepth < 64)
    (hx : x < 2 ^ 64) : patternOf dirDepth localDepth x = x / 2 ^ (dirDepth - localDepth) := by
  rw [patternOf, shr64_toNat hl (by omega) (by omega), BitVec.toNat_ofNat, Nat.mod_eq_of_lt hx]

theorem patternOf_index {dirDepth localDepth : Nat} (hl : localDepth ≤ dirDepth)
    (pos : 1 ≤ dirDepth) (hd : dirDepth < 64) (hash : BitVec 64) :
    patternOf dirDepth localDepth (index dirDepth hash) = top 64 localDepth hash.toNat := by
  have small : index dirDepth hash < 2 ^ 64 :=
    (index_lt pos (by omega) hash).trans (Nat.pow_lt_pow_right (by decide) hd)
  rw [patternOf_eq hl hd small, index_eq pos (by omega), Blocks.top_div hl (by omega)]

theorem splitBit_iff {localDepth : Nat} (hl : localDepth < 64) (hash : BitVec 64) :
    splitBit localDepth hash = true ↔ hash.toNat / 2 ^ (64 - localDepth - 1) % 2 = 1 := by
  have count : (64#64 - BitVec.ofNat 64 localDepth - 1#64).toNat % 64 = 64 - localDepth - 1 := by
    simp only [BitVec.toNat_sub, BitVec.toNat_ofNat]
    omega
  have bit : hash &&& 1#64 <<< (64 - localDepth - 1) ≠ 0 ↔
      hash.getLsbD (64 - localDepth - 1) = true := by
    rw [← BitVec.twoPow_eq, BitVec.and_twoPow]
    split
    · refine iff_of_true ?_ ‹_›
      intro zero
      have := congrArg (BitVec.getLsbD · (64 - localDepth - 1)) zero
      simp at this
      omega
    · exact iff_of_false (by simp) ‹_›
  rw [splitBit, count, decide_eq_true_iff, bit, BitVec.getLsbD, Nat.testBit_eq_decide_div_mod_eq,
    decide_eq_true_iff]

theorem nodup_windowSlots (y : Nat) : (windowSlots y).Nodup := by
  refine List.Nodup.map_on ?_ List.nodup_range
  intro i hi j hj eq
  have bound : kNumPairPerCacheLine * kNumCacheLine = 32 := rfl
  rw [List.mem_range, bound] at hi hj
  have same : (y + i) % 1024 = (y + j) % 1024 := congrArg Fin.val eq
  omega

/-- Slots, lock word and local depth. -/
structure Segment where
  slots : Fin kNumSlot → Pair
  sema : Int
  localDepth : Nat

namespace Segment

def new (depth : Nat) : Segment := ⟨fun _ => Pair.fresh, 0, depth⟩

def set (s : Segment) (i : Fin kNumSlot) (p : Pair) : Segment :=
  { s with slots := Function.update s.slots i p }

@[simp] theorem set_slots (s : Segment) (i : Fin kNumSlot) (p : Pair) :
    (s.set i p).slots = Function.update s.slots i p := rfl

@[simp] theorem set_localDepth (s : Segment) (i : Fin kNumSlot) (p : Pair) :
    (s.set i p).localDepth = s.localDepth := rfl

@[simp] theorem set_sema (s : Segment) (i : Fin kNumSlot) (p : Pair) : (s.set i p).sema = s.sema :=
  rfl

/-- The first free slot of the window takes the pair; without one the pair is dropped. -/
def insert4split (s : Segment) (p : Pair) (loc : Nat) : Segment :=
  match (windowSlots loc).find? fun i => (s.slots i).key = invalidKey with
  | some i => s.set i p
  | none => s

variable (h : Key → BitVec 64)

/-- The loop body of `Split`: free slots are reinserted like any other. -/
def splitStep (localDepth : Nat) (halves : Segment × Segment) (p : Pair) : Segment × Segment :=
  if splitBit localDepth (h p.key) then (halves.1, halves.2.insert4split p (window (h p.key)))
  else (halves.1.insert4split p (window (h p.key)), halves.2)

def split (s : Segment) : Segment × Segment :=
  (List.finRange kNumSlot).foldl (fun halves i => splitStep h s.localDepth halves (s.slots i))
    (new (s.localDepth + 1), new (s.localDepth + 1))

/-- The half that takes over a key. -/
def child (s : Segment) (key : Key) : Segment :=
  if splitBit s.localDepth (h key) then (s.split h).2 else (s.split h).1

/-- The slot test of `Insert`: a foreign prefix counts as free. -/
def Usable (s : Segment) (pattern : Nat) (i : Fin kNumSlot) : Prop :=
  (index s.localDepth (h (s.slots i).key) ≠ pattern ∨ (s.slots i).key = invalidKey) ∧
    (s.slots i).key ≠ sentinelKey

instance (s : Segment) (pattern : Nat) : DecidablePred (s.Usable h pattern) := fun _ =>
  inferInstanceAs (Decidable (_ ∧ _))

def findSlot (s : Segment) (pattern y : Nat) : Option (Fin kNumSlot) :=
  (windowSlots y).find? fun i => s.Usable h pattern i

/-- Every live pair has the prefix of the segment and lies in its own window. -/
def Placed (s : Segment) (pre : Nat) : Prop :=
  ∀ i, (s.slots i).Live → top 64 s.localDepth (h (s.slots i).key).toNat = pre ∧
    i ∈ windowSlots (window (h (s.slots i).key))

theorem placed_new (depth pre : Nat) : (new depth).Placed h pre := fun _ live => absurd rfl live

variable {h}

theorem Placed.set {s : Segment} {pre : Nat} (placed : s.Placed h pre) {i : Fin kNumSlot} {p : Pair}
    (fits : p.Live →
      top 64 s.localDepth (h p.key).toNat = pre ∧ i ∈ windowSlots (window (h p.key))) :
    (s.set i p).Placed h pre := by
  intro j live
  rw [set_slots] at live ⊢
  by_cases same : j = i
  · subst same
    rw [Function.update_self] at live ⊢
    exact fits live
  · rw [Function.update_of_ne same] at live ⊢
    exact placed j live

theorem insert4split_cases (s : Segment) (p : Pair) (loc : Nat) :
    (∃ i ∈ windowSlots loc, ¬ (s.slots i).Live ∧ s.insert4split p loc = s.set i p) ∨
      (∀ i ∈ windowSlots loc, (s.slots i).Live) ∧ s.insert4split p loc = s := by
  unfold insert4split
  cases found : (windowSlots loc).find? fun i => (s.slots i).key = invalidKey with
  | some i =>
    refine Or.inl ⟨i, List.mem_of_find?_eq_some found, ?_, rfl⟩
    simpa [Pair.Live] using List.find?_some found
  | none => exact Or.inr ⟨fun i mem => by simpa [Pair.Live] using List.find?_eq_none.mp found i mem,
    rfl⟩

@[simp] theorem insert4split_localDepth (s : Segment) (p : Pair) (loc : Nat) :
    (s.insert4split p loc).localDepth = s.localDepth := by
  unfold insert4split
  split <;> rfl

@[simp] theorem insert4split_sema (s : Segment) (p : Pair) (loc : Nat) :
    (s.insert4split p loc).sema = s.sema := by
  unfold insert4split
  split <;> rfl

theorem Placed.insert4split {s : Segment} {pre : Nat} (placed : s.Placed h pre) {p : Pair}
    (fits : p.Live → top 64 s.localDepth (h p.key).toNat = pre) :
    (s.insert4split p (window (h p.key))).Placed h pre := by
  rcases insert4split_cases s p (window (h p.key)) with ⟨i, mem, _, eq⟩ | ⟨_, eq⟩
  · rw [eq]
    exact placed.set fun live => ⟨fits live, mem⟩
  · rwa [eq]

/-- What holds of two new segments and survives each reinsertion holds of the halves. -/
theorem split_induct {s : Segment} {P Q : Segment → Prop} (newP : P (new (s.localDepth + 1)))
    (newQ : Q (new (s.localDepth + 1)))
    (low : ∀ (i : Fin kNumSlot) lo, splitBit s.localDepth (h (s.slots i).key) = false → P lo →
      P (lo.insert4split (s.slots i) (window (h (s.slots i).key))))
    (high : ∀ (i : Fin kNumSlot) hi, splitBit s.localDepth (h (s.slots i).key) = true → Q hi →
      Q (hi.insert4split (s.slots i) (window (h (s.slots i).key)))) :
    P (s.split h).1 ∧ Q (s.split h).2 := by
  unfold split
  refine List.foldlRecOn (motive := fun halves : Segment × Segment => P halves.1 ∧
    Q halves.2) _ _ ⟨newP, newQ⟩ ?_
  intro halves both i _
  unfold splitStep
  cases bit : splitBit s.localDepth (h (s.slots i).key) with
  | true => exact ⟨both.1, high i _ bit both.2⟩
  | false => exact ⟨low i _ bit both.1, both.2⟩

theorem split_localDepth (s : Segment) :
    (s.split h).1.localDepth = s.localDepth + 1 ∧ (s.split h).2.localDepth = s.localDepth + 1 :=
  split_induct (P := fun half => half.localDepth = s.localDepth + 1)
    (Q := fun half => half.localDepth = s.localDepth + 1) rfl rfl
    (fun _ _ _ lo => by rwa [insert4split_localDepth])
    (fun _ _ _ hi => by rwa [insert4split_localDepth])

theorem split_sema (s : Segment) : (s.split h).1.sema = 0 ∧ (s.split h).2.sema = 0 :=
  split_induct (P := fun half => half.sema = 0) (Q := fun half => half.sema = 0) rfl rfl
    (fun _ _ _ lo => by rwa [insert4split_sema])
    (fun _ _ _ hi => by rwa [insert4split_sema])

/-- A split only moves pairs: every live pair of a half was in the segment. -/
theorem split_origin (s : Segment) :
    (∀ i, ((s.split h).1.slots i).Live → ∃ j, s.slots j = (s.split h).1.slots i) ∧
      ∀ i, ((s.split h).2.slots i).Live → ∃ j, s.slots j = (s.split h).2.slots i := by
  have step : ∀ (j : Fin kNumSlot) (half : Segment),
    (∀ i, (half.slots i).Live → ∃ j, s.slots j = half.slots i) →
      ∀ i, ((half.insert4split (s.slots j) (window (h (s.slots j).key))).slots i).Live →
        ∃ j', s.slots j' = (half.insert4split (s.slots j) (window (h (s.slots j).key))).slots
          i := by
    intro j half origin i live
    rcases insert4split_cases half (s.slots j) (window (h (s.slots j).key)) with
      ⟨l, _, _, eq⟩ | ⟨_, eq⟩
    · rw [eq, set_slots] at live ⊢
      by_cases same : i = l
      · exact ⟨j, by rw [same, Function.update_self]⟩
      · rw [Function.update_of_ne same] at live ⊢
        exact origin i live
    · rw [eq] at live ⊢
      exact origin i live
  exact split_induct (P := fun half => ∀ i, (half.slots i).Live → ∃ j, s.slots j = half.slots i)
    (Q := fun half => ∀ i, (half.slots i).Live → ∃ j, s.slots j = half.slots i)
    (fun _ live => absurd rfl live) (fun _ live => absurd rfl live) (fun j half _ => step j half)
    (fun j half _ => step j half)

/-- The halves carry the two extensions of the prefix. -/
theorem Placed.split {s : Segment} {pre : Nat} (placed : s.Placed h pre)
    (depth : s.localDepth < 64) :
    (s.split h).1.Placed h (2 * pre) ∧ (s.split h).2.Placed h (2 * pre + 1) := by
  have extended : ∀ i : Fin kNumSlot, (s.slots i).Live →
      top 64 (s.localDepth + 1) (h (s.slots i).key).toNat =
        2 * pre + if splitBit s.localDepth (h (s.slots i).key) then 1 else 0 := by
    intro i live
    rw [top_succ depth, (placed i live).1]
    congr 1
    split
    · exact (splitBit_iff depth _).mp ‹_›
    · have := (splitBit_iff depth (h (s.slots i).key)).not.mp ‹_›
      omega
  have halves := split_induct (h := h) (s := s)
    (P := fun lo => lo.localDepth = s.localDepth + 1 ∧ lo.Placed h (2 * pre))
    (Q := fun hi => hi.localDepth = s.localDepth + 1 ∧ hi.Placed h (2 * pre + 1))
    ⟨rfl, placed_new h _ _⟩ ⟨rfl, placed_new h _ _⟩ ?_ ?_
  · exact ⟨halves.1.2, halves.2.2⟩
  · rintro i lo bit ⟨eq, ih⟩
    refine ⟨(insert4split_localDepth _ _ _).trans eq, ih.insert4split fun live => ?_⟩
    rw [eq, extended i live, bit]
    rfl
  · rintro i hi bit ⟨eq, ih⟩
    refine ⟨(insert4split_localDepth _ _ _).trans eq, ih.insert4split fun live => ?_⟩
    rw [eq, extended i live, bit]
    rfl

theorem findSlot_some {s : Segment} {pattern y : Nat} {i : Fin kNumSlot}
    (found : s.findSlot h pattern y = some i) : i ∈ windowSlots y ∧ s.Usable h pattern i := by
  unfold findSlot at found
  exact ⟨List.mem_of_find?_eq_some found, by simpa using List.find?_some found⟩

theorem findSlot_none {s : Segment} {pattern y : Nat} :
    s.findSlot h pattern y = none ↔ ∀ i ∈ windowSlots y, ¬ s.Usable h pattern i := by
  unfold findSlot
  simp

theorem usable_of_not_live {s : Segment} {i : Fin kNumSlot} (free : ¬ (s.slots i).Live)
    (pattern : Nat) :
    s.Usable h pattern i := by
  have key : (s.slots i).key = invalidKey := not_not.mp free
  exact ⟨Or.inr key, by rw [key]; decide⟩

theorem findSlot_of_not_live {s : Segment} {i : Fin kNumSlot} {y : Nat} (mem : i ∈ windowSlots y)
    (free : ¬ (s.slots i).Live) (pattern : Nat) : ∃ j, s.findSlot h pattern y = some j := by
  apply Option.ne_none_iff_exists'.mp
  intro none
  exact findSlot_none.mp none i mem (usable_of_not_live free pattern)

/-- In a segment whose pairs are placed, only free slots are usable. -/
theorem Placed.not_live_of_usable {s : Segment} {pre : Nat} (placed : s.Placed h pre)
    (pos : 1 ≤ s.localDepth) (le : s.localDepth ≤ 64) {i : Fin kNumSlot}
    (usable : s.Usable h pre i) :
    ¬ (s.slots i).Live := by
  intro live
  rcases usable.1 with foreign | free
  · exact foreign ((index_eq pos le _).trans (placed i live).1)
  · exact live free

end Segment

end Xcache.CCEH
