import Xcache.CCEH.Segment
import Xcache.Lib.Probing

/-! What `Segment::Split` does with the pairs of a segment: it puts them, in the order of their
slots, into the first free slot of their windows in the two new segments. -/

namespace Xcache.CCEH.Segment
open Function

section
variable (h : Key → BitVec 64) (s : Segment)

def bitOf (i : Fin kNumSlot) : Bool := splitBit s.localDepth (h (s.slots i).key)

def startOf (i : Fin kNumSlot) : Nat := window (h (s.slots i).key)

/-- The two new segments after some rounds of the loop. -/
def splitUpTo (n : Nat) : Segment × Segment :=
  ((List.finRange kNumSlot).take n).foldl (fun halves i =>
    splitStep h s.localDepth halves (s.slots i))
    (new (s.localDepth + 1), new (s.localDepth + 1))

def half (b : Bool) (halves : Segment × Segment) : Segment := if b then halves.2 else halves.1

/-- The window of the pair is full when its turn comes: `Insert4split` writes its message. -/
def Dropped (i : Fin kNumSlot) : Prop :=
  ∀ j ∈ windowSlots (startOf h s i), ((half (bitOf h s i) (splitUpTo h s i)).slots j).Live

/-- The pairs before slot `i` that go to the same half and whose windows start at most `d` slots
before the window of slot `i` and at most `k` slots after it. -/
def rivals (i : Fin kNumSlot) (d k : Nat) : Finset (Fin kNumSlot) :=
  Finset.univ.filter fun i' => i' < i ∧ (s.slots i').Live ∧ bitOf h s i' = bitOf h s i ∧
    (startOf h s i' + d + kNumSlot - startOf h s i) % kNumSlot ≤ d + k

/-- The pairs before slot `i` fill its window. -/
def Crowded (i : Fin kNumSlot) : Prop :=
  ∃ d, ∀ k < kNumPairPerCacheLine * kNumCacheLine, d + k < (rivals h s i d k).card

end

theorem window_lt (hash : BitVec 64) : window hash < kNumSlot := by
  have masked : (hash &&& kMask).toNat ≤ 255 := by
    rw [BitVec.toNat_and]
    exact Nat.and_le_right
  simp only [window, kNumPairPerCacheLine, kNumSlot, BitVec.toNat_mul, BitVec.toNat_ofNat]
  omega

def nextSlot : Equiv.Perm (Fin kNumSlot) where
  toFun i := slotAt i 1
  invFun i := slotAt i 1023
  left_inv i := by
    have small : i.val < 1024 := i.isLt
    apply Fin.ext
    simp only [slotAt, kNumSlot]
    omega
  right_inv i := by
    have small : i.val < 1024 := i.isLt
    apply Fin.ext
    simp only [slotAt, kNumSlot]
    omega

theorem nextSlot_pow (i : Fin kNumSlot) (k : Nat) :
    ((nextSlot ^ k) i).val = (i + k) % kNumSlot := by
  induction k with
  | zero => exact (Nat.mod_eq_of_lt i.isLt).symm
  | succ k ih =>
    rw [pow_succ', Equiv.Perm.mul_apply]
    change (((nextSlot ^ k) i).val + 1) % kNumSlot = _
    rw [ih, Nat.mod_add_mod, Nat.add_assoc]

theorem slotAt_eq (y k : Nat) : slotAt y k = (nextSlot ^ k) (slotAt y 0) := by
  apply Fin.ext
  rw [nextSlot_pow]
  simp only [slotAt, kNumSlot]
  omega

theorem mem_windowSlots {y : Nat} {j : Fin kNumSlot} :
    j ∈ windowSlots y ↔ ∃ k < kNumPairPerCacheLine * kNumCacheLine, slotAt y k = j := by
  simp [windowSlots]

theorem mem_row_iff {w w' d len : Nat} (lt : w < kNumSlot) (lt' : w' < kNumSlot) :
    (∃ j < len, slotAt w' 0 = (nextSlot ^ j) ((nextSlot⁻¹ ^ d) (slotAt w 0))) ↔
      (w' + d + kNumSlot - w) % kNumSlot < len := by
  generalize eq : (nextSlot⁻¹ ^ d) (slotAt w 0) = b
  have back : (b.val + d) % kNumSlot = w := by
    have : (nextSlot ^ d) b = slotAt w 0 := by
      rw [← eq, Probing.pow_inv_apply nextSlot (le_refl d), Nat.sub_self,
        pow_zero, Equiv.Perm.one_apply]
    rw [← nextSlot_pow, this]
    exact Nat.mod_eq_of_lt lt
  have small := b.isLt
  have same : ∀ j, slotAt w' 0 = (nextSlot ^ j) b ↔ w' = (b.val + j) % kNumSlot := by
    intro j
    rw [Fin.ext_iff, nextSlot_pow]
    simp only [slotAt, Nat.add_zero, Nat.mod_eq_of_lt lt']
  simp only [same]
  unfold kNumSlot at *
  constructor
  · rintro ⟨j, few, at_⟩
    omega
  · intro few
    exact ⟨_, few, by omega⟩

section
variable {h : Key → BitVec 64} {s : Segment}

theorem splitUpTo_all : splitUpTo h s kNumSlot = s.split h := by
  unfold splitUpTo split
  rw [List.take_of_length_le (by rw [List.length_finRange])]

theorem splitUpTo_succ (i : Fin kNumSlot) :
    splitUpTo h s (i + 1) = splitStep h s.localDepth (splitUpTo h s i) (s.slots i) := by
  have next : (List.finRange kNumSlot).take (i + 1) = (List.finRange kNumSlot).take i ++ [i] := by
    rw [List.take_add_one, List.getElem?_eq_getElem (by simp), List.getElem_finRange]
    rfl
  rw [splitUpTo, next, List.foldl_append]
  rfl

theorem half_splitStep (b : Bool) (localDepth : Nat) (halves : Segment × Segment) (p : Pair) :
    half b (splitStep h localDepth halves p) =
      if splitBit localDepth (h p.key) = b then (half b halves).insert4split p (window (h p.key))
        else half b halves := by
  unfold half splitStep
  cases b <;> cases splitBit localDepth (h p.key) <;> rfl

/-- What holds of a new segment and survives the rounds that concern one of the halves. -/
theorem half_induct {b : Bool} {P : Nat → Segment → Prop} (start : P 0 (new (s.localDepth + 1)))
    (put : ∀ i : Fin kNumSlot, bitOf h s i = b → P i (half b (splitUpTo h s i)) →
      P (i + 1) ((half b (splitUpTo h s i)).insert4split (s.slots i) (startOf h s i)))
    (skip : ∀ i : Fin kNumSlot, bitOf h s i ≠ b → P i (half b (splitUpTo h s i)) →
      P (i + 1) (half b (splitUpTo h s i)))
    {n : Nat} (le : n ≤ kNumSlot) : P n (half b (splitUpTo h s n)) := by
  induction n with
  | zero => cases b <;> exact start
  | succ n ih =>
    have before := ih (by omega)
    have round := splitUpTo_succ (h := h) (s := s) ⟨n, le⟩
    rw [show n + 1 = (⟨n, le⟩ : Fin kNumSlot).val + 1 from rfl, round, half_splitStep]
    split_ifs with mine
    · exact put ⟨n, le⟩ mine before
    · exact skip ⟨n, le⟩ mine before

theorem insert4split_first (g : Segment) (p : Pair) (loc : Nat) :
    (∃ m < kNumPairPerCacheLine * kNumCacheLine, (∀ i < m, (g.slots (slotAt loc i)).Live) ∧
      ¬ (g.slots (slotAt loc m)).Live ∧ g.insert4split p loc = g.set (slotAt loc m) p) ∨
    (∀ j ∈ windowSlots loc, (g.slots j).Live) ∧ g.insert4split p loc = g := by
  unfold insert4split windowSlots
  rw [List.find?_map]
  cases found : (List.range (kNumPairPerCacheLine * kNumCacheLine)).find?
      ((fun i => decide ((g.slots i).key = invalidKey)) ∘ slotAt loc) with
  | none =>
    refine Or.inr ⟨?_, rfl⟩
    intro j mem
    obtain ⟨k, small, rfl⟩ := List.mem_map.mp mem
    simpa [Pair.Live] using List.find?_eq_none.mp found k small
  | some m =>
    obtain ⟨free, small, before⟩ := List.find?_range_eq_some.mp found
    refine Or.inl ⟨m, List.mem_range.mp small, ?_, ?_, rfl⟩
    · intro i lt
      simpa [Pair.Live] using before i lt
    · simpa [Pair.Live] using free

/-- Who has a slot: where the window of its pair starts. -/
def homes (h : Key → BitVec 64) (g : Segment) (j : Fin kNumSlot) : Option (Fin kNumSlot) :=
  if (g.slots j).key = invalidKey then none else some (slotAt (window (h (g.slots j).key)) 0)

theorem homes_ne_none {g : Segment} {j : Fin kNumSlot} : homes h g j ≠ none ↔ (g.slots j).Live := by
  unfold homes
  split_ifs with free <;> simp [Pair.Live, free]

theorem homes_set_live (g : Segment) (j : Fin kNumSlot) {p : Pair} (live : p.Live) :
    homes h (g.set j p) = update (homes h g) j (some (slotAt (window (h p.key)) 0)) := by
  funext j'
  by_cases here : j' = j
  · subst here
    simp [homes, if_neg live]
  · simp [homes, here]

theorem homes_set_free (g : Segment) {j : Fin kNumSlot} {p : Pair} (free : ¬ (g.slots j).Live)
    (none_ : ¬ p.Live) :
    homes h (g.set j p) = homes h g := by
  funext j'
  by_cases here : j' = j
  · subst here
    simp [homes, not_not.mp free, not_not.mp none_]
  · simp [homes, here]

theorem reached_half (b : Bool) {n : Nat} (le : n ≤ kNumSlot) :
    Probing.Reached nextSlot (homes h (half b (splitUpTo h s n))) := by
  refine half_induct (P := fun _ g => Probing.Reached nextSlot (homes h g)) ?_ ?_
    (fun _ _ reached => reached) le
  · intro j p eq
    simp [homes, new, Pair.fresh] at eq
  · intro i _ reached
    rcases insert4split_first (half b (splitUpTo h s i)) (s.slots i) (startOf h s i) with
      ⟨m, -, before, free, eq⟩ | ⟨-, eq⟩
    · rw [eq]
      by_cases live : (s.slots i).Live
      · rw [homes_set_live _ _ live, slotAt_eq]
        refine reached.insert fun k lt => ?_
        rw [← slotAt_eq, homes_ne_none]
        exact before k lt
      · rwa [homes_set_free _ free live]
    · rwa [eq]

/-- A half has only pairs that belong there and were not dropped, each in its own window. -/
theorem half_origin (b : Bool) {n : Nat} (le : n ≤ kNumSlot) {j : Fin kNumSlot}
    (live : ((half b (splitUpTo h s n)).slots j).Live) :
    ∃ i : Fin kNumSlot, i < n ∧ s.slots i = (half b (splitUpTo h s n)).slots j ∧ bitOf h s i = b ∧
      ¬ Dropped h s i ∧
      j ∈ windowSlots (startOf h s i) := by
  refine half_induct (P := fun n g => ∀ j, (g.slots j).Live → ∃ i : Fin kNumSlot, i < n ∧
    s.slots i = g.slots j ∧
    bitOf h s i = b ∧ ¬ Dropped h s i ∧ j ∈ windowSlots (startOf h s i)) ?_ ?_ ?_ le j live
  · intro j live
    exact absurd rfl live
  · intro i mine origin j live
    have older : ((half b (splitUpTo h s i)).slots j).Live → _ := origin j
    rcases insert4split_cases (half b (splitUpTo h s i)) (s.slots i) (startOf h s i) with
      ⟨j', mem, free, eq⟩ | ⟨-, eq⟩
    · rw [eq, set_slots] at live ⊢
      by_cases here : j = j'
      · subst here mine
        rw [update_self]
        exact ⟨i, Nat.lt_succ_self _, rfl, rfl, fun dropped => free (dropped j mem), mem⟩
      · rw [update_of_ne here] at live ⊢
        obtain ⟨i', lt, rest⟩ := older live
        exact ⟨i', lt.trans (Nat.lt_succ_self _), rest⟩
    · rw [eq] at live ⊢
      obtain ⟨i', lt, rest⟩ := older live
      exact ⟨i', lt.trans (Nat.lt_succ_self _), rest⟩
  · intro i _ origin j live
    obtain ⟨i', lt, rest⟩ := origin j live
    exact ⟨i', lt.trans (Nat.lt_succ_self _), rest⟩

theorem card_first_succ (Q : Fin kNumSlot → Prop) [DecidablePred Q] (i : Fin kNumSlot) :
    (Finset.univ.filter fun i' : Fin kNumSlot => i'.val < i + 1 ∧ Q i').card =
      (Finset.univ.filter fun i' : Fin kNumSlot => i'.val < i ∧ Q i').card +
        if Q i then 1 else 0 := by
  have apart : i ∉ Finset.univ.filter fun i' : Fin kNumSlot => i'.val < i ∧ Q i' := by simp
  have same : ∀ i' : Fin kNumSlot, i'.val < i + 1 ↔ i' = i ∨ i'.val < i := by
    intro i'
    rw [Fin.ext_iff]
    omega
  by_cases holds : Q i
  · have grown : (Finset.univ.filter fun i' : Fin kNumSlot => i'.val < i + 1 ∧ Q i') =
        insert i (Finset.univ.filter fun i' : Fin kNumSlot => i'.val < i ∧ Q i') := by
      ext i'
      by_cases here : i' = i <;> simp [same, here, holds]
    rw [if_pos holds, grown, Finset.card_insert_of_notMem apart]
  · have grown : (Finset.univ.filter fun i' : Fin kNumSlot => i'.val < i + 1 ∧ Q i') =
        Finset.univ.filter fun i' : Fin kNumSlot => i'.val < i ∧ Q i' := by
      ext i'
      by_cases here : i' = i <;> simp [same, here, holds]
    rw [if_neg holds, grown, Nat.add_zero]

/-- As long as no pair was dropped, a half has as many pairs with windows from some slots on as the
segment has among the slots gone through. -/
theorem homesIn_half (b : Bool) {n : Nat} (le : n ≤ kNumSlot)
    (kept : ∀ i : Fin kNumSlot, i < n → (s.slots i).Live → bitOf h s i = b → ¬ Dropped h s i)
    (c : Fin kNumSlot) (len : Nat) :
    Probing.homesIn nextSlot (homes h (half b (splitUpTo h s n))) c len =
      (Finset.univ.filter fun i : Fin kNumSlot => i.val < n ∧ (s.slots i).Live ∧ bitOf h s i = b ∧
        ∃ j < len, slotAt (startOf h s i) 0 = (nextSlot ^ j) c).card := by
  refine half_induct (P := fun n g => (∀ i : Fin kNumSlot, i < n → (s.slots i).Live →
    bitOf h s i = b → ¬ Dropped h s i) →
    Probing.homesIn nextSlot (homes h g) c len =
      (Finset.univ.filter fun i : Fin kNumSlot => i.val < n ∧
      (s.slots i).Live ∧ bitOf h s i = b ∧ ∃ j < len, slotAt (startOf h s i) 0 =
        (nextSlot ^ j) c).card) ?_ ?_ ?_ le kept
  · intro _
    simp [Probing.homesIn, homes, new, Pair.fresh]
  · intro i mine count kept
    have before := count fun i' lt => kept i' (lt.trans (Nat.lt_succ_self _))
    rw [card_first_succ, ← before]
    by_cases live : (s.slots i).Live
    · rcases insert4split_first (half b (splitUpTo h s i)) (s.slots i) (startOf h s i) with
        ⟨m, -, -, free, eq⟩ | ⟨full, -⟩
      · rw [eq, homes_set_live _ _ live, Probing.homesIn_update
          (not_not.mp (homes_ne_none.not.mpr free))]
        simp [live, mine, startOf]
      · subst mine
        exact absurd full (kept i (Nat.lt_succ_self _) live rfl)
    · have same : homes h ((half b (splitUpTo h s i)).insert4split (s.slots i) (startOf h s i)) =
          homes h (half b (splitUpTo h s i)) := by
        rcases insert4split_cases (half b (splitUpTo h s i)) (s.slots i) (startOf h s i) with
          ⟨j, -, free, eq⟩ | ⟨-, eq⟩
        · rw [eq, homes_set_free _ free live]
        · rw [eq]
      rw [same, if_neg (fun holds => live holds.1), Nat.add_zero]
  · intro i other count kept
    rw [card_first_succ, if_neg (fun holds => other holds.2.1), Nat.add_zero]
    exact count fun i' lt => kept i' (lt.trans (Nat.lt_succ_self _))

theorem exists_forth (a t : Fin kNumSlot) : ∃ j < kNumSlot, (nextSlot ^ j) a = t := by
  have small := a.isLt
  have small' := t.isLt
  refine ⟨(t.val + kNumSlot - a) % kNumSlot, Nat.mod_lt _ (by decide), ?_⟩
  apply Fin.ext
  rw [nextSlot_pow]
  unfold kNumSlot at *
  omega

theorem exists_back (a t : Fin kNumSlot) : ∃ d, (nextSlot⁻¹ ^ d) a = t := by
  obtain ⟨d, -, forth⟩ := exists_forth t a
  refine ⟨d, ?_⟩
  rw [inv_pow, Equiv.Perm.inv_eq_iff_eq]
  exact forth.symm

theorem card_half (b : Bool) {n : Nat} (le : n ≤ kNumSlot)
    (kept : ∀ i : Fin kNumSlot, i < n → (s.slots i).Live → bitOf h s i = b → ¬ Dropped h s i) :
    (Finset.univ.filter fun j => ((half b (splitUpTo h s n)).slots j).Live).card =
      (Finset.univ.filter fun i : Fin kNumSlot => i.val < n ∧ (s.slots i).Live ∧
        bitOf h s i = b).card := by
  -- the windows that start in one of all slots are all windows
  have count := homesIn_half b le kept (slotAt 0 0) kNumSlot
  rw [Probing.homesIn] at count
  convert count using 3 with j
  · rw [← homes_ne_none (h := h), Option.ne_none_iff_exists']
    constructor
    · rintro ⟨p, eq⟩
      obtain ⟨k, small, rfl⟩ := exists_forth (slotAt 0 0) p
      exact ⟨k, small, eq⟩
    · rintro ⟨k, _, eq⟩
      exact ⟨_, eq⟩
  · rename_i i _
    obtain ⟨k, small, eq⟩ := exists_forth (slotAt 0 0) (slotAt (startOf h s i) 0)
    exact and_congr_right fun _ => and_congr_right fun _ => (and_iff_left ⟨k, small, eq.symm⟩).symm

/-- Fewer pairs than slots leave a slot free. -/
theorem exists_free (b : Bool) {n : Nat} (lt : n < kNumSlot)
    (kept : ∀ i : Fin kNumSlot, i < n → (s.slots i).Live → bitOf h s i = b → ¬ Dropped h s i)
    (a : Fin kNumSlot) :
    ∃ d, homes h (half b (splitUpTo h s n)) ((nextSlot⁻¹ ^ d) a) = none := by
  by_contra none_
  push Not at none_
  have all := card_half b lt.le kept
  rw [Finset.filter_true_of_mem, Finset.card_univ, Fintype.card_fin] at all
  · have few : (Finset.univ.filter fun i : Fin kNumSlot => i.val < n ∧ (s.slots i).Live ∧
      bitOf h s i = b).card ≤ (Finset.range n).card := by
      refine Finset.card_le_card_of_injOn Fin.val ?_ (Fin.val_injective.injOn)
      intro i mem
      exact Finset.mem_coe.mpr (Finset.mem_range.mpr (Finset.mem_filter.mp mem).2.1)
    rw [Finset.card_range] at few
    omega
  · intro j _
    obtain ⟨d, rfl⟩ := exists_back a j
    exact homes_ne_none.mp (none_ d)

theorem dropped_iff_crowded {i : Fin kNumSlot}
    (kept : ∀ i' : Fin kNumSlot, i' < i → (s.slots i').Live → ¬ Dropped h s i') :
    Dropped h s i ↔ Crowded h s i := by
  have kept' : ∀ i' : Fin kNumSlot, i' < i.val → (s.slots i').Live → bitOf h s i' = bitOf h s i →
      ¬ Dropped h s i' :=
    fun i' lt live _ => kept i' lt live
  have full : Dropped h s i ↔ ∀ k < kNumPairPerCacheLine * kNumCacheLine,
      homes h (half (bitOf h s i) (splitUpTo h s i)) ((nextSlot ^ k) (slotAt (startOf h s i) 0)) ≠
        none := by
    simp only [Dropped, windowSlots, List.forall_mem_map, List.mem_range, homes_ne_none,
      ← slotAt_eq]
  rw [full, Probing.full_iff (reached_half _ i.isLt.le) (exists_free _ i.isLt kept' _)]
  refine exists_congr fun d => forall_congr' fun k => imp_congr_right fun _ => ?_
  rw [homesIn_half _ i.isLt.le kept', rivals, Nat.succ_le_iff]
  simp only [startOf, mem_row_iff (window_lt _) (window_lt _)]
  simp only [Nat.lt_succ_iff, Fin.lt_def]

theorem half_grows (b : Bool) {n m : Nat} (nm : n ≤ m) (le : m ≤ kNumSlot) {j : Fin kNumSlot}
    (live : ((half b (splitUpTo h s n)).slots j).Live) :
    (half b (splitUpTo h s m)).slots j = (half b (splitUpTo h s n)).slots j := by
  induction m, nm using Nat.le_induction with
  | base => rfl
  | succ m nm ih =>
    have same := ih (by omega)
    rw [splitUpTo_succ ⟨m, le⟩, half_splitStep]
    split_ifs
    · rcases insert4split_cases (half b (splitUpTo h s m)) (s.slots ⟨m, le⟩)
          (window (h (s.slots ⟨m, le⟩).key)) with
        ⟨j', -, free, eq⟩ | ⟨-, eq⟩
      · have other : j ≠ j' := by
          rintro rfl
          rw [same] at free
          exact free live
        rw [eq, set_slots, update_of_ne other, same]
      · rw [eq, same]
    · exact same

theorem stored_of_not_dropped {i : Fin kNumSlot} (live : (s.slots i).Live)
    (room : ¬ Dropped h s i) :
    ∃ j ∈ windowSlots (startOf h s i), (half (bitOf h s i) (s.split h)).slots j = s.slots i := by
  have round : half (bitOf h s i) (splitUpTo h s (i + 1)) =
      (half (bitOf h s i) (splitUpTo h s i)).insert4split (s.slots i) (startOf h s i) := by
    rw [splitUpTo_succ, half_splitStep, bitOf, if_pos rfl, startOf]
  rcases insert4split_cases (half (bitOf h s i) (splitUpTo h s i)) (s.slots i) (startOf h s i) with
    ⟨j, mem, -, eq⟩ | ⟨full, -⟩
  · have here : (half (bitOf h s i) (splitUpTo h s (i + 1))).slots j = s.slots i := by
      rw [round, eq, set_slots, update_self]
    refine ⟨j, mem, ?_⟩
    rw [← splitUpTo_all, ← here]
    exact half_grows _ i.isLt (le_refl _) (here ▸ live)
  · exact absurd full room

/-- No key occurs twice. -/
def Distinct (s : Segment) : Prop :=
  ∀ i i', (s.slots i).Live → (s.slots i).key = (s.slots i').key → i = i'

theorem distinct_half (distinct : s.Distinct) (b : Bool) {n : Nat} (le : n ≤ kNumSlot) :
    (half b (splitUpTo h s n)).Distinct := by
  refine half_induct (P := fun _ g => g.Distinct) ?_ ?_ (fun _ _ kept => kept) le
  · intro j j' live
    exact absurd rfl live
  · intro i mine kept
    -- the pairs already there come from other slots, so they have other keys
    have new_ : ∀ j, ((half b (splitUpTo h s i)).slots j).Live →
        ((half b (splitUpTo h s i)).slots j).key ≠ (s.slots i).key := by
      intro j live same
      obtain ⟨i', lt, eq, -⟩ := half_origin b i.isLt.le live
      rw [← eq] at live same
      exact absurd (congrArg Fin.val (distinct i' i live same)) lt.ne
    rcases insert4split_cases (half b (splitUpTo h s i)) (s.slots i) (startOf h s i) with
      ⟨j, -, -, eq⟩ | ⟨-, eq⟩
    · rw [eq]
      intro j₁ j₂ live same
      have live₂ : (((half b (splitUpTo h s i)).set j (s.slots i)).slots j₂).Live := by
        rwa [Pair.Live, ← same]
      rw [set_slots] at live live₂ same
      by_cases here₁ : j₁ = j <;> by_cases here₂ : j₂ = j
      · rw [here₁, here₂]
      · rw [here₁, update_self, update_of_ne here₂] at same
        rw [update_of_ne here₂] at live₂
        exact absurd same.symm (new_ j₂ live₂)
      · rw [here₂, update_self, update_of_ne here₁] at same
        rw [update_of_ne here₁] at live
        exact absurd same (new_ j₁ live)
      · rw [update_of_ne here₁, update_of_ne here₂] at same
        rw [update_of_ne here₁] at live
        exact kept j₁ j₂ live same
    · rwa [eq]

theorem not_dropped_of_stored (distinct : s.Distinct) {i j : Fin kNumSlot} {b : Bool}
    (live : (s.slots i).Live)
    (stored : (half b (s.split h)).slots j = s.slots i) : ¬ Dropped h s i := by
  rw [← splitUpTo_all] at stored
  obtain ⟨i', -, eq, -, room, -⟩ := half_origin b (le_refl _) (j := j) (by rwa [stored])
  rw [stored] at eq
  obtain rfl := distinct i i' live (by rw [eq])
  exact room

theorem bitOf_eq (depth : s.localDepth < 63) (i : Fin kNumSlot) :
    bitOf h s i = (h (s.slots i).key).getLsbD (63 - s.localDepth) := by
  have same := splitBit_iff (show s.localDepth < 64 by omega) (h (s.slots i).key)
  rw [Bool.eq_iff_iff, bitOf, same, BitVec.getLsbD, Nat.testBit_eq_decide_div_mod_eq,
    decide_eq_true_iff, show 64 - s.localDepth - 1 = 63 - s.localDepth by omega]

end

/-- A split that loses nothing: every live pair is in the half of its bit, and nothing else is
live. -/
structure KeepsAll (h : Key → BitVec 64) (s : Segment) : Prop where
  kept : ∀ i, (s.slots i).Live → ∃ j ∈ windowSlots (window (h (s.slots i).key)),
    (half ((h (s.slots i).key).getLsbD (63 - s.localDepth)) (s.split h)).slots j = s.slots i
  own : ∀ b j, ((half b (s.split h)).slots j).Live → ∃ i, s.slots i = (half b (s.split h)).slots j ∧
    (h (s.slots i).key).getLsbD (63 - s.localDepth) = b ∧
      j ∈ windowSlots (window (h (s.slots i).key))
  once : ∀ b, (half b (s.split h)).Distinct

section
variable {h : Key → BitVec 64} {s : Segment}

theorem keepsAll_iff_not_dropped (depth : s.localDepth < 63) (distinct : s.Distinct) :
    KeepsAll h s ↔ ∀ i, (s.slots i).Live → ¬ Dropped h s i := by
  constructor
  · intro keeps i live
    obtain ⟨j, -, stored⟩ := keeps.kept i live
    exact not_dropped_of_stored distinct live stored
  · intro none_
    refine ⟨?_, ?_, ?_⟩
    · intro i live
      rw [← bitOf_eq depth]
      exact stored_of_not_dropped live (none_ i live)
    · intro b j live
      rw [← splitUpTo_all] at live ⊢
      obtain ⟨i, -, eq, side, -, mem⟩ := half_origin b (le_refl _) live
      exact ⟨i, eq, (bitOf_eq depth i) ▸ side, mem⟩
    · intro b
      rw [← splitUpTo_all]
      exact distinct_half distinct b (le_refl _)

/-- No pair is dropped just when none is crowded out: the first one would be both. -/
theorem none_dropped_iff {P : Fin kNumSlot → Prop} (all : ∀ i, (s.slots i).Live → P i) :
    (∀ i, P i → ¬ Dropped h s i) ↔ ∀ i, P i → ¬ Crowded h s i := by
  constructor
  · intro none_ i holds
    rw [← dropped_iff_crowded fun i' _ live => none_ i' (all i' live)]
    exact none_ i holds
  · intro none_ i
    induction i using WellFoundedLT.induction with
    | ind i ih =>
      intro holds
      rw [dropped_iff_crowded fun i' lt live => ih i' lt (all i' live)]
      exact none_ i holds

theorem not_dropped_of_few
    (few : (Finset.univ.filter fun i => (s.slots i).Live).card ≤
      kNumPairPerCacheLine * kNumCacheLine) :
    ∀ i, (s.slots i).Live → ¬ Dropped h s i := by
  rw [none_dropped_iff fun _ live => live]
  rintro i live ⟨d, full⟩
  have others : rivals h s i d 31 ⊆ (Finset.univ.filter fun i => (s.slots i).Live).erase i := by
    intro i' mem
    obtain ⟨_, lt, live', _⟩ := Finset.mem_filter.mp mem
    exact Finset.mem_erase.mpr ⟨lt.ne, Finset.mem_filter.mpr ⟨Finset.mem_univ _, live'⟩⟩
  have mine : i ∈ Finset.univ.filter fun i => (s.slots i).Live :=
    Finset.mem_filter.mpr ⟨Finset.mem_univ i, live⟩
  have bound := Finset.card_le_card others
  rw [Finset.card_erase_of_mem mine] at bound
  have crowded := full 31 (by decide)
  unfold kNumPairPerCacheLine kNumCacheLine at few
  omega

theorem exists_free_of_few (kept : ∀ i, (s.slots i).Live → ¬ Dropped h s i) (key : Key)
    (few : (Finset.univ.filter fun i => (s.slots i).Live ∧
      bitOf h s i = splitBit s.localDepth (h key)).card < kNumPairPerCacheLine * kNumCacheLine)
    (y : Nat) : ∃ j ∈ windowSlots y, ¬ ((s.child h key).slots j).Live := by
  by_contra full
  push Not at full
  have inside : (windowSlots y).toFinset ⊆ Finset.univ.filter fun j =>
      ((s.child h key).slots j).Live := by
    intro j mem
    exact Finset.mem_filter.mpr ⟨Finset.mem_univ j, full j (List.mem_toFinset.mp mem)⟩
  have count := card_half (splitBit s.localDepth (h key)) (le_refl kNumSlot) fun i _ live _ =>
    kept i live
  rw [splitUpTo_all] at count
  have bound := (Finset.card_le_card inside).trans_eq count
  rw [List.toFinset_card_of_nodup (nodup_windowSlots y), windowSlots,
    List.length_map, List.length_range] at bound
  simp only [Fin.is_lt, true_and] at bound
  omega

/-- `Split` keeps every pair just when the pairs before none of them fill its window, and writes no
message just when this holds of the free slots too. -/
theorem split_keeps_iff_not_crowded (h : Key → BitVec 64) (s : Segment) (depth : s.localDepth < 63)
    (distinct : s.Distinct) :
    (KeepsAll h s ↔ ∀ i, (s.slots i).Live → ¬ Crowded h s i) ∧
      ((∀ i, ¬ Dropped h s i) ↔ ∀ i, ¬ Crowded h s i) := by
  refine ⟨(keepsAll_iff_not_dropped depth distinct).trans (none_dropped_iff fun _ live => live), ?_⟩
  simpa using none_dropped_iff (h := h) (s := s) (P := fun _ => True) fun _ _ => trivial

/-- A full window, whose pairs go to both halves in turn. -/
def mixed : Segment where
  slots i := if i.val < 32 then ⟨BitVec.ofNat 64 (i * 256 + i % 2 * 2 ^ 63), some 7⟩ else Pair.fresh
  sema := 0
  localDepth := 0

theorem split_keeps_iff_not_crowded_mixed : mixed.localDepth < 63 ∧ mixed.Distinct ∧
    (∀ j ∈ windowSlots 0, (mixed.slots j).Live) ∧ KeepsAll id mixed ∧
    (∃ i, (mixed.slots i).Live ∧ bitOf id mixed i = false) ∧ ∃ i, (mixed.slots i).Live ∧
      bitOf id mixed i = true := by
  have keys : ∀ i, (mixed.slots i).Live → (mixed.slots i).key.toNat / 256 % 32 = i := by
    decide +kernel
  have distinct : mixed.Distinct := by
    intro i i' live same
    apply Fin.ext
    rw [← keys i live, ← keys i' (by rwa [Pair.Live, ← same]), same]
  have few : (Finset.univ.filter fun i => (mixed.slots i).Live).card ≤ 32 := by decide +kernel
  refine ⟨by decide, distinct, by decide +kernel, ?_, by decide +kernel, by decide +kernel⟩
  rw [(split_keeps_iff_not_crowded id mixed (by decide) distinct).1]
  exact (none_dropped_iff fun _ live => live).mp (not_dropped_of_few few)

/-- Twenty-eight pairs whose windows start in slot 1020 and lie in the slots 0 to 27, and
twenty-four whose windows start in slot 1000. -/
def wrapped : Segment where
  slots i := if i.val < 28 then ⟨BitVec.ofNat 64 (i * 256 + 255), some 7⟩
    else if 1000 ≤ i.val then ⟨BitVec.ofNat 64 (i * 256 + 250), some 7⟩
    else Pair.fresh
  sema := 0
  localDepth := 0

theorem rivals_mono (i : Fin kNumSlot) (d : Nat) {k k' : Nat} (le : k ≤ k') :
    rivals h s i d k ⊆ rivals h s i d k' := by
  intro i' mem
  simp only [rivals, Finset.mem_filter] at mem ⊢
  exact ⟨mem.1, mem.2.1, mem.2.2.1, mem.2.2.2.1, mem.2.2.2.2.trans (by omega)⟩

theorem wrapped_crowded : Crowded id wrapped (slotAt 1020 0) := by
  have near : (rivals id wrapped (slotAt 1020 0) 0 0).card = 20 := by decide +kernel
  have far : (rivals id wrapped (slotAt 1020 0) 0 20).card = 48 := by decide +kernel
  refine ⟨0, fun k lt => ?_⟩
  rcases Nat.lt_or_ge k 20 with low | high
  · have := Finset.card_le_card (rivals_mono (h := id) (s := wrapped) (slotAt 1020 0) 0
      (Nat.zero_le k))
    omega
  · have := Finset.card_le_card (rivals_mono (h := id) (s := wrapped) (slotAt 1020 0) 0 high)
    unfold kNumPairPerCacheLine kNumCacheLine at lt
    omega

def InWindows (h : Key → BitVec 64) (s : Segment) : Prop :=
  ∀ i, (s.slots i).Live → i ∈ windowSlots (window (h (s.slots i).key))

/-- The first pairs move down to the end of the segment, where the last ones then find no room. -/
theorem split_drops_wrapped : wrapped.localDepth < 63 ∧ wrapped.Distinct ∧ InWindows id wrapped ∧
    ¬ KeepsAll id wrapped ∧ ¬ ∀ i, ¬ Dropped id wrapped i := by
  have keys : ∀ i, (wrapped.slots i).Live → (wrapped.slots i).key.toNat / 256 = i := by
    decide +kernel
  have distinct : wrapped.Distinct := by
    intro i i' live same
    apply Fin.ext
    rw [← keys i live, ← keys i' (by rwa [Pair.Live, ← same]), same]
  have live : (wrapped.slots (slotAt 1020 0)).Live := by decide +kernel
  have dropped : ¬ ∀ i, (wrapped.slots i).Live → ¬ Dropped id wrapped i := by
    intro none_
    exact (none_dropped_iff fun _ live => live).mp none_ _ live wrapped_crowded
  refine ⟨by decide, distinct, by unfold InWindows; decide +kernel, ?_, ?_⟩
  · rwa [keepsAll_iff_not_dropped (by decide) distinct]
  · exact fun none_ => dropped fun i _ => none_ i

end

end Xcache.CCEH.Segment
