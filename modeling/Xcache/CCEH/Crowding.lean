import Mathlib.Data.Fintype.Card
import Xcache.CCEH.Termination

/-! One key inserted over and over: its window fills up, no split ever separates the
copies, and the next call does not return. -/

namespace Xcache.CCEH
open Blocks (top)

namespace Segment
variable {h : Key → BitVec 64} {s : Segment}

def freeIn (s : Segment) (y : Nat) : Finset (Fin kNumSlot) :=
  (windowSlots y).toFinset.filter fun i => ¬ (s.slots i).Live

def OnlyKey (s : Segment) (key : Key) : Prop := ∀ i, (s.slots i).Live → (s.slots i).key = key

theorem card_windowSlots (y : Nat) : (windowSlots y).toFinset.card = 32 := by
  rw [List.toFinset_card_of_nodup (nodup_windowSlots y), windowSlots,
    List.length_map, List.length_range]
  rfl

theorem card_freeIn_new (depth y : Nat) : ((new depth).freeIn y).card = 32 := by
  have all : (new depth).freeIn y = (windowSlots y).toFinset :=
    Finset.filter_true_of_mem fun _ _ => Pair.not_live_fresh
  rw [all, card_windowSlots]

theorem mem_freeIn {y : Nat} {i : Fin kNumSlot} :
    i ∈ s.freeIn y ↔ i ∈ windowSlots y ∧ ¬ (s.slots i).Live := by
  simp [freeIn]

theorem freeIn_set_subset {i : Fin kNumSlot} (free : ¬ (s.slots i).Live) (p : Pair) (y : Nat) :
    (s.set i p).freeIn y ⊆ s.freeIn y := by
  intro j hj
  rw [mem_freeIn, set_slots] at hj
  rw [mem_freeIn]
  refine ⟨hj.1, ?_⟩
  by_cases same : j = i
  · rwa [same]
  · rw [Function.update_of_ne same] at hj
    exact hj.2

theorem freeIn_set_live (i : Fin kNumSlot) {p : Pair} (live : p.Live) (y : Nat) :
    (s.set i p).freeIn y = (s.freeIn y).erase i := by
  ext j
  rw [mem_freeIn, Finset.mem_erase, mem_freeIn, set_slots]
  by_cases same : j = i
  · simp [same, live]
  · simp [same]

theorem card_freeIn_insert4split {p : Pair} (live : p.Live) (y : Nat) :
    ((s.insert4split p y).freeIn y).card = (s.freeIn y).card - 1 := by
  rcases insert4split_cases s p y with ⟨i, mem, free, eq⟩ | ⟨full, eq⟩
  · rw [eq, freeIn_set_live i live, Finset.card_erase_of_mem (mem_freeIn.mpr ⟨mem, free⟩)]
  · have empty : s.freeIn y = ∅ := by
      apply Finset.filter_false_of_mem
      intro i mem
      exact not_not_intro (full i (List.mem_toFinset.mp mem))
    rw [eq, empty]
    rfl

theorem card_freeIn_insert4split_le (p : Pair) (loc y : Nat) :
    ((s.insert4split p loc).freeIn y).card ≤ (s.freeIn y).card := by
  rcases insert4split_cases s p loc with ⟨i, _, free, eq⟩ | ⟨_, eq⟩
  · rw [eq]
    exact Finset.card_le_card (freeIn_set_subset free p y)
  · rw [eq]

def side (h : Key → BitVec 64) (localDepth : Nat) (key : Key)
    (halves : Segment × Segment) : Segment :=
  if splitBit localDepth (h key) then halves.2 else halves.1

theorem side_splitStep (localDepth : Nat) (key : Key) (halves : Segment × Segment) (p : Pair) :
    side h localDepth key (splitStep h localDepth halves p) = side h localDepth key halves ∧
        p.key ≠ key ∨
      side h localDepth key (splitStep h localDepth halves p) =
        (side h localDepth key halves).insert4split p (window (h p.key)) := by
  unfold side splitStep
  by_cases here : splitBit localDepth (h p.key) = true
  · rw [if_pos here]
    by_cases there : splitBit localDepth (h key) = true
    · exact Or.inr (by rw [if_pos there, if_pos there])
    · refine Or.inl ⟨by rw [if_neg there, if_neg there], ?_⟩
      rintro rfl
      exact there here
  · rw [if_neg here]
    by_cases there : splitBit localDepth (h key) = true
    · refine Or.inl ⟨by rw [if_pos there, if_pos there], ?_⟩
      rintro rfl
      exact here there
    · exact Or.inr (by rw [if_neg there, if_neg there])

/-- Every copy of the key that a split meets takes a free slot of its window. -/
theorem card_freeIn_foldl {key : Key} (live : key ≠ invalidKey) (s : Segment)
    (l : List (Fin kNumSlot)) (halves : Segment × Segment) :
    ((side h s.localDepth key (l.foldl (fun halves i => splitStep h s.localDepth halves (s.slots i))
      halves)).freeIn (window (h key))).card ≤
      ((side h s.localDepth key halves).freeIn (window (h key))).card -
        l.countP fun i => (s.slots i).key = key := by
  induction l generalizing halves with
  | nil => simp only [List.foldl_nil, List.countP_nil, Nat.sub_zero, le_refl]
  | cons i l ih =>
    rw [List.foldl_cons, List.countP_cons]
    refine (ih _).trans ?_
    rcases side_splitStep s.localDepth key halves (s.slots i) with ⟨eq, other⟩ | eq
    · rw [eq, if_neg (by simpa using other), Nat.add_zero]
    · rw [eq]
      by_cases same : (s.slots i).key = key
      · have step := card_freeIn_insert4split (s := side h s.localDepth key halves)
          (p := s.slots i) (by rw [Pair.Live, same]; exact live) (window (h key))
        rw [if_pos (by simpa using same), same, step, Nat.sub_sub, Nat.add_comm 1]
      · rw [if_neg (by simpa using same), Nat.add_zero]
        exact Nat.sub_le_sub_right (card_freeIn_insert4split_le _ _ _) _

theorem OnlyKey.child (key : Key) (only : s.OnlyKey key) : (s.child h key).OnlyKey key := by
  obtain ⟨low, high⟩ := split_origin (h := h) s
  unfold Segment.child
  split
  · intro i live
    obtain ⟨j, eq⟩ := high i live
    rw [← eq] at live ⊢
    exact only j live
  · intro i live
    obtain ⟨j, eq⟩ := low i live
    rw [← eq] at live ⊢
    exact only j live

/-- A window full of one key stays full in the half that takes it. -/
theorem freeIn_child {key : Key} (live : key ≠ invalidKey) (only : s.OnlyKey key)
    (full : s.freeIn (window (h key)) = ∅) : (s.child h key).freeIn (window (h key)) = ∅ := by
  have copies : 32 ≤ (List.finRange kNumSlot).countP fun i => (s.slots i).key = key := by
    have sub : (windowSlots (window (h key))).toFinset ⊆
        ((List.finRange kNumSlot).filter fun i => (s.slots i).key = key).toFinset := by
      intro i mem
      rw [List.mem_toFinset] at mem
      have alive : (s.slots i).Live := by
        by_contra free
        have : i ∈ s.freeIn (window (h key)) := mem_freeIn.mpr ⟨mem, free⟩
        simp [full] at this
      simp [only i alive]
    have bound := (Finset.card_le_card sub).trans (List.toFinset_card_le _)
    rwa [card_windowSlots, ← List.countP_eq_length_filter] at bound
  have bound := card_freeIn_foldl (h := h) live s (List.finRange kNumSlot)
    (new (s.localDepth + 1), new (s.localDepth + 1))
  have start : ((side h s.localDepth key (new (s.localDepth + 1), new (s.localDepth + 1))).freeIn
      (window (h key))).card = 32 := by
    unfold side
    split <;> exact card_freeIn_new _ _
  rw [start] at bound
  apply Finset.card_eq_zero.mp
  exact Nat.eq_zero_of_le_zero (bound.trans (by omega))

theorem Placed.child {key : Key} (placed : s.Placed h (top 64 s.localDepth (h key).toNat))
    (depth : s.localDepth < 64) :
    (s.child h key).Placed h (top 64 (s.localDepth + 1) (h key).toNat) := by
  obtain ⟨low, high⟩ := placed.split depth
  have bit := splitBit_iff depth (h key)
  rw [Blocks.top_succ depth]
  unfold Segment.child
  split
  · rw [bit.mp ‹_›]
    exact high
  · have zero := bit.not.mp ‹_›
    rw [Nat.mod_two_ne_one.mp zero]
    exact low

theorem not_hasRoom {key : Key} (placed : s.Placed h (top 64 s.localDepth (h key).toNat))
    (pos : 1 ≤ s.localDepth) (le : s.localDepth ≤ 64) (full : s.freeIn (window (h key)) = ∅) :
    ¬ s.HasRoom h key := by
  rw [HasRoom, index_eq pos le, Option.isSome_iff_exists]
  rintro ⟨i, found⟩
  obtain ⟨mem, usable⟩ := findSlot_some found
  have : i ∈ s.freeIn (window (h key)) :=
    mem_freeIn.mpr ⟨mem, placed.not_live_of_usable pos le usable⟩
  simp [full] at this

theorem not_hasRoom_descend {key : Key} (live : key ≠ invalidKey) (n : Nat)
    (placed : s.Placed h (top 64 s.localDepth (h key).toNat)) (pos : 1 ≤ s.localDepth)
    (le : s.localDepth + n ≤ 64) (only : s.OnlyKey key) (full : s.freeIn (window (h key)) = ∅) :
    ¬ (s.descend h key n).HasRoom h key := by
  induction n generalizing s with
  | zero => exact not_hasRoom placed pos le full
  | succ n ih =>
    have level := Table.child_localDepth (h := h) s key
    exact ih (level ▸ placed.child (by omega)) (by omega) (by omega) (only.child key)
      (freeIn_child live only full)

end Segment

namespace Table
variable {h : Key → BitVec 64} {t : Table}

theorem setSeg_setSeg (t : Table) (a : Nat) (s s' : Segment) :
    (t.setSeg a s).setSeg a s' = t.setSeg a s' := by
  simp only [setSeg, Function.update_idem]

/-- Calls that return in their first pass, one after another. -/
inductive Stores (h : Key → BitVec 64) : Table → List (Key × Value) → Table → Prop
  | nil (t : Table) : Stores h t [] t
  | cons {t t₁ t' : Table} {key : Key} {value : Value} {ops : List (Key × Value)} :
      t.attempt h key value = .stored t₁ → Stores h t₁ ops t' → Stores h t ((key, value) :: ops) t'

theorem Stores.append {t' t'' : Table} {ops ops' : List (Key × Value)} (first : Stores h t ops t')
    (second : Stores h t' ops' t'') : Stores h t (ops ++ ops') t'' := by
  induction first with
  | nil => exact second
  | cons stored _ ih => exact .cons stored (ih second)

theorem Stores.calls {t' : Table} {ops : List (Key × Value)} (stores : Stores h t ops t') :
    Relation.ReflTransGen (Call h) t t' := by
  induction stores with
  | nil => exact .refl
  | cons stored _ ih => exact .head ⟨_, _, 1, insertLoop_stored h stored Nat.one_pos⟩ ih

/-- Calls with one key fill its window and change nothing but its segment. -/
theorem crowd {key : Key} (live : key ≠ invalidKey) (value : Value) (inv : Inv h t) (idle : t.Idle)
    {n : Nat} (free : n ≤ ((t.segs (t.target h key)).freeIn (window (h key))).card) :
    ∃ s, Stores h t (List.replicate n (key, value)) (t.setSeg (t.target h key) s) ∧
      s.localDepth = (t.segs (t.target h key)).localDepth ∧
      (s.freeIn (window (h key))).card = ((t.segs (t.target h key)).freeIn
        (window (h key))).card - n ∧
      ∀ i, s.slots i = (t.segs (t.target h key)).slots i ∨
        i ∈ (t.segs (t.target h key)).freeIn (window (h key)) ∧ s.slots i = ⟨key, some value⟩ := by
  induction n generalizing t with
  | zero =>
    refine ⟨t.segs (t.target h key), ?_, rfl, (Nat.sub_zero _).symm, fun _ => Or.inl rfl⟩
    rw [setSeg, Function.update_eq_self]
    exact .nil t
  | succ n ih =>
    obtain ⟨i, mem⟩ := Finset.card_pos.mp (Nat.zero_lt_of_lt free)
    have room : (t.segs (t.target h key)).HasRoom h key := by
      obtain ⟨inside, empty⟩ := Segment.mem_freeIn.mp mem
      obtain ⟨j, found⟩ := Segment.findSlot_of_not_live (h := h) inside empty
        (index (t.segs (t.target h key)).localDepth (h key))
      rw [Segment.HasRoom, found]
      rfl
    obtain ⟨j, inside, empty, eq⟩ := inv.store_pass idle value room
    have mine := Segment.mem_freeIn.mpr ⟨inside, empty⟩
    have less := Segment.freeIn_set_live (s := t.segs (t.target h key)) j
      (p := ⟨key, some value⟩) live (window (h key))
    have here : (t.setSeg (t.target h key) ((t.segs (t.target h key)).set j ⟨key, some value⟩)).segs
        (t.target h key) = (t.segs (t.target h key)).set j ⟨key, some value⟩ :=
          Function.update_self ..
    have rest := ih (inv.store value inside) (idle.store key j _)
    rw [show (t.setSeg _ _).target h key = t.target h key from rfl, here, less,
      Finset.card_erase_of_mem mine] at rest
    obtain ⟨s, stores, depth, count, pairs⟩ := rest (by omega)
    rw [setSeg_setSeg] at stores
    refine ⟨s, .cons eq stores, depth, by omega, fun k => ?_⟩
    rcases pairs k with same | new
    · rw [same, Segment.set_slots]
      by_cases there : k = j
      · rw [there, Function.update_self]
        exact Or.inr ⟨mine, rfl⟩
      · exact Or.inl (Function.update_of_ne there ..)
    · exact Or.inr ⟨Finset.mem_of_mem_erase new.1, new.2⟩

theorem Inv.crowded (inv : Inv h t) {key : Key}
    (full : (t.segs (t.target h key)).freeIn (window (h key)) = ∅) :
    (t.segs (t.target h key)).findSlot h (patternOf t.cur.depth (t.segs (t.target h key)).localDepth
      (index t.cur.depth (h key))) (window (h key)) = none := by
  have := inv.local_le key
  have := inv.depth_le
  have crowded := Segment.not_hasRoom (inv.target_placed key) (inv.target_pos key) (by omega) full
  rw [inv.hasRoom_iff key, ← inv.pattern_eq key] at crowded
  exact Option.eq_none_iff_forall_ne_some.mpr fun i found => crowded ⟨i, found⟩

/-- A full window in a segment of the directory's depth doubles the directory. -/
theorem Inv.crowded_doubles (inv : Inv h t) (idle : t.Idle) {key : Key}
    (full : (t.segs (t.target h key)).freeIn (window (h key)) = ∅)
    (atTop : (t.segs (t.target h key)).localDepth = t.cur.depth) (low : t.cur.depth < 32)
    (value : Value) :
    t.attempt h key value = .retry (t.doubleDir h key) := by
  have none := inv.crowded full
  rw [inv.pattern_eq key] at none
  rcases inv.attempt_cases key value with ⟨minus, _⟩ | ⟨_,
    ⟨i, found, _⟩ | ⟨_, ⟨_, ⟨_, eq⟩ | ⟨cap, _⟩⟩ | ⟨below, _⟩⟩⟩
  · cases minus.symm.trans (idle _ (inv.index_lt key))
  · cases none.symm.trans found
  · exact eq
  · rw [inv.capacity, unsignedLimit] at cap
    have := (Nat.pow_le_pow_iff_right (by decide : 1 < 2)).mp cap
    omega
  · omega

/-- A call that reaches a window full of its own key does not return. -/
theorem not_room_of_crowded {key : Key} (live : key ≠ invalidKey) (inv : Inv h t)
    (only : (t.segs (t.target h key)).OnlyKey key)
    (full : (t.segs (t.target h key)).freeIn (window (h key)) = ∅) : ¬ Room h t key := by
  rintro ⟨n, bound, _, has⟩
  exact Segment.not_hasRoom_descend live n (inv.target_placed key) (inv.target_pos key) (by omega)
    only full has

end Table

end Xcache.CCEH
