import Xcache.Pair
import Xcache.Lib.TwoChoice

/-! `LevelHashing::resize` (`server/src/Level_hashing.cpp`): the items of the bottom level go to a
new top level, and the old top level becomes the bottom. -/

namespace Xcache
open Function

structure LevelHashing.Entry where
  key : Key
  value : Value
  deriving DecidableEq

def assocNum : Nat := 3

/-- One bucket: a token and an entry for each of its slots. -/
structure LevelHashing.Node where
  token : Nat → BitVec 8
  slot : Nat → LevelHashing.Entry

structure LevelHashing where
  levels : Nat
  addrCapacity : Nat
  totalCapacity : Nat
  resizeNum : Nat
  /-- `buckets[0]` and `level_item_num[0]`. -/
  top : Nat → LevelHashing.Node
  topItemNum : Nat
  /-- `buckets[1]` and `level_item_num[1]`. -/
  bottom : Nat → LevelHashing.Node
  bottomItemNum : Nat

namespace LevelHashing

/-- A new bucket. `Entry` has a constructor; the tokens are taken to be zero, as in fresh pages. -/
def Node.fresh : Node := ⟨fun _ => 0, fun _ => ⟨invalidKey, noneValue⟩⟩

def Node.put (n : Node) (j : Nat) (e : Entry) : Node :=
  ⟨update n.token j 1, update n.slot j e⟩

def Node.clear (n : Node) (j : Nat) : Node := ⟨update n.token j 0, n.slot⟩

/-- Both indices are stored in a `uint32_t`. -/
def fIdx (hash : BitVec 64) (capacity : Nat) : Nat := hash.toNat % (capacity / 2) % 2 ^ 32

def sIdx (hash : BitVec 64) (capacity : Nat) : Nat :=
  (hash.toNat % (capacity / 2) + capacity / 2) % 2 ^ 32

/-- The loop over the slots of the two buckets: the first free one, `f` before `s`. -/
def freeSlot (buckets : Nat → Node) (f s : Nat) : Option (Nat × Nat) :=
  (List.range assocNum).findSome? fun j =>
    if (buckets f).token j = 0 then some (f, j) else if (buckets s).token j =
      0 then some (s, j) else none

/-- What the loops of `resize` work on. -/
structure Moving where
  bottom : Nat → Node
  interim : Nat → Node
  newLevelItemNum : Nat

section
variable (fHash sHash : Key → BitVec 64)

/-- One item: `insertSuccess` is set but never looked at. -/
def placeItem (capacity : Nat) (m : Moving) (e : Entry) : Moving :=
  match freeSlot m.interim (fIdx (fHash e.key) capacity) (sIdx (sHash e.key) capacity) with
  | some (b, j) =>
    { m with
      interim := update m.interim b ((m.interim b).put j e)
      newLevelItemNum := m.newLevelItemNum + 1 }
  | none => m

def moveItem (capacity : Nat) (m : Moving) (at_ : Nat × Nat) : Moving :=
  if (m.bottom at_.1).token at_.2 = 1 then
    let placed := placeItem fHash sHash capacity m ((m.bottom at_.1).slot at_.2)
    { placed with
      bottom := update placed.bottom at_.1 ((placed.bottom at_.1).clear at_.2) }
  else m

/-- The order of the two loops: bucket by bucket, slot by slot. -/
def positions (buckets : Nat) : List (Nat × Nat) :=
  (List.range buckets).flatMap fun idx => (List.range assocNum).map fun i => (idx, i)

def resize (t : LevelHashing) : LevelHashing :=
  let newAddrCapacity := 2 ^ (t.levels + 1)
  let moved := (positions (2 ^ (t.levels - 1))).foldl (moveItem fHash sHash newAddrCapacity)
    ⟨t.bottom, fun _ => Node.fresh, 0⟩
  { levels := t.levels + 1
    addrCapacity := newAddrCapacity
    totalCapacity := 2 ^ (t.levels + 1) + 2 ^ t.levels
    resizeNum := t.resizeNum + 1
    top := moved.interim
    topItemNum := moved.newLevelItemNum
    bottom := t.top
    bottomItemNum := t.topItemNum }

end

def items (buckets : Nat → Node) (at_ : List (Nat × Nat)) : List Entry :=
  (at_.filter fun p => decide ((buckets p.1).token p.2 = 1)).map fun p => (buckets p.1).slot p.2

/-- An item is found in one of the two buckets. -/
def Present (buckets : Nat → Node) (f s : Nat) (e : Entry) : Prop :=
  ∃ b j, (b = f ∨ b = s) ∧ j < assocNum ∧ (buckets b).token j = 1 ∧ (buckets b).slot j = e

section
variable (fHash sHash : Key → BitVec 64)

/-- All items of the bottom level are in one of their two buckets of the new top level, and the old
top level is the new bottom level. -/
def KeepsItems (t : LevelHashing) : Prop :=
  (∀ e ∈ items t.bottom (positions (2 ^ (t.levels - 1))),
      Present (t.resize fHash sHash).top (fIdx (fHash e.key) (t.resize fHash sHash).addrCapacity)
        (sIdx (sHash e.key) (t.resize fHash sHash).addrCapacity) e) ∧
    (t.resize fHash sHash).bottom = t.top

end

/-- The slots of every bucket are filled from the left. -/
def Shaped (buckets : Nat → Node) (loads : Nat → Nat) : Prop :=
  ∀ b, ∀ j < assocNum, (buckets b).token j = if j < loads b then 1 else 0

theorem findSome?_range {α : Type*} {f : Nat → Option α} {n m : Nat} {a : α} (lt : m < n)
    (here : f m = some a) (before : ∀ j < m, f j = none) : (List.range n).findSome? f = some a := by
  induction n with
  | zero => exact absurd lt (Nat.not_lt_zero m)
  | succ n ih =>
    rw [List.range_succ, List.findSome?_append]
    rcases Nat.lt_or_ge m n with early | late
    · simp [ih early]
    · have last : m = n := by omega
      subst last
      have none_ : (List.range m).findSome? f = none := by simpa using before
      simp [none_, here]

theorem Shaped.freeSlot_eq {buckets : Nat → Node} {loads : Nat → Nat}
    (shaped : Shaped buckets loads) (f s : Nat) :
    freeSlot buckets f s =
      if assocNum ≤ loads f ∧ assocNum ≤ loads s then none
      else if loads f ≤ loads s then some (f, loads f) else some (s, loads s) := by
  have token : ∀ b, ∀ j < assocNum, (buckets b).token j = 0 ↔ loads b ≤ j := by
    intro b j lt
    rw [shaped b j lt]
    split_ifs with filled
    · simp [filled]
    · simpa using filled
  unfold freeSlot
  rcases Nat.lt_or_ge (min (loads f) (loads s)) assocNum with lt | full
  · rw [if_neg (by omega)]
    have before : ∀ j < min (loads f) (loads s), (if (buckets f).token j = 0 then some (f, j)
        else if (buckets s).token j = 0 then some (s, j) else none) = none := by
      intro j lt'
      have lt'' := lt'.trans lt
      rw [if_neg (by rw [token f j lt'']; omega), if_neg (by rw [token s j lt'']; omega)]
    by_cases le : loads f ≤ loads s
    · rw [if_pos le]
      rw [Nat.min_eq_left le] at lt before
      exact findSome?_range lt (if_pos ((token f _ lt).mpr (Nat.le_refl _))) before
    · rw [if_neg le]
      rw [Nat.min_eq_right (by omega)] at lt before
      refine findSome?_range lt ?_ before
      rw [if_neg (by rw [token f _ lt]; omega), if_pos ((token s _ lt).mpr (Nat.le_refl _))]
  · rw [if_pos (by omega), List.findSome?_eq_none_iff]
    intro j mem
    have lt := List.mem_range.mp mem
    rw [if_neg (by rw [token f j lt]; omega), if_neg (by rw [token s j lt]; omega)]

theorem put_elsewhere (buckets : Nat → Node) (e : Entry) {b j b' j' : Nat}
    (other : ¬ (b' = b ∧ j' = j)) :
    (update buckets b ((buckets b).put j e) b').token j' = (buckets b').token j' ∧
      (update buckets b ((buckets b).put j e) b').slot j' = (buckets b').slot j' := by
  by_cases here : b' = b
  · subst here
    have next : j' ≠ j := fun same => other ⟨rfl, same⟩
    simp [Node.put, next]
  · simp [here]

section
variable {f s : Entry → Nat} {buckets : Nat → Node} {done : List Entry}

/-- Some buckets after some items: filled like the bins of the greedy allocation, with the items
that found room. -/
structure Filled (f s : Entry → Nat) (buckets : Nat → Node) (done : List Entry) : Prop where
  shaped : Shaped buckets (TwoChoice.loads assocNum f s done)
  present : ∀ e, Present buckets (f e) (s e) e ↔ TwoChoice.Placed assocNum f s done e

theorem Filled.nil : Filled f s (fun _ => Node.fresh) [] where
  shaped b j _ := by simp [Node.fresh, TwoChoice.loads]
  present e := by
    refine iff_of_false ?_ (TwoChoice.not_placed_nil e)
    rintro ⟨b, j, -, -, token, -⟩
    simp [Node.fresh] at token

/-- The free slot is the next one of the bin that the allocation chooses. -/
theorem Filled.freeSlot_eq (filled : Filled f s buckets done) (e : Entry) :
    freeSlot buckets (f e) (s e) = (TwoChoice.choose assocNum f s
      (TwoChoice.loads assocNum f s done) e).map fun b =>
      (b, TwoChoice.loads assocNum f s done b) := by
  rw [filled.shaped.freeSlot_eq, TwoChoice.choose]
  split_ifs <;> rfl

theorem Filled.dropped (filled : Filled f s buckets done) {e : Entry}
    (full : TwoChoice.choose assocNum f s (TwoChoice.loads assocNum f s done) e = none) :
    Filled f s buckets (done ++ [e]) where
  shaped := by
    rw [TwoChoice.loads_dropped full]
    exact filled.shaped
  present e' := by
    rw [TwoChoice.placed_concat, filled.present]
    simp [full]

theorem Filled.stored (filled : Filled f s buckets done) {e : Entry} {b : Nat}
    (chosen : TwoChoice.choose assocNum f s (TwoChoice.loads assocNum f s done) e = some b) :
    Filled f s (update buckets b ((buckets b).put (TwoChoice.loads assocNum f s done b) e))
      (done ++ [e]) where
  shaped := by
    intro b' j lt
    rw [TwoChoice.loads_chosen chosen]
    by_cases here : b' = b
    · subst here
      simp only [update_self, Node.put]
      by_cases next : j = TwoChoice.loads assocNum f s done b'
      · simp [next]
      · rw [update_of_ne next, filled.shaped b' j lt]
        exact if_congr (by omega) rfl rfl
    · rw [update_of_ne here, update_of_ne here]
      exact filled.shaped b' j lt
  present e' := by
    have own := TwoChoice.choose_lt chosen
    have empty : (buckets b).token (TwoChoice.loads assocNum f s done b) = 0 := by
      rw [filled.shaped b _ own.1, if_neg (Nat.lt_irrefl _)]
    rw [TwoChoice.placed_concat, ← filled.present]
    constructor
    · rintro ⟨b', j, mine, lt, token, slot⟩
      by_cases here : b' = b ∧ j = TwoChoice.loads assocNum f s done b
      · obtain ⟨rfl, rfl⟩ := here
        refine Or.inr ⟨?_, by simp [chosen]⟩
        simpa [Node.put, eq_comm] using slot
      · have kept := put_elsewhere buckets e here
        exact Or.inl ⟨b', j, mine, lt, kept.1 ▸ token, kept.2 ▸ slot⟩
    · rintro (⟨b', j, mine, lt, token, slot⟩ | ⟨rfl, -⟩)
      · have here : ¬ (b' = b ∧ j = TwoChoice.loads assocNum f s done b) := by
          rintro ⟨rfl, rfl⟩
          rw [empty] at token
          exact absurd token (by decide)
        have kept := put_elsewhere buckets e here
        exact ⟨b', j, mine, lt, kept.1.trans token, kept.2.trans slot⟩
      · exact ⟨b, _, own.2, own.1, by simp [Node.put], by simp [Node.put]⟩

end

section
variable (fHash sHash : Key → BitVec 64) (capacity : Nat)

def firstBucket (e : Entry) : Nat := fIdx (fHash e.key) capacity

def secondBucket (e : Entry) : Nat := sIdx (sHash e.key) capacity

variable {fHash sHash capacity}

theorem Filled.placeItem {m : Moving} {done : List Entry}
    (filled : Filled (firstBucket fHash capacity) (secondBucket sHash capacity) m.interim done)
    (e : Entry) :
    Filled (firstBucket fHash capacity) (secondBucket sHash capacity)
      (placeItem fHash sHash capacity m e).interim
      (done ++ [e]) := by
  have free := filled.freeSlot_eq e
  unfold LevelHashing.placeItem
  cases chosen : TwoChoice.choose assocNum (firstBucket fHash capacity)
    (secondBucket sHash capacity)
      (TwoChoice.loads assocNum (firstBucket fHash capacity) (secondBucket sHash capacity) done) e
        with
  | none =>
    rw [chosen, Option.map_none, firstBucket, secondBucket] at free
    rw [free]
    exact filled.dropped chosen
  | some b =>
    rw [chosen, Option.map_some, firstBucket, secondBucket] at free
    rw [free]
    exact filled.stored chosen

theorem placeItem_bottom (m : Moving) (e : Entry) :
    (placeItem fHash sHash capacity m e).bottom = m.bottom := by
  unfold placeItem
  split <;> rfl

/-- The slots that the loops have not come to yet are those of the old bottom level. -/
def Untouched (old bottom : Nat → Node) (rest : List (Nat × Nat)) : Prop :=
  ∀ p ∈ rest, (bottom p.1).token p.2 = (old p.1).token p.2 ∧
    (bottom p.1).slot p.2 = (old p.1).slot p.2

theorem clear_elsewhere (buckets : Nat → Node) {p q : Nat × Nat} (other : q ≠ p) :
    (update buckets p.1 ((buckets p.1).clear p.2) q.1).token q.2 =
      (buckets q.1).token q.2 ∧
      (update buckets p.1 ((buckets p.1).clear p.2) q.1).slot q.2 =
        (buckets q.1).slot q.2 := by
  by_cases here : q.1 = p.1
  · have next : q.2 ≠ p.2 := fun same => other (Prod.ext here same)
    rw [here]
    simp [Node.clear, next]
  · simp [here]

/-- What the placing of one item keeps, the loops of `resize` keep for the items in their order. -/
theorem foldl_moveItem_induct {Q : (Nat → Node) → Nat → List Entry → Prop} {old : Nat → Node}
    (rest : List (Nat × Nat)) (distinct : rest.Nodup)
    (step : ∀ (m : Moving) (done : List Entry), ∀ e ∈ items old rest,
      Q m.interim m.newLevelItemNum done → Q (placeItem fHash sHash capacity m e).interim
      (placeItem fHash sHash capacity m e).newLevelItemNum (done ++ [e]))
    {m : Moving} (untouched : Untouched old m.bottom rest) {done : List Entry}
    (before : Q m.interim m.newLevelItemNum done) :
    Q (rest.foldl (moveItem fHash sHash capacity) m).interim
      (rest.foldl (moveItem fHash sHash capacity) m).newLevelItemNum
      (done ++ items old rest) := by
  induction rest generalizing m done with
  | nil => simpa [items] using before
  | cons p rest ih =>
    obtain ⟨fresh, distinct⟩ := List.nodup_cons.mp distinct
    obtain ⟨⟨token, slot⟩, ahead⟩ := List.forall_mem_cons.mp untouched
    rw [List.foldl_cons]
    by_cases taken : (old p.1).token p.2 = 1
    · have next : items old (p :: rest) = (old p.1).slot p.2 :: items old rest := by
        simp [items, taken]
      rw [next] at step ⊢
      obtain ⟨here, later⟩ : _ ∧ _ :=
        ⟨fun m done => step m done _ List.mem_cons_self, fun m done e mem =>
          step m done e (List.mem_cons_of_mem _ mem)⟩
      rw [List.append_cons]
      unfold moveItem
      rw [if_pos (token.trans taken), slot]
      refine ih distinct later ?_ (here m done before)
      intro q mem
      have other : q ≠ p := fun same => fresh (same ▸ mem)
      have kept := clear_elsewhere m.bottom other
      simp only [placeItem_bottom]
      exact ⟨kept.1.trans (ahead q mem).1, kept.2.trans (ahead q mem).2⟩
    · have next : items old (p :: rest) = items old rest := by
        unfold items
        rw [List.filter_cons_of_neg (by simpa using taken)]
      rw [next] at step ⊢
      unfold moveItem
      rw [if_neg (by rwa [token])]
      exact ih distinct step ahead before

theorem nodup_positions (buckets : Nat) : (positions buckets).Nodup := by
  unfold positions
  exact List.nodup_range.product List.nodup_range

end

/-- `resize` keeps every item just when each finds room in turn. -/
theorem keepsItems_iff_placed (fHash sHash : Key → BitVec 64) (t : LevelHashing) :
    KeepsItems fHash sHash t ↔
      ∀ e ∈ items t.bottom (positions (2 ^ (t.levels - 1))),
        TwoChoice.Placed assocNum (firstBucket fHash (2 ^ (t.levels + 1)))
          (secondBucket sHash (2 ^ (t.levels + 1)))
          (items t.bottom (positions (2 ^ (t.levels - 1)))) e := by
  have filled : Filled (firstBucket fHash (2 ^ (t.levels + 1)))
    (secondBucket sHash (2 ^ (t.levels + 1)))
      (t.resize fHash sHash).top ([] ++ items t.bottom (positions (2 ^ (t.levels - 1)))) :=
    foldl_moveItem_induct (Q := fun interim _ done => Filled _ _ interim done) _ (nodup_positions _)
      (fun _ _ e _ filled => filled.placeItem e) (fun _ _ => ⟨rfl, rfl⟩) Filled.nil
  rw [List.nil_append] at filled
  constructor
  · rintro ⟨kept, -⟩ e mem
    exact (filled.present e).mp (kept e mem)
  · intro placed
    exact ⟨fun e mem => (filled.present e).mpr (placed e mem), rfl⟩

/-- Every item of the bottom level sits in one of its two buckets there. -/
def Seated (fHash sHash : Key → BitVec 64) (t : LevelHashing) : Prop :=
  ∀ p ∈ positions (2 ^ (t.levels - 1)), (t.bottom p.1).token p.2 = 1 →
    p.1 = fIdx (fHash ((t.bottom p.1).slot p.2).key) (t.addrCapacity / 2) ∨
      p.1 = sIdx (sHash ((t.bottom p.1).slot p.2).key) (t.addrCapacity / 2)

/-- Three full bottom buckets of a table with three levels, nine keys in all. -/
def crowdedTable : LevelHashing where
  levels := 3
  addrCapacity := 8
  totalCapacity := 12
  resizeNum := 0
  top := fun _ => Node.fresh
  topItemNum := 0
  bottom := fun b => ⟨fun _ => if b < 3 then 1 else 0, fun j => ⟨BitVec.ofNat 64 (3 * b + j), 7⟩⟩
  bottomItemNum := 9

/-- The keys of the middle one of these buckets hash to 1, all others to 0. -/
def crowdedHash (key : Key) : BitVec 64 := if 3 ≤ key.toNat ∧ key.toNat < 6 then 1 else 0

/-- The ninth item finds both of its new buckets full. -/
theorem resize_drops_ninth_item :
    Seated crowdedHash (fun _ => 0) crowdedTable ∧
      ¬ KeepsItems crowdedHash (fun _ => 0) crowdedTable := by
  refine ⟨by unfold Seated; decide +kernel, fun keeps => ?_⟩
  have gone : ∀ b ∈ [0, 8], ∀ j < assocNum, ((crowdedTable.resize crowdedHash fun _ => 0).top
      b).slot j ≠ ⟨8, 7⟩ := by
    decide +kernel
  obtain ⟨b, j, mine, lt, -, slot⟩ := keeps.1 ⟨8, 7⟩ (by decide +kernel)
  exact gone b (by simpa [fIdx, sIdx, crowdedHash, resize, crowdedTable] using mine) j lt slot

end LevelHashing

end Xcache
