import Xcache.Store.LevelHashing
import Xcache.Lib.Displace

/-! `LevelHashing::Insert`, `try_movement`, `b2t_movement`, `Get` and `Utilization`
(`server/src/Level_hashing.cpp`), one call after another. Every way in which `Insert` finds room
carries the new item along slots in use to a free one; what such a step and `resize` keep gives the
store law and the item counters of every reachable table. -/

namespace Xcache.LevelHashing
open Function

/-- The first index of `buckets` and of `level_item_num`. -/
inductive Level
  | top | bottom
  deriving DecidableEq

def Level.num : Level → Nat
  | .top => 0
  | .bottom => 1

def buckets (t : LevelHashing) : Level → Nat → Node
  | .top => t.top
  | .bottom => t.bottom

def levelItemNum (t : LevelHashing) : Level → Nat
  | .top => t.topItemNum
  | .bottom => t.bottomItemNum

def capacityAt (t : LevelHashing) (v : Level) : Nat := t.addrCapacity / (1 + v.num)

def write (t : LevelHashing) (v : Level) (b j : Nat) (e : Entry) (num : Nat) : LevelHashing :=
  let filled := update (t.buckets v) b ((t.buckets v b).put j e)
  match v with
  | .top => { t with top := filled, topItemNum := num }
  | .bottom => { t with bottom := filled, bottomItemNum := num }

def clearToken (t : LevelHashing) (v : Level) (b j : Nat) : LevelHashing :=
  let cleared := update (t.buckets v) b ((t.buckets v b).clear j)
  match v with
  | .top => { t with top := cleared }
  | .bottom => { t with bottom := cleared }

/-- The two indices in a `uint64_t`, as the movements have them. -/
def wideF (hash : BitVec 64) (capacity : Nat) : Nat := hash.toNat % (capacity / 2)

def wideS (hash : BitVec 64) (capacity : Nat) : Nat := hash.toNat % (capacity / 2) + capacity / 2

def new (levels : Nat) : LevelHashing where
  levels := levels
  addrCapacity := 2 ^ levels
  totalCapacity := 2 ^ levels + 2 ^ (levels - 1)
  resizeNum := 0
  top := fun _ => Node.fresh
  topItemNum := 0
  bottom := fun _ => Node.fresh
  bottomItemNum := 0

section
variable (fHash sHash : Key → BitVec 64)

def first (t : LevelHashing) (v : Level) (key : Key) : Nat := fIdx (fHash key) (t.capacityAt v)

def second (t : LevelHashing) (v : Level) (key : Key) : Nat := sIdx (sHash key) (t.capacityAt v)

/-- The first loop of `Insert` at one level. -/
def place (t : LevelHashing) (v : Level) (e : Entry) : Option LevelHashing :=
  (freeSlot (t.buckets v) (t.first fHash v e.key) (t.second sHash v e.key)).map fun at_ =>
    t.write v at_.1 at_.2 e (t.levelItemNum v + 1)

def otherBucket (t : LevelHashing) (v : Level) (idx : Nat) (key : Key) : Nat :=
  let f := wideF (fHash key) (t.capacityAt v)
  if f = idx then wideS (sHash key) (t.capacityAt v) else f

/-- An item of the bucket goes to its other bucket, and the new item to its slot. -/
def tryMovement (t : LevelHashing) (idx : Nat) (v : Level) (e : Entry) : Option LevelHashing :=
  (List.range assocNum).findSome? fun i =>
    let m := (t.buckets v idx).slot i
    let jdx := t.otherBucket fHash sHash v idx m.key
    ((List.range assocNum).find? fun j => decide ((t.buckets v jdx).token j = 0)).map fun j =>
      ((t.write v jdx j m (t.levelItemNum v)).clearToken v idx i).write v idx i e
        (t.levelItemNum v + 1)

/-- An item of the bottom bucket goes to the top level; its slot is the result. -/
def b2tMovement (t : LevelHashing) (idx : Nat) : Option (LevelHashing × Nat) :=
  (List.range assocNum).findSome? fun i =>
    let m := (t.bottom idx).slot i
    (freeSlot t.top (wideF (fHash m.key) t.addrCapacity) (wideS (sHash m.key) t.addrCapacity)).map
        fun at_ =>
      ({ (t.write .top at_.1 at_.2 m (t.topItemNum + 1)).clearToken .bottom idx i with
          bottomItemNum := t.bottomItemNum - 1 }, i)

/-- `b2t_movement` and the new item in the slot it made free. -/
def b2tInsert (t : LevelHashing) (idx : Nat) (e : Entry) : Option LevelHashing :=
  (t.b2tMovement fHash sHash idx).map fun out =>
    out.1.write .bottom idx out.2 e (out.1.bottomItemNum + 1)

/-- One turn of `Insert` up to the call of `resize`. -/
def attempt (t : LevelHashing) (e : Entry) : Option LevelHashing :=
  t.place fHash sHash .top e <|> t.place fHash sHash .bottom e <|>
  t.tryMovement fHash sHash (t.first fHash .top e.key) .top e <|>
  t.tryMovement fHash sHash (t.second sHash .top e.key) .top e <|>
  t.tryMovement fHash sHash (t.first fHash .bottom e.key) .bottom e <|>
  t.tryMovement fHash sHash (t.second sHash .bottom e.key) .bottom e <|>
  if 0 < t.resizeNum then
    t.b2tInsert fHash sHash (t.first fHash .bottom e.key) e <|>
    t.b2tInsert fHash sHash (t.second sHash .bottom e.key) e
  else none

/-- `Insert` with a bound on its turns. The result comes with the tables that were resized on the
way. -/
def insert : Nat → LevelHashing → Entry → Option (LevelHashing × List LevelHashing)
  | 0, _, _ => none
  | turns + 1, t, e =>
    match t.attempt fHash sHash e with
    | some t' => some (t', [])
    | none => (insert turns (t.resize fHash sHash) e).map fun out => (out.1, t :: out.2)

def lookup (t : LevelHashing) (key : Key) : Option Value :=
  [Level.top, Level.bottom].findSome? fun v => [t.first fHash v key, t.second sHash v key].findSome?
      fun b =>
    (List.range assocNum).findSome? fun j =>
      if (t.buckets v b).token j = 1 ∧ ((t.buckets v b).slot j).key =
        key then some ((t.buckets v b).slot j).value else none

def get (t : LevelHashing) (key : Key) : Value := (t.lookup fHash sHash key).getD noneValue

def insertAll (turns : Nat) : LevelHashing → List Entry → Option (LevelHashing × List LevelHashing)
  | t, [] => some (t, [])
  | t, e :: ops =>
    match t.insert fHash sHash turns e with
    | none => none
    | some (u, grown) => (insertAll turns u ops).map fun out => (out.1, grown ++ out.2)

end

structure Cell where
  token : BitVec 8
  entry : Entry

namespace Cell

def Live (c : Cell) : Prop := c.token = 1

instance : DecidablePred Live := fun c => inferInstanceAs (Decidable (c.token = 1))

theorem live_one (e : Entry) : (⟨1, e⟩ : Cell).Live := rfl

/-- A slot is in use or as the constructor left it. -/
def Clean (c : Cell) : Prop :=
  c.token = 0 ∧ c.entry.key = invalidKey ∨ c.token = 1 ∧ c.entry.key ≠ invalidKey

theorem Clean.free {c : Cell} (clean : c.Clean) : c.token = 0 ↔ ¬ c.Live := by
  unfold Live
  rcases clean with ⟨token, _⟩ | ⟨token, _⟩
  · simp [token]
  · simp [token]

theorem Clean.live {c : Cell} (clean : c.Clean) : c.entry.key ≠ invalidKey ↔ c.Live := by
  unfold Live
  rcases clean with ⟨token, key⟩ | ⟨token, key⟩
  · simp [token, key]
  · simp [token, key]

end Cell

def cells (b : Nat → Node) (p : Nat × Nat) : Cell := ⟨(b p.1).token p.2, (b p.1).slot p.2⟩

theorem cells_put (b : Nat → Node) (i j : Nat) (e : Entry) :
    cells (update b i ((b i).put j e)) = update (cells b) (i, j) ⟨1, e⟩ := by
  funext p
  by_cases here : p = (i, j)
  · subst here
    simp [cells, Node.put]
  · have differs : ¬ (p.1 = i ∧ p.2 = j) := fun eq => here (Prod.ext eq.1 eq.2)
    have other := put_elsewhere b e differs
    rw [update_of_ne here]
    unfold cells
    rw [other.1, other.2]

/-- Clearing a token just before the slot is filled changes nothing. -/
theorem put_clear (n : Node) (j : Nat) (e : Entry) : (n.clear j).put j e = n.put j e := by
  simp [Node.put, Node.clear]

abbrev Place := Level × Nat × Nat

def cell (t : LevelHashing) (p : Place) : Cell := cells (t.buckets p.1) p.2

section
variable {t : LevelHashing} {v : Level} {b j num : Nat} {e : Entry}

theorem buckets_write (w : Level) : (t.write v b j e num).buckets w =
    if w = v then update (t.buckets v) b ((t.buckets v b).put j e) else t.buckets w := by
  cases v <;> cases w <;> rfl

theorem levelItemNum_write (w : Level) :
    (t.write v b j e num).levelItemNum w = if w = v then num else t.levelItemNum w := by
  cases v <;> cases w <;> rfl

theorem cell_write : (t.write v b j e num).cell = update t.cell (v, b, j) ⟨1, e⟩ := by
  funext p
  obtain ⟨w, p⟩ := p
  unfold cell
  rw [buckets_write]
  by_cases here : w = v
  · subst here
    rw [if_pos rfl, cells_put]
    by_cases same : p = (b, j)
    · rw [same, update_self, update_self]
    · rw [update_of_ne same, update_of_ne fun eq => same (Prod.ext_iff.mp eq).2]
  · rw [if_neg here, update_of_ne fun eq => here (Prod.ext_iff.mp eq).1]

theorem write_clearToken : (t.clearToken v b j).write v b j e num = t.write v b j e num := by
  cases v <;> simp [write, clearToken, buckets, put_clear]

end

theorem mem_positions {n : Nat} {p : Nat × Nat} : p ∈ positions n ↔ p.1 < n ∧ p.2 < assocNum := by
  simp only [positions, List.mem_flatMap, List.mem_map, List.mem_range]
  constructor
  · rintro ⟨i, lt, j, lt', rfl⟩
    exact ⟨lt, lt'⟩
  · rintro ⟨lt, lt'⟩
    exact ⟨p.1, lt, p.2, lt', rfl⟩

def places (t : LevelHashing) : Multiset Place :=
  ((positions (t.capacityAt .top)).map (Prod.mk Level.top) : Multiset Place) +
    ((positions (t.capacityAt .bottom)).map (Prod.mk Level.bottom) : Multiset Place)

theorem mem_places {t : LevelHashing} {p : Place} :
    p ∈ t.places ↔ p.2 ∈ positions (t.capacityAt p.1) := by
  obtain ⟨v, p⟩ := p
  unfold places
  cases v <;> simp

theorem nodup_places (t : LevelHashing) : t.places.Nodup := by
  have side : ∀ (v : Level) (n : Nat), ((positions n).map (Prod.mk v)).Nodup := fun v n =>
    (nodup_positions n).map (Prod.mk_right_injective v)
  refine Multiset.nodup_add.mpr ⟨Multiset.coe_nodup.mpr (side _ _),
    Multiset.coe_nodup.mpr (side _ _), ?_⟩
  rw [Multiset.disjoint_left]
  intro p above below
  obtain ⟨q, _, rfl⟩ := List.mem_map.mp (Multiset.mem_coe.mp above)
  obtain ⟨q', _, same⟩ := List.mem_map.mp (Multiset.mem_coe.mp below)
  cases same

def contents (t : LevelHashing) : Multiset Entry :=
  (items t.top (positions (t.capacityAt .top)) : Multiset Entry) +
    (items t.bottom (positions (t.capacityAt .bottom)) : Multiset Entry)

def liveEntries (c : Multiset Cell) : Multiset Entry := (c.filter Cell.Live).map Cell.entry

theorem liveEntries_add (c d : Multiset Cell) :
    liveEntries (c + d) = liveEntries c + liveEntries d := by
  unfold liveEntries
  rw [Multiset.filter_add, Multiset.map_add]

theorem liveEntries_cons_live {c : Cell} (live : c.Live) (d : Multiset Cell) :
    liveEntries (c ::ₘ d) = c.entry ::ₘ liveEntries d := by
  unfold liveEntries
  rw [Multiset.filter_cons_of_pos _ live, Multiset.map_cons]

theorem liveEntries_cons_free {c : Cell} (free : ¬ c.Live) (d : Multiset Cell) :
    liveEntries (c ::ₘ d) = liveEntries d := by
  unfold liveEntries
  rw [Multiset.filter_cons_of_neg _ free]

theorem mem_items {b : Nat → Node} {at_ : List (Nat × Nat)} {e : Entry} :
    e ∈ items b at_ ↔ ∃ p ∈ at_, (cells b p).Live ∧ (cells b p).entry = e := by
  simp only [items, List.mem_map, List.mem_filter, decide_eq_true_eq, and_assoc]
  rfl

theorem coe_items (b : Nat → Node) (at_ : List (Nat × Nat)) :
    (items b at_ : Multiset Entry) = liveEntries ((at_ : Multiset (Nat × Nat)).map (cells b)) := by
  unfold liveEntries items
  rw [Multiset.filter_map, Multiset.map_map, Multiset.filter_coe, Multiset.map_coe]
  rfl

theorem length_items (b : Nat → Node) (at_ : List (Nat × Nat)) :
    (items b at_).length = (at_ : Multiset (Nat × Nat)).countP fun p => (cells b p).Live := by
  unfold items
  rw [List.length_map, Multiset.coe_countP, List.countP_eq_length_filter]
  rfl

theorem contents_eq (t : LevelHashing) : t.contents = liveEntries (t.places.map t.cell) := by
  unfold contents places
  rw [Multiset.map_add, liveEntries_add, coe_items, coe_items, Multiset.map_coe, Multiset.map_coe,
    Multiset.map_coe, Multiset.map_coe, List.map_map, List.map_map]
  rfl

theorem mem_contents {t : LevelHashing} {e : Entry} :
    e ∈ t.contents ↔ ∃ p, p ∈ t.places ∧ (t.cell p).Live ∧ (t.cell p).entry = e := by
  rw [contents_eq]
  unfold liveEntries
  simp only [Multiset.mem_map, Multiset.mem_filter]
  constructor
  · rintro ⟨c, ⟨⟨p, inside, rfl⟩, live⟩, eq⟩
    exact ⟨p, inside, live, eq⟩
  · rintro ⟨p, inside, live, eq⟩
    exact ⟨t.cell p, ⟨⟨p, inside, rfl⟩, live⟩, eq⟩

/-! ### What every table keeps -/

section
variable (fHash sHash : Key → BitVec 64)

/-- The slots that `Get` looks at for a key at one level. -/
def Home (capacity : Nat) (key : Key) (p : Nat × Nat) : Prop :=
  (p.1 = fIdx (fHash key) capacity ∨ p.1 = sIdx (sHash key) capacity) ∧ p.2 < assocNum

structure Good (capacity : Nat) (p : Nat × Nat) (c : Cell) : Prop where
  clean : c.Clean
  home : c.Live → Home fHash sHash capacity c.entry.key p

structure LevelSound (capacity : Nat) (b : Nat → Node) (num : Nat) : Prop where
  good : ∀ p, Good fHash sHash capacity p (cells b p)
  num : num = (items b (positions capacity)).length

structure Sound (t : LevelHashing) : Prop where
  levels : 2 ≤ t.levels
  capacity : t.addrCapacity = 2 ^ t.levels
  total : t.totalCapacity = 2 ^ t.levels + 2 ^ (t.levels - 1)
  level : ∀ v, LevelSound fHash sHash (t.capacityAt v) (t.buckets v) (t.levelItemNum v)

/-- A table after an item was carried in along slots in use to a free one. -/
structure Carried (t : LevelHashing) (e : Entry) (path : List Place) (last : Place)
    (t' : LevelHashing) : Prop where
  nodup : (path ++ [last]).Nodup
  live : ∀ p ∈ path, (t.cell p).Live
  free : (t.cell last).token = 0
  home : Fits (fun p c => Home fHash sHash (t.capacityAt p.1) c.entry.key p.2) t.cell
    (path ++ [last]) ⟨1, e⟩
  cell : t'.cell = (carry (path ++ [last]) t.cell ⟨1, e⟩).1
  num : ∀ v, t'.levelItemNum v = t.levelItemNum v + if v = last.1 then 1 else 0
  levels : t'.levels = t.levels
  addrCapacity : t'.addrCapacity = t.addrCapacity
  totalCapacity : t'.totalCapacity = t.totalCapacity

end

section
variable {fHash sHash : Key → BitVec 64} {t t' : LevelHashing} {v : Level} {e : Entry}
  {path : List Place} {last : Place}

theorem fIdx_lt {capacity : Nat} (two : 2 ≤ capacity) (hash : BitVec 64) :
    fIdx hash capacity < capacity := by
  have half : hash.toNat % (capacity / 2) < capacity / 2 := Nat.mod_lt _ (by omega)
  have narrow := Nat.mod_le (hash.toNat % (capacity / 2)) (2 ^ 32)
  unfold fIdx
  omega

theorem sIdx_lt {capacity : Nat} (two : 2 ≤ capacity) (hash : BitVec 64) :
    sIdx hash capacity < capacity := by
  have half : hash.toNat % (capacity / 2) < capacity / 2 := Nat.mod_lt _ (by omega)
  have narrow := Nat.mod_le (hash.toNat % (capacity / 2) + capacity / 2) (2 ^ 32)
  unfold sIdx
  omega

theorem Home.mem_positions {capacity : Nat} {key : Key} {p : Nat × Nat}
    (home : Home fHash sHash capacity key p) (two : 2 ≤ capacity) : p ∈ positions capacity := by
  refine LevelHashing.mem_positions.mpr ⟨?_, home.2⟩
  rcases home.1 with eq | eq
  · exact eq.trans_lt (fIdx_lt two _)
  · exact eq.trans_lt (sIdx_lt two _)

theorem capacityAt_top (t : LevelHashing) : t.capacityAt .top = t.addrCapacity := Nat.div_one _

theorem capacityAt_bottom (t : LevelHashing) : t.capacityAt .bottom = t.addrCapacity / 2 := rfl

theorem Sound.two_le_capacityAt (sound : t.Sound fHash sHash) (v : Level) : 2 ≤ t.capacityAt v := by
  have four : 2 ^ 2 ≤ 2 ^ t.levels := Nat.pow_le_pow_right (by norm_num) sound.levels
  have capacity := sound.capacity
  cases v with
  | top =>
    rw [capacityAt_top]
    omega
  | bottom =>
    rw [capacityAt_bottom]
    omega

theorem Sound.good (sound : t.Sound fHash sHash) (p : Place) :
    Good fHash sHash (t.capacityAt p.1) p.2 (t.cell p) :=
  (sound.level p.1).good p.2

theorem Sound.live_iff (sound : t.Sound fHash sHash) (p : Place) :
    (t.cell p).token ≠ 0 ↔ (t.cell p).Live :=
  not_iff_comm.mp (sound.good p).clean.free.symm

theorem Sound.mem_places (sound : t.Sound fHash sHash) {p : Place}
    (live : (t.cell p).Live) : p ∈ t.places :=
  LevelHashing.mem_places.mpr (((sound.good p).home live).mem_positions
    (sound.two_le_capacityAt p.1))

theorem Carried.capacityAt (carried : Carried fHash sHash t e path last t') (v : Level) :
    t'.capacityAt v = t.capacityAt v := by
  unfold LevelHashing.capacityAt
  rw [carried.addrCapacity]

theorem Carried.places (carried : Carried fHash sHash t e path last t') : t'.places = t.places := by
  unfold LevelHashing.places
  rw [carried.capacityAt, carried.capacityAt]

theorem Carried.mem_places (carried : Carried fHash sHash t e path last t')
    (sound : t.Sound fHash sHash) :
    ∀ p ∈ path ++ [last], p ∈ t.places :=
  carried.home.forall_mem fun p _ home => LevelHashing.mem_places.mpr
    (home.mem_positions (sound.two_le_capacityAt p.1))

theorem Carried.contents (carried : Carried fHash sHash t e path last t')
    (sound : t.Sound fHash sHash) :
    t'.contents = e ::ₘ t.contents := by
  have moved := congrArg liveEntries
    (map_carry (f := t.cell) (v := ⟨1, e⟩) t.nodup_places (carried.mem_places sound))
  have out : (carry (path ++ [last]) t.cell ⟨1, e⟩).2 = t.cell last := carry_last carried.nodup
  rw [out, liveEntries_cons_free ((sound.good last).clean.free.mp carried.free),
    liveEntries_cons_live (Cell.live_one e), ← carried.cell] at moved
  rw [contents_eq, contents_eq, carried.places, moved]

/-- The counter of a level goes up with the slot that was free. -/
theorem Carried.length_items (carried : Carried fHash sHash t e path last t')
    (sound : t.Sound fHash sHash) (v : Level) :
    (items (t'.buckets v) (positions (t.capacityAt v))).length =
      (items (t.buckets v) (positions (t.capacityAt v))).length + if v = last.1 then 1 else 0 := by
  have free := (sound.good last).clean.free.mp carried.free
  have count :=
    countP_carry (P := Cell.Live) ((positions (t.capacityAt v)).map (Prod.mk v) : Multiset Place)
      carried.nodup carried.live (Cell.live_one e) free
  rw [← carried.cell, ← Multiset.map_coe, Multiset.countP_map, Multiset.countP_map,
    ← Multiset.countP_eq_card_filter, ← Multiset.countP_eq_card_filter] at count
  rw [LevelHashing.length_items, LevelHashing.length_items]
  refine count.trans (congrArg _ ?_)
  split_ifs with here
  · refine Multiset.count_eq_one_of_mem ((nodup_positions _).map (Prod.mk_right_injective v)) ?_
    have inside :=
      LevelHashing.mem_places.mp (carried.mem_places sound last
        (List.mem_append_right _ List.mem_cons_self))
    subst here
    exact Multiset.mem_map.mpr ⟨last.2, inside, rfl⟩
  · refine Multiset.count_eq_zero_of_notMem fun mem => here ?_
    obtain ⟨q, _, rfl⟩ := Multiset.mem_map.mp mem
    rfl

theorem Carried.sound (carried : Carried fHash sHash t e path last t') (sound : t.Sound fHash sHash)
    (valid : e.key ≠ invalidKey) :
    t'.Sound fHash sHash where
  levels := carried.levels ▸ sound.levels
  capacity := by rw [carried.addrCapacity, carried.levels, sound.capacity]
  total := by rw [carried.totalCapacity, carried.levels, sound.total]
  level v := by
    rw [carried.capacityAt]
    refine ⟨fun p => ?_, ?_⟩
    · have fits := carried.home.imp (fun p => (sound.good p).clean) (Or.inr ⟨rfl, valid⟩)
        (Q := fun p c => Good fHash sHash (t.capacityAt p.1) p.2 c) fun p c clean home =>
          ⟨clean, fun _ => home⟩
      have good := carry_forall_of_fits carried.nodup sound.good fits (v, p)
      rwa [← carried.cell] at good
    · rw [carried.num, carried.length_items sound, (sound.level v).num]

/-! ### The ways of `Insert` to find room -/

theorem freeSlot_some {b : Nat → Node} {f s i j : Nat} (found : freeSlot b f s = some (i, j)) :
    (i = f ∨ i = s) ∧ j < assocNum ∧ (cells b (i, j)).token = 0 := by
  obtain ⟨k, inside, here⟩ := List.exists_of_findSome?_eq_some found
  have lt := List.mem_range.mp inside
  split_ifs at here with first second
  · cases here
    exact ⟨Or.inl rfl, lt, first⟩
  · cases here
    exact ⟨Or.inr rfl, lt, second⟩

theorem freeSlot_none {b : Nat → Node} {f s i j : Nat} (full : freeSlot b f s = none)
    (mine : i = f ∨ i = s) (lt : j < assocNum) :
    (cells b (i, j)).token ≠ 0 := by
  have here := List.findSome?_eq_none_iff.mp full j (List.mem_range.mpr lt)
  split_ifs at here with first second
  rcases mine with rfl | rfl
  · exact first
  · exact second

theorem wideF_eq {capacity : Nat} (two : 2 ≤ capacity) (small : capacity ≤ 2 ^ 32)
    (hash : BitVec 64) :
    wideF hash capacity = fIdx hash capacity := by
  unfold wideF fIdx
  have half : hash.toNat % (capacity / 2) < capacity / 2 := Nat.mod_lt _ (by omega)
  exact (Nat.mod_eq_of_lt (by omega)).symm

theorem wideS_eq {capacity : Nat} (two : 2 ≤ capacity) (small : capacity ≤ 2 ^ 32)
    (hash : BitVec 64) :
    wideS hash capacity = sIdx hash capacity := by
  unfold wideS sIdx
  have half : hash.toNat % (capacity / 2) < capacity / 2 := Nat.mod_lt _ (by omega)
  exact (Nat.mod_eq_of_lt (by omega)).symm

theorem Sound.capacityAt_le (sound : t.Sound fHash sHash) (small : t.levels ≤ 32) (v : Level) :
    t.capacityAt v ≤ 2 ^ 32 := by
  unfold capacityAt
  rw [sound.capacity]
  exact (Nat.div_le_self _ _).trans (Nat.pow_le_pow_right (by norm_num) small)

theorem carried_of_place (found : t.place fHash sHash v e = some t') :
    ∃ path last, Carried fHash sHash t e path last t' := by
  obtain ⟨⟨b, j⟩, free, rfl⟩ := Option.map_eq_some_iff.mp found
  obtain ⟨mine, lt, token⟩ := freeSlot_some free
  exact ⟨[], (v, b, j),
    { nodup := List.nodup_singleton _
      live := List.forall_mem_nil _
      free := token
      home := ⟨⟨mine, lt⟩, trivial⟩
      cell := cell_write
      num := fun w => by
        rw [levelItemNum_write]
        by_cases here : w = v
        · rw [here, if_pos rfl, if_pos rfl]
        · rw [if_neg here, if_neg here, Nat.add_zero]
      levels := by cases v <;> rfl
      addrCapacity := by cases v <;> rfl
      totalCapacity := by cases v <;> rfl }⟩

/-- When a level has no room, the two buckets of the item are full. -/
theorem Sound.full_of_place (sound : t.Sound fHash sHash) (full : t.place fHash sHash v e = none)
    {b : Nat} (mine : b = t.first fHash v e.key ∨ b = t.second sHash v e.key) {j : Nat}
    (lt : j < assocNum) : (t.cell (v, b, j)).Live :=
  (sound.live_iff _).mp (freeSlot_none (Option.map_eq_none_iff.mp full) mine lt)

theorem Sound.home_otherBucket (sound : t.Sound fHash sHash) (small : t.levels ≤ 32) (v : Level)
    (idx : Nat) (key : Key) {j : Nat} (lt : j < assocNum) :
    Home fHash sHash (t.capacityAt v) key (t.otherBucket fHash sHash v idx key, j) := by
  have two := sound.two_le_capacityAt v
  have wide := sound.capacityAt_le small v
  refine ⟨?_, lt⟩
  unfold otherBucket
  rw [wideF_eq two wide, wideS_eq two wide]
  dsimp only
  split_ifs
  · exact Or.inr rfl
  · exact Or.inl rfl

theorem Sound.carried_of_tryMovement (sound : t.Sound fHash sHash) (small : t.levels ≤ 32)
    {idx : Nat} (mine : idx = t.first fHash v e.key ∨ idx = t.second sHash v e.key)
    (full : ∀ j < assocNum, (t.cell (v, idx, j)).Live)
    (found : t.tryMovement fHash sHash idx v e = some t') :
    ∃ path last, Carried fHash sHash t e path last t' := by
  obtain ⟨i, inside, here⟩ := List.exists_of_findSome?_eq_some found
  obtain ⟨j, free, rfl⟩ := Option.map_eq_some_iff.mp here
  have lt := List.mem_range.mp inside
  have lt' := List.mem_range.mp (List.mem_of_find?_eq_some free)
  have token := List.find?_some free
  generalize jdx_eq : t.otherBucket fHash sHash v idx ((t.buckets v idx).slot i).key = jdx at token
  have empty : (t.cell (v, jdx, j)).token = 0 := of_decide_eq_true token
  have other : (v, jdx, j) ≠ (v, idx, i) := by
    intro same
    rw [same, (full i lt : (t.cell (v, idx, i)).token = 1)] at empty
    exact absurd empty (by decide)
  have moved : (⟨1, (t.buckets v idx).slot i⟩ : Cell) = t.cell (v, idx, i) :=
    congrArg (Cell.mk · _) (full i lt : (t.cell (v, idx, i)).token = 1).symm
  refine ⟨[(v, idx, i)], (v, jdx, j), ?_⟩
  exact
    { nodup := by simpa using other.symm
      live := by simpa using full i lt
      free := empty
      home := ⟨⟨mine, lt⟩, jdx_eq ▸ sound.home_otherBucket small v idx _ lt', trivial⟩
      cell := by
        rw [write_clearToken, cell_write, cell_write, moved, update_comm other]
        rfl
      num := fun w => by
        rw [write_clearToken, levelItemNum_write, levelItemNum_write]
        by_cases here : w = v
        · rw [here, if_pos rfl, if_pos rfl]
        · rw [if_neg here, if_neg here, if_neg here, Nat.add_zero]
      levels := by cases v <;> rfl
      addrCapacity := by cases v <;> rfl
      totalCapacity := by cases v <;> rfl }

theorem Sound.carried_of_b2tInsert (sound : t.Sound fHash sHash) (small : t.levels ≤ 32) {idx : Nat}
    (mine : idx = t.first fHash .bottom e.key ∨ idx = t.second sHash .bottom e.key)
    (full : ∀ j < assocNum, (t.cell (.bottom, idx, j)).Live)
    (found : t.b2tInsert fHash sHash idx e = some t') :
    ∃ path last, Carried fHash sHash t e path last t' := by
  obtain ⟨⟨u, i⟩, moves, rfl⟩ := Option.map_eq_some_iff.mp found
  obtain ⟨i', inside, here⟩ := List.exists_of_findSome?_eq_some moves
  obtain ⟨⟨b, j⟩, free, eq⟩ := Option.map_eq_some_iff.mp here
  cases eq
  have lt := List.mem_range.mp inside
  have two := sound.two_le_capacityAt .top
  have wide := sound.capacityAt_le small .top
  rw [capacityAt_top] at two wide
  rw [wideF_eq two wide, wideS_eq two wide] at free
  obtain ⟨home, lt', token⟩ := freeSlot_some free
  have moved : (⟨1, (t.bottom idx).slot i⟩ : Cell) = t.cell (.bottom, idx, i) :=
    congrArg (Cell.mk · _) (full i lt : (t.cell (.bottom, idx, i)).token = 1).symm
  have item : 0 < t.bottomItemNum := by
    have inside :=
      mem_items.mpr ⟨(idx, i), LevelHashing.mem_places.mp (sound.mem_places (full i lt)),
        full i lt, rfl⟩
    exact (List.length_pos_of_mem inside).trans_eq (sound.level .bottom).num.symm
  refine ⟨[(.bottom, idx, i)], (.top, b, j), ?_⟩
  change Carried fHash sHash t e _ _
    (((t.write .top b j _ (t.topItemNum + 1)).clearToken .bottom idx i).write .bottom idx i e
      (t.bottomItemNum - 1 + 1))
  rw [write_clearToken, Nat.sub_add_cancel item]
  exact
    { nodup := by simp
      live := by simpa using full i lt
      free := token
      home := ⟨⟨mine, lt⟩, ⟨by rwa [capacityAt_top], lt'⟩, trivial⟩
      cell := by
        rw [cell_write, cell_write, moved, update_comm (by simp)]
        rfl
      num := fun w => by cases w <;> rfl
      levels := rfl
      addrCapacity := rfl
      totalCapacity := rfl }

theorem Sound.carried_of_attempt (sound : t.Sound fHash sHash) (small : t.levels ≤ 32)
    (found : t.attempt fHash sHash e = some t') :
    ∃ path last, Carried fHash sHash t e path last t' := by
  unfold attempt at found
  simp only [Option.orElse_eq_some] at found
  rcases found with found | ⟨top, found | ⟨bottom,
    found | ⟨-, found | ⟨-, found | ⟨-, found | ⟨-, found⟩⟩⟩⟩⟩⟩
  · exact carried_of_place found
  · exact carried_of_place found
  · exact sound.carried_of_tryMovement small (Or.inl rfl)
      (fun j => sound.full_of_place top (Or.inl rfl)) found
  · exact sound.carried_of_tryMovement small (Or.inr rfl)
      (fun j => sound.full_of_place top (Or.inr rfl)) found
  · exact sound.carried_of_tryMovement small (Or.inl rfl)
      (fun j => sound.full_of_place bottom (Or.inl rfl)) found
  · exact sound.carried_of_tryMovement small (Or.inr rfl)
      (fun j => sound.full_of_place bottom (Or.inr rfl)) found
  · split_ifs at found
    rcases (Option.orElse_eq_some _ _ _).mp found with found | ⟨-, found⟩
    · exact sound.carried_of_b2tInsert small (Or.inl rfl)
        (fun j => sound.full_of_place bottom (Or.inl rfl)) found
    · exact sound.carried_of_b2tInsert small (Or.inr rfl)
        (fun j => sound.full_of_place bottom (Or.inr rfl)) found

/-! ### Resizing -/

theorem coe_items_put {b : Nat → Node} {i j n : Nat} (inside : (i, j) ∈ positions n)
    (free : ¬ (cells b (i, j)).Live) :
    (items (update b i ((b i).put j e)) (positions n) : Multiset Entry) =
      e ::ₘ (items b (positions n) : Multiset Entry) := by
  have moved := congrArg liveEntries
    (map_update (f := cells b) (v := ⟨1, e⟩) (Multiset.coe_nodup.mpr (nodup_positions n))
      (Multiset.mem_coe.mpr inside))
  rw [liveEntries_cons_free free, liveEntries_cons_live (Cell.live_one e), ← cells_put, ← coe_items,
    ← coe_items] at moved
  exact moved

theorem LevelSound.placeItem {capacity : Nat} {m : Moving}
    (sound : LevelSound fHash sHash capacity m.interim m.newLevelItemNum) (two : 2 ≤ capacity)
    (valid : e.key ≠ invalidKey) :
    LevelSound fHash sHash capacity (placeItem fHash sHash capacity m e).interim
        (placeItem fHash sHash capacity m e).newLevelItemNum ∧
      (items (placeItem fHash sHash capacity m e).interim (positions capacity) : Multiset Entry) ≤
        e ::ₘ (items m.interim (positions capacity) : Multiset Entry) := by
  unfold LevelHashing.placeItem
  cases found : freeSlot m.interim (fIdx (fHash e.key) capacity) (sIdx (sHash e.key) capacity) with
  | none => exact ⟨sound, Multiset.le_cons_self _ _⟩
  | some at_ =>
    obtain ⟨b, j⟩ := at_
    obtain ⟨mine, lt, token⟩ := freeSlot_some found
    have home : Home fHash sHash capacity e.key (b, j) := ⟨mine, lt⟩
    have put := coe_items_put (e := e) (home.mem_positions two)
      ((sound.good (b, j)).clean.free.mp token)
    refine ⟨⟨fun p => ?_, ?_⟩, put.le⟩
    · dsimp only
      rw [cells_put, update_apply]
      split_ifs with here
      · subst here
        exact ⟨Or.inr ⟨rfl, valid⟩, fun _ => home⟩
      · exact sound.good p
    · have card := congrArg Multiset.card put
      rw [Multiset.card_cons, Multiset.coe_card, Multiset.coe_card] at card
      dsimp only
      rw [card, sound.num]

theorem levelSound_fresh (capacity : Nat) :
    LevelSound fHash sHash capacity (fun _ => Node.fresh) 0 where
  good p := ⟨Or.inl ⟨rfl, rfl⟩, fun live => absurd live (by simp [Cell.Live, cells, Node.fresh])⟩
  num := by simp [items, Node.fresh]

theorem items_fresh (at_ : List (Nat × Nat)) : items (fun _ => Node.fresh) at_ = [] := by
  simp [items, Node.fresh]

theorem Sound.capacityAt_bottom (sound : t.Sound fHash sHash) :
    t.capacityAt .bottom = 2 ^ (t.levels - 1) := by
  have levels := sound.levels
  have double : 2 ^ t.levels = 2 ^ (t.levels - 1) * 2 := by rw [← Nat.pow_succ]; congr 1; omega
  rw [LevelHashing.capacityAt_bottom, sound.capacity, double, Nat.mul_div_cancel _ (by norm_num)]

theorem capacityAt_resize_top (t : LevelHashing) :
    (t.resize fHash sHash).capacityAt .top = 2 ^ (t.levels + 1) :=
  capacityAt_top _

theorem Sound.capacityAt_resize_bottom (sound : t.Sound fHash sHash) :
    (t.resize fHash sHash).capacityAt .bottom = t.capacityAt .top := by
  rw [capacityAt_top, sound.capacity]
  exact Nat.mul_div_cancel (2 ^ t.levels) (by norm_num)

theorem Sound.valid_of_mem (sound : t.Sound fHash sHash)
    (mem : e ∈ t.contents) : e.key ≠ invalidKey := by
  obtain ⟨p, _, live, rfl⟩ := mem_contents.mp mem
  exact (sound.good p).clean.live.mpr live

/-- A new top level in the middle of `resize`. -/
def Filling (fHash sHash : Key → BitVec 64) (capacity : Nat) (interim : Nat → Node) (num : Nat)
    (done : List Entry) : Prop :=
  LevelSound fHash sHash capacity interim num ∧
    (items interim (positions capacity) : Multiset Entry) ≤ (done : Multiset Entry)

theorem Sound.resize_top (sound : t.Sound fHash sHash) :
    LevelSound fHash sHash (2 ^ (t.levels + 1)) (t.resize fHash sHash).top
      (t.resize fHash sHash).topItemNum ∧
      (items (t.resize fHash sHash).top (positions (2 ^ (t.levels + 1))) : Multiset Entry) ≤
        (items t.bottom (positions (t.capacityAt .bottom)) : Multiset Entry) := by
  have two : 2 ≤ 2 ^ (t.levels + 1) := Nat.le_self_pow (by omega) 2
  have step : ∀ (m : Moving) (done : List Entry),
    ∀ e ∈ items t.bottom (positions (2 ^ (t.levels - 1))),
      Filling fHash sHash (2 ^ (t.levels + 1)) m.interim m.newLevelItemNum done →
        Filling fHash sHash (2 ^ (t.levels + 1))
          (LevelHashing.placeItem fHash sHash (2 ^ (t.levels + 1)) m e).interim
          (LevelHashing.placeItem fHash sHash (2 ^ (t.levels + 1)) m e).newLevelItemNum
            (done ++ [e]) := by
    intro m done e mem filling
    rw [← sound.capacityAt_bottom] at mem
    have valid := sound.valid_of_mem (Multiset.mem_add.mpr (Or.inr (Multiset.mem_coe.mpr mem)))
    obtain ⟨after, le⟩ := filling.1.placeItem two valid
    refine ⟨after, le.trans ?_⟩
    rw [← Multiset.coe_add, Multiset.add_comm]
    exact Multiset.cons_le_cons e filling.2
  have start : Filling fHash sHash (2 ^ (t.levels + 1)) (fun _ => Node.fresh) 0 [] :=
    ⟨levelSound_fresh _, by rw [items_fresh]⟩
  have moved :=
    foldl_moveItem_induct _ (nodup_positions _) step (m := ⟨t.bottom, fun _ => Node.fresh, 0⟩)
    (fun p _ => ⟨rfl, rfl⟩) start
  rw [sound.capacityAt_bottom]
  exact moved

theorem Sound.resize (sound : t.Sound fHash sHash) : (t.resize fHash sHash).Sound fHash sHash where
  levels := sound.levels.trans (Nat.le_succ _)
  capacity := rfl
  total := rfl
  level v := by
    cases v with
    | top =>
      rw [capacityAt_resize_top]
      exact sound.resize_top.1
    | bottom =>
      rw [sound.capacityAt_resize_bottom]
      exact sound.level .top

theorem Sound.contents_resize_le (sound : t.Sound fHash sHash) :
    (t.resize fHash sHash).contents ≤ t.contents := by
  unfold contents
  rw [capacityAt_resize_top, sound.capacityAt_resize_bottom, Multiset.add_comm]
  exact add_le_add le_rfl sound.resize_top.2

/-- A resize that drops nothing keeps the items of a table without duplicates. -/
theorem Sound.contents_resize (sound : t.Sound fHash sHash) (nodup : t.contents.Nodup)
    (kept : KeepsItems fHash sHash t) :
    (t.resize fHash sHash).contents = t.contents := by
  refine le_antisymm sound.contents_resize_le ((Multiset.le_iff_subset nodup).mpr fun e mem => ?_)
  unfold contents at mem ⊢
  rw [capacityAt_resize_top, sound.capacityAt_resize_bottom]
  rcases Multiset.mem_add.mp mem with above | below
  · exact Multiset.mem_add.mpr (Or.inr above)
  · rw [sound.capacityAt_bottom] at below
    obtain ⟨b, j, mine, lt, token, slot⟩ := kept.1 e below
    have home : Home fHash sHash (2 ^ (t.levels + 1)) e.key (b, j) := ⟨mine, lt⟩
    have inside := home.mem_positions (Nat.le_self_pow (by omega) 2)
    exact Multiset.mem_add.mpr (Or.inl (mem_items.mpr ⟨(b, j), inside, token, slot⟩))

/-! ### Runs -/

theorem sound_new {levels : Nat} (two : 2 ≤ levels) : (new levels).Sound fHash sHash where
  levels := two
  capacity := rfl
  total := rfl
  level v := by cases v <;> exact levelSound_fresh _

theorem contents_new (levels : Nat) : (new levels).contents = 0 := by
  unfold contents
  show (items (fun _ => Node.fresh) _ : Multiset Entry) +
    (items (fun _ => Node.fresh) _ : Multiset Entry) = 0
  rw [items_fresh, items_fresh]
  rfl

section
variable (fHash sHash)

/-- What calls that returned have made of a table: the new items are there with what it kept of its
own. -/
structure Grows (t : LevelHashing) (added : Multiset Entry) (grown : List LevelHashing)
    (t' : LevelHashing) : Prop where
  sound : t'.Sound fHash sHash
  levels : t'.levels = t.levels + grown.length
  le : t'.contents ≤ added + t.contents
  kept : (added + t.contents).Nodup → (∀ u ∈ grown, KeepsItems fHash sHash u) →
    t'.contents = added + t.contents

end

theorem Grows.trans {u : LevelHashing} {added added' : Multiset Entry}
    {grown grown' : List LevelHashing} (grows : Grows fHash sHash t added grown u)
    (grows' : Grows fHash sHash u added' grown' t') :
    Grows fHash sHash t (added' + added) (grown ++ grown') t' where
  sound := grows'.sound
  levels := by rw [grows'.levels, grows.levels, List.length_append, Nat.add_assoc]
  le := by
    rw [Multiset.add_assoc]
    exact grows'.le.trans (add_le_add le_rfl grows.le)
  kept nodup keeps := by
    rw [Multiset.add_assoc] at nodup ⊢
    have before :=
      grows.kept (Multiset.nodup_add.mp nodup).2.1 fun w mem => keeps w (List.mem_append_left _ mem)
    rw [← before] at nodup ⊢
    exact grows'.kept nodup fun w mem => keeps w (List.mem_append_right _ mem)

theorem Sound.grows_resize (sound : t.Sound fHash sHash) :
    Grows fHash sHash t 0 [t] (t.resize fHash sHash) where
  sound := sound.resize
  levels := rfl
  le := by
    rw [Multiset.zero_add]
    exact sound.contents_resize_le
  kept nodup keeps := by
    rw [Multiset.zero_add] at nodup ⊢
    exact sound.contents_resize nodup (keeps t List.mem_cons_self)

theorem Sound.grows_attempt (sound : t.Sound fHash sHash) (small : t.levels ≤ 32)
    (valid : e.key ≠ invalidKey) (found : t.attempt fHash sHash e = some t') :
    Grows fHash sHash t {e} [] t' := by
  obtain ⟨path, last, carried⟩ := sound.carried_of_attempt small found
  have contents : t'.contents = {e} + t.contents := carried.contents sound
  exact ⟨carried.sound sound valid, carried.levels, contents.le, fun _ _ => contents⟩

theorem Sound.insert (turns : Nat) {grown : List LevelHashing} (sound : t.Sound fHash sHash)
    (valid : e.key ≠ invalidKey) (returned : t.insert fHash sHash turns e = some (t', grown))
    (small : t.levels + grown.length ≤ 32) :
    Grows fHash sHash t {e} grown t' := by
  induction turns generalizing t grown with
  | zero => cases returned
  | succ turns ih =>
    unfold LevelHashing.insert at returned
    cases found : t.attempt fHash sHash e with
    | some u =>
      rw [found] at returned
      cases returned
      exact sound.grows_attempt small valid found
    | none =>
      rw [found] at returned
      obtain ⟨⟨u, later⟩, next, eq⟩ := Option.map_eq_some_iff.mp returned
      cases eq
      replace small : t.levels + (later.length + 1) ≤ 32 := small
      have rest := ih sound.resize next (by change t.levels + 1 + _ ≤ _; omega)
      exact sound.grows_resize.trans rest

theorem Sound.insertAll {turns : Nat} (ops : List Entry) {grown : List LevelHashing}
    (sound : t.Sound fHash sHash) (valid : ∀ e ∈ ops, e.key ≠ invalidKey)
    (returned : t.insertAll fHash sHash turns ops = some (t', grown))
    (small : t.levels + grown.length ≤ 32) : Grows fHash sHash t ops grown t' := by
  induction ops generalizing t grown with
  | nil =>
    cases returned
    exact ⟨sound, rfl, (Multiset.zero_add _).ge, fun _ _ => (Multiset.zero_add _).symm⟩
  | cons e ops ih =>
    obtain ⟨own, valid⟩ := List.forall_mem_cons.mp valid
    unfold LevelHashing.insertAll at returned
    cases here : t.insert fHash sHash turns e with
    | none =>
      rw [here] at returned
      cases returned
    | some out =>
      obtain ⟨u, first⟩ := out
      rw [here] at returned
      obtain ⟨⟨w, later⟩, next, eq⟩ := Option.map_eq_some_iff.mp returned
      cases eq
      replace small : t.levels + (first ++ later).length ≤ 32 := small
      rw [List.length_append] at small
      have grows := sound.insert turns own here (by omega)
      have rest := ih grows.sound valid next (by rw [grows.levels]; omega)
      have whole := grows.trans rest
      rwa [Multiset.add_comm] at whole

/-! ### Reading -/

end

/-- Thirteen even keys, one more than their four buckets can hold. -/
def evens : List Entry :=
  (List.range 13).map fun i => ⟨BitVec.ofNat 64 (2 * i), BitVec.ofNat 64 (100 + i)⟩

/-- Two levels with two buckets each are all that keys of the same two hash values can be in. -/
def homes (t : LevelHashing) (x y : BitVec 64) : List Place :=
  [Level.top, Level.bottom].flatMap fun v => [fIdx x (t.capacityAt v),
      sIdx y (t.capacityAt v)].flatMap fun b =>
    (List.range assocNum).map fun j => (v, b, j)

theorem Sound.card_colliding_le {fHash sHash : Key → BitVec 64} {t : LevelHashing}
    (sound : t.Sound fHash sHash) (x y : BitVec 64) :
    (t.contents.filter fun e => fHash e.key = x ∧ sHash e.key = y).card ≤ 4 * assocNum := by
  have split : t.contents.filter (fun e => fHash e.key = x ∧ sHash e.key = y) =
      (t.places.filter fun p => (t.cell p).Live ∧ fHash (t.cell p).entry.key = x ∧
        sHash (t.cell p).entry.key = y).map fun p => (t.cell p).entry := by
    rw [contents_eq]
    unfold liveEntries
    rw [Multiset.filter_map, Multiset.filter_map, Multiset.filter_map,
      Multiset.map_map, Multiset.filter_filter]
    refine Multiset.map_congr (Multiset.filter_congr fun p _ => ?_) fun p _ => rfl
    simp [and_comm]
  have inside : ∀ p ∈ t.places.filter (fun p => (t.cell p).Live ∧ fHash (t.cell p).entry.key = x ∧
      sHash (t.cell p).entry.key = y), p ∈ (t.homes x y : Multiset Place) := by
    rintro ⟨v, b, j⟩ mem
    obtain ⟨_, live, rfl, rfl⟩ := Multiset.mem_filter.mp mem
    obtain ⟨mine, lt⟩ := (sound.good (v, b, j)).home live
    simp only [homes, Multiset.mem_coe, List.mem_flatMap, List.mem_map, List.mem_range]
    exact ⟨v, by cases v <;> simp, b, by simpa using mine, j, lt, rfl⟩
  rw [split, Multiset.card_map]
  exact Multiset.card_le_card ((Multiset.le_iff_subset (t.nodup_places.filter _)).mpr inside)

/-- More than twelve calls for keys with the same two hash values cannot go well: one of the calls
does not return, or the table has grown past 32 levels, or a resize has dropped an item. -/
theorem colliding_calls_fail (fHash sHash : Key → BitVec 64) (levels : Nat) (two : 2 ≤ levels)
    (ops : List Entry) (distinct : (ops.map Entry.key).Nodup)
    (valid : ∀ e ∈ ops, e.key ≠ invalidKey) (x y : BitVec 64)
    (many : 4 * assocNum < (ops.filter fun e => fHash e.key = x ∧ sHash e.key = y).length)
    (turns : Nat) :
    (new levels).insertAll fHash sHash turns ops = none ∨
      ∃ t grown, (new levels).insertAll fHash sHash turns ops = some (t, grown) ∧
        (32 < levels + grown.length ∨ ∃ u ∈ grown, ¬ KeepsItems fHash sHash u) := by
  cases returned : (new levels).insertAll fHash sHash turns ops with
  | none => exact Or.inl rfl
  | some out =>
    obtain ⟨t, grown⟩ := out
    refine Or.inr ⟨t, grown, rfl, ?_⟩
    by_contra fine_
    push Not at fine_
    have grows := (sound_new two).insertAll ops valid returned fine_.1
    have nodup : ((ops : Multiset Entry) + (new levels).contents).Nodup := by
      rw [contents_new, Multiset.add_zero]
      exact Multiset.coe_nodup.mpr (List.Nodup.of_map Entry.key distinct)
    have contents := grows.kept nodup fine_.2
    have bound := grows.sound.card_colliding_le x y
    rw [contents, contents_new, Multiset.add_zero, Multiset.filter_coe, Multiset.coe_card] at bound
    exact absurd many (Nat.not_lt.mpr bound)

theorem colliding_calls_fail_evens : (new 2).insertAll (fun _ => 0) (fun _ => 0) 9 evens = none ∨
    ∃ t grown, (new 2).insertAll (fun _ => 0) (fun _ => 0) 9 evens = some (t, grown) ∧
      (32 < 2 + grown.length ∨ ∃ u ∈ grown, ¬ KeepsItems (fun _ => 0) (fun _ => 0) u) :=
  colliding_calls_fail (fun _ => 0) (fun _ => 0) 2 (Nat.le_refl 2) evens (by decide +kernel)
    (by decide +kernel) 0 0 (by decide +kernel) 9

end Xcache.LevelHashing
