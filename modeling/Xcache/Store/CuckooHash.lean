import Xcache.Store.Cells

/-! The two-position cuckoo table (`server/src/cuckoo_hash.cpp`), called by one thread at a time. -/

namespace Xcache

structure CuckooHash where
  capacity : Nat
  table : Nat → Pair

namespace CuckooHash

/-- Why a call does not return: the `exit` of `find_path`, the `exit`s of `resize`, or a loop that
goes on. -/
inductive Stop
  | wrong
  | gaveUp
  | running
  deriving DecidableEq

def kCuckooThreshold : Nat := 16
def kMaxGrows : Nat := 128

def new (capacity : Nat) : CuckooHash := ⟨capacity, fun _ => Pair.fresh⟩

/-- `capacity * kResizingFactor` with a `float` factor of 2: the capacity is first rounded to 24
bits, to the even neighbour when it lies in the middle. -/
def resized (capacity : Nat) : Nat :=
  let e := capacity.log2 - 23
  let q := capacity / 2 ^ e
  let r := capacity % 2 ^ e
  2 * ((if 2 ^ e < 2 * r ∨ 2 ^ e = 2 * r ∧ q % 2 = 1 then q + 1 else q) * 2 ^ e)

section
-- `hash_funcs[0]` and `hash_funcs[1]`
variable (fHash sHash : Key → BitVec 64)

def fIdx (t : CuckooHash) (key : Key) : Nat := (fHash key).toNat % t.capacity
def sIdx (t : CuckooHash) (key : Key) : Nat := (sHash key).toNat % t.capacity

/-- The loop of `find_path` with the turns left. -/
def findPathFrom (t : CuckooHash) : Nat → Nat → List (Nat × Key) → Except Stop (List (Nat × Key))
  | 0, _, _ => .ok []
  | turns + 1, cur, path =>
    let key := (t.table cur).key
    if key = invalidKey then .ok path
    else if t.fIdx fHash key = cur then
      findPathFrom t turns (t.sIdx sHash key)
        (path ++ [(t.sIdx sHash key, (t.table (t.sIdx sHash key)).key)])
    else if t.sIdx sHash key = cur then
      findPathFrom t turns (t.fIdx fHash key)
        (path ++ [(t.fIdx fHash key, (t.table (t.fIdx fHash key)).key)])
    else .error .wrong

def findPath (t : CuckooHash) (target : Nat) : Except Stop (List (Nat × Key)) :=
  t.findPathFrom fHash sHash kCuckooThreshold target [(target, (t.table target).key)]

/-- `execute_path` of `resize`, with the two cells of `pushed` and the one that is written next. -/
def executePushed : List (Nat × Key) → (Nat → Pair) → (Bool → Pair) → Bool → Nat → Pair
  | [], table, _, _ => table
  | p :: path, table, pushed, i =>
    let pushed := Function.update pushed (!i) (table p.1)
    executePushed path (Function.update table p.1 (pushed i)) pushed (!i)

def executePath (path : List (Nat × Key)) (table : Nat → Pair) (p : Pair) : Nat → Pair :=
  match path with
  | [] => table
  | first :: _ => Function.update (shiftBack (path.map Prod.fst) table) first.1 p

/-- `insert4resize`, `none` when it returns false. -/
def insert4resize (t : CuckooHash) (p : Pair) : Except Stop (Option CuckooHash) :=
  let f := t.fIdx fHash p.key
  let s := t.sIdx sHash p.key
  if (t.table f).key = invalidKey then .ok (some { t with table := Function.update t.table f p })
  else if (t.table s).key = invalidKey then .ok
    (some { t with table := Function.update t.table s p })
  else do
    let path1 ← t.findPath fHash sHash f
    let path2 ← t.findPath fHash sHash s
    if path1 = [] ∧ path2 = [] then .ok none
    else
      let path := if path1 = [] then path2 else if path2 = [] then path1
        else if path1.length < path2.length then path1 else path2
      .ok (some
        { t with table := executePushed path t.table (fun i => if i then Pair.fresh else p) false })

/-- The loop of `resize` over the old cells, with an `unsigned` counter, `none` when a pair finds no
place. -/
def rehash (old : CuckooHash) : Nat → BitVec 32 → CuckooHash → Except Stop (Option CuckooHash)
  | 0, _, _ => .error .running
  | fuel + 1, i, t =>
    if i.toNat < old.capacity then
      if (old.table i.toNat).Live then do
        match ← t.insert4resize fHash sHash (old.table i.toNat) with
        | none => .ok none
        | some t => rehash old fuel (i + 1) t
      else rehash old fuel (i + 1) t
    else .ok (some t)

-- whether `new Pair[capacity]` succeeds
variable (alloc : Nat → Bool)

def grow (fuel : Nat) (old : CuckooHash) : Nat → Nat → Except Stop CuckooHash
  | 0, _ => .error .gaveUp
  | turns + 1, capacity =>
    if alloc (resized capacity) then do
      match ← old.rehash fHash sHash fuel 0 (new (resized capacity)) with
      | some t => .ok t
      | none => grow fuel old turns (resized capacity)
    else .error .gaveUp

def resize (fuel : Nat) (t : CuckooHash) : Except Stop CuckooHash :=
  t.grow fHash sHash alloc fuel kMaxGrows t.capacity

/-- `Insert`. Nobody changes the table between the search for a path and its validation; if a path
were invalid, the search would give it again and again. -/
def insert : Nat → CuckooHash → Key → Value → Except Stop CuckooHash
  | 0, _, _, _ => .error .running
  | fuel + 1, t, key, value =>
    let f := t.fIdx fHash key
    let s := t.sIdx sHash key
    if (t.table f).key = invalidKey then .ok
      { t with table := Function.update t.table f ⟨key, some value⟩ }
    else if (t.table s).key = invalidKey then .ok
      { t with table := Function.update t.table s ⟨key, some value⟩ }
    else do
      let path1 ← t.findPath fHash sHash f
      let path2 ← t.findPath fHash sHash s
      if path1 ≠ [] ∨ path2 ≠ [] then
        let path := if path1 = [] ∨ path2 ≠ [] ∧ path2.length < path1.length ∨
            path2 ≠ [] ∧ path1.head?.map Prod.snd = some invalidKey then path2 else path1
        if ∀ p ∈ path, (t.table p.1).key = p.2 then
          .ok { t with table := executePath path t.table ⟨key, some value⟩ }
        else .error .running
      else do insert fuel (← t.resize fHash sHash alloc fuel) key value

/-- `Get` while no resize is going on, `none` if it reads a value that nothing has written. -/
def get (t : CuckooHash) (key : Key) : Option Value :=
  if (t.table (t.fIdx fHash key)).key = key then (t.table (t.fIdx fHash key)).value
  else if (t.table (t.sIdx sHash key)).key = key then (t.table (t.sIdx sHash key)).value
  else some noneValue

def insertAll (fuel : Nat) (t : CuckooHash) : List (Key × Value) → Except Stop CuckooHash
  | [] => .ok t
  | op :: ops => do insertAll fuel (← t.insert fHash sHash alloc fuel op.1 op.2) ops

end

section
variable {fHash sHash : Key → BitVec 64} {alloc : Nat → Bool} {t t' old : CuckooHash} {p : Pair}
  {i target : Nat}

/-- The other position of the pair in a cell. -/
def next (fHash sHash : Key → BitVec 64) (t : CuckooHash) (i : Nat) : Option Nat :=
  if (t.table i).key = invalidKey then none
  else if t.fIdx fHash (t.table i).key = i then some (t.sIdx sHash (t.table i).key) else some
    (t.fIdx fHash (t.table i).key)

/-- One of the two positions of a key. -/
def Home (fHash sHash : Key → BitVec 64) (t : CuckooHash) (key : Key) (i : Nat) : Prop :=
  i = t.fIdx fHash key ∨ i = t.sIdx sHash key

/-- Every pair in use is in one of its two positions. -/
structure Placed (fHash sHash : Key → BitVec 64) (t : CuckooHash) : Prop where
  pos : 0 < t.capacity
  home : ∀ i, (t.table i).Live → t.Home fHash sHash (t.table i).key i

/-- What `find_path` gives if not nothing: the trail from the target with the keys of its cells. -/
structure IsPath (fHash sHash : Key → BitVec 64) (t : CuckooHash) (target : Nat)
    (path : List (Nat × Key)) : Prop where
  trail : Trail (t.next fHash sHash) (path.map Prod.fst)
  first : ∃ rest, path = (target, (t.table target).key) :: rest
  keys : ∀ p ∈ path, (t.table p.1).key = p.2

theorem next_eq_none : t.next fHash sHash i = none ↔ (t.table i).key = invalidKey := by
  unfold next
  by_cases free : (t.table i).key = invalidKey
  · rw [if_pos free]
    exact iff_of_true rfl free
  · rw [if_neg free]
    refine iff_of_false (fun eq => ?_) free
    by_cases first : t.fIdx fHash (t.table i).key = i
    · rw [if_pos first] at eq
      cases eq
    · rw [if_neg first] at eq
      cases eq

theorem home_of_next {j : Nat} (eq : t.next fHash sHash i = some j) :
    t.Home fHash sHash (t.table i).key j := by
  unfold next at eq
  by_cases free : (t.table i).key = invalidKey
  · rw [if_pos free] at eq
    cases eq
  · rw [if_neg free] at eq
    by_cases first : t.fIdx fHash (t.table i).key = i
    · rw [if_pos first] at eq
      exact Or.inr (Option.some_inj.mp eq).symm
    · rw [if_neg first] at eq
      exact Or.inl (Option.some_inj.mp eq).symm

theorem Home.lt {key : Key} (home : t.Home fHash sHash key i)
    (pos : 0 < t.capacity) : i < t.capacity := by
  rcases home with rfl | rfl
  · exact Nat.mod_lt _ pos
  · exact Nat.mod_lt _ pos

/-- The loop of `find_path` runs out of turns, or follows the trail to its end, or meets a pair that
is in neither of its positions. -/
theorem findPathFrom_cases (fHash sHash : Key → BitVec 64) (t : CuckooHash) (turns cur : Nat)
    (path : List (Nat × Key)) :
    t.findPathFrom fHash sHash turns cur path = .ok [] ∨
    (∃ rest, Trail (t.next fHash sHash) (cur :: rest.map Prod.fst) ∧
      (∀ p ∈ rest, (t.table p.1).key = p.2) ∧
      t.findPathFrom fHash sHash turns cur path = .ok (path ++ rest)) ∨
    t.findPathFrom fHash sHash turns cur path = .error .wrong ∧ ∃ i, (t.table i).Live ∧
      ¬ t.Home fHash sHash (t.table i).key i := by
  induction turns generalizing cur path with
  | zero => exact Or.inl rfl
  | succ turns ih =>
    -- a step to `j` puts `j` in front of the trail that the later turns follow
    have step : ∀ j, t.next fHash sHash cur = some j →
        t.findPathFrom fHash sHash (turns + 1) cur path =
          t.findPathFrom fHash sHash turns j (path ++ [(j, (t.table j).key)]) →
        t.findPathFrom fHash sHash (turns + 1) cur path = .ok [] ∨
        (∃ rest, Trail (t.next fHash sHash) (cur :: rest.map Prod.fst) ∧
          (∀ p ∈ rest, (t.table p.1).key = p.2) ∧
          t.findPathFrom fHash sHash (turns + 1) cur path = .ok (path ++ rest)) ∨
        t.findPathFrom fHash sHash (turns + 1) cur path = .error .wrong ∧ ∃ i, (t.table i).Live ∧
          ¬ t.Home fHash sHash (t.table i).key i := by
      intro j link eq
      rw [eq]
      rcases ih j (path ++ [(j, (t.table j).key)]) with stuck | ⟨rest, trail, keys, found⟩ | wrong
      · exact Or.inl stuck
      · refine Or.inr (Or.inl ⟨(j, (t.table j).key) :: rest, ⟨link, trail⟩, ?_, ?_⟩)
        · intro p mem
          rcases List.mem_cons.mp mem with rfl | mem
          · rfl
          · exact keys p mem
        · rw [found, List.append_assoc]
          rfl
      · exact Or.inr (Or.inr wrong)
    by_cases free : (t.table cur).key = invalidKey
    · refine Or.inr (Or.inl ⟨[], next_eq_none.mpr free, nofun, ?_⟩)
      rw [findPathFrom, if_pos free, List.append_nil]
    · by_cases first : t.fIdx fHash (t.table cur).key = cur
      · refine step (t.sIdx sHash (t.table cur).key) ?_ ?_
        · rw [next, if_neg free, if_pos first]
        · rw [findPathFrom, if_neg free, if_pos first]
      · by_cases second : t.sIdx sHash (t.table cur).key = cur
        · refine step (t.fIdx fHash (t.table cur).key) ?_ ?_
          · rw [next, if_neg free, if_neg first]
          · rw [findPathFrom, if_neg free, if_neg first, if_pos second]
        · refine Or.inr (Or.inr ⟨by rw [findPathFrom, if_neg free, if_neg first, if_neg second],
            cur, free, fun home => home.elim (fun eq => first eq.symm) fun eq => second eq.symm⟩)

theorem findPath_cases (fHash sHash : Key → BitVec 64) (t : CuckooHash) (target : Nat) :
    t.findPath fHash sHash target = .ok [] ∨
    (∃ path, t.IsPath fHash sHash target path ∧ t.findPath fHash sHash target = .ok path) ∨
    t.findPath fHash sHash target = .error .wrong ∧ ∃ i, (t.table i).Live ∧
      ¬ t.Home fHash sHash (t.table i).key i := by
  rcases findPathFrom_cases fHash sHash t kCuckooThreshold target
      [(target, (t.table target).key)] with
    stuck | ⟨rest, trail, keys, found⟩ | wrong
  · exact Or.inl stuck
  · refine Or.inr (Or.inl ⟨(target, (t.table target).key) :: rest, ⟨trail, ⟨rest, rfl⟩, ?_⟩, found⟩)
    intro p mem
    rcases List.mem_cons.mp mem with rfl | mem
    · rfl
    · exact keys p mem
  · exact Or.inr (Or.inr wrong)

theorem Placed.findPath (placed : t.Placed fHash sHash) (target : Nat) :
    ∃ path, t.findPath fHash sHash target = .ok path ∧
      (path ≠ [] → t.IsPath fHash sHash target path) := by
  rcases findPath_cases fHash sHash t target with stuck | ⟨path, isPath, found⟩ | ⟨_, i, live, away⟩
  · exact ⟨[], stuck, fun ne => absurd rfl ne⟩
  · exact ⟨path, found, fun _ => isPath⟩
  · exact absurd (placed.home i live) away

theorem executePushed_eq_carry (path : List (Nat × Key)) (table : Nat → Pair) (pushed : Bool → Pair)
    (i : Bool) :
    executePushed path table pushed i = (carry (path.map Prod.fst) table (pushed i)).1 := by
  induction path generalizing table pushed i with
  | nil => rfl
  | cons p path ih =>
    unfold executePushed
    rw [ih, Function.update_self, Function.update_of_ne (Bool.not_ne_self i).symm]
    rfl

theorem executePath_eq_carry {path : List (Nat × Key)} (nonempty : path ≠ [])
    (nodup : (path.map Prod.fst).Nodup) (table : Nat → Pair) (p : Pair) :
    executePath path table p = (carry (path.map Prod.fst) table p).1 := by
  cases path with
  | nil => exact absurd rfl nonempty
  | cons first path => exact update_shiftBack nodup

/-- A table with one more pair. -/
structure Added (fHash sHash : Key → BitVec 64) (t : CuckooHash) (p : Pair)
    (t' : CuckooHash) : Prop where
  capacity : t'.capacity = t.capacity
  placed : t'.Placed fHash sHash
  entries : entries t'.table t'.capacity = p ::ₘ entries t.table t.capacity

theorem Placed.carry {l : List Nat} {x : Nat} (placed : t.Placed fHash sHash)
    (trail : Trail (t.next fHash sHash) (x :: l)) (home : t.Home fHash sHash p.key x)
    (live : p.Live) :
    Added fHash sHash t p { t with table := (Xcache.carry (x :: l) t.table p).1 } := by
  refine ⟨rfl, ⟨placed.pos, ?_⟩, entries_carry ?_ live ?_⟩
  · exact carry_forall (P := fun i (q : Pair) => q.Live → t.Home fHash sHash q.key i) trail
      placed.home (fun _ => home) fun i j link _ => home_of_next link
  · exact trail.forall (home.lt placed.pos) fun i j link => (home_of_next link).lt placed.pos
  · obtain ⟨pre, last, eq, free⟩ := trail.last
    have nodup := trail.nodup
    rw [eq] at nodup ⊢
    rw [carry_last nodup]
    exact not_not_intro (next_eq_none.mp free)

theorem Placed.store (placed : t.Placed fHash sHash) (free : (t.table i).key = invalidKey)
    (home : t.Home fHash sHash p.key i) (live : p.Live) :
    Added fHash sHash t p { t with table := Function.update t.table i p } :=
  placed.carry (l := []) (next_eq_none.mpr free) home live

theorem Placed.path {path : List (Nat × Key)} (placed : t.Placed fHash sHash)
    (isPath : t.IsPath fHash sHash target path) (home : t.Home fHash sHash p.key target)
    (live : p.Live) :
    Added fHash sHash t p { t with table := (Xcache.carry (path.map Prod.fst) t.table p).1 } := by
  obtain ⟨rest, rfl⟩ := isPath.first
  exact placed.carry isPath.trail home live

theorem Placed.insert4resize (placed : t.Placed fHash sHash) (live : p.Live) :
    ∃ r, t.insert4resize fHash sHash p = .ok r ∧ ∀ t', r = some t' → Added fHash sHash t p t' := by
  unfold CuckooHash.insert4resize
  by_cases first : (t.table (t.fIdx fHash p.key)).key = invalidKey
  · rw [if_pos first]
    exact ⟨_, rfl, fun t' eq => Option.some_inj.mp eq ▸ placed.store first (Or.inl rfl) live⟩
  rw [if_neg first]
  by_cases second : (t.table (t.sIdx sHash p.key)).key = invalidKey
  · rw [if_pos second]
    exact ⟨_, rfl, fun t' eq => Option.some_inj.mp eq ▸ placed.store second (Or.inr rfl) live⟩
  rw [if_neg second]
  obtain ⟨path1, found1, is1⟩ := placed.findPath (t.fIdx fHash p.key)
  obtain ⟨path2, found2, is2⟩ := placed.findPath (t.sIdx sHash p.key)
  dsimp only [bind, Except.bind]
  rw [found1, found2]
  dsimp only
  have along1 : path1 ≠ [] → Added fHash sHash t p
      { t with table := (Xcache.carry (path1.map Prod.fst) t.table p).1 } :=
    fun ne => placed.path (is1 ne) (Or.inl rfl) live
  have along2 : path2 ≠ [] → Added fHash sHash t p
      { t with table := (Xcache.carry (path2.map Prod.fst) t.table p).1 } :=
    fun ne => placed.path (is2 ne) (Or.inr rfl) live
  by_cases none : path1 = [] ∧ path2 = []
  · rw [if_pos none]
    exact ⟨_, rfl, nofun⟩
  · rw [if_neg none]
    refine ⟨_, rfl, fun t' eq => Option.some_inj.mp eq ▸ ?_⟩
    rw [executePushed_eq_carry]
    by_cases no1 : path1 = []
    · rw [if_pos no1]
      exact along2 fun no2 => none ⟨no1, no2⟩
    · rw [if_neg no1]
      by_cases no2 : path2 = []
      · rw [if_pos no2]
        exact along1 no1
      · rw [if_neg no2]
        by_cases shorter : path1.length < path2.length
        · rw [if_pos shorter]
          exact along1 no1
        · rw [if_neg shorter]
          exact along2 no2

/-- The loop over the old cells never meets a misplaced pair. When it ends, which an `unsigned`
counter allows only below 2^32 cells, all old pairs from the cell where it started are in the new
table. -/
theorem Placed.rehash (old : CuckooHash) (fuel : Nat) (i : BitVec 32)
    (placed : t.Placed fHash sHash) :
    old.rehash fHash sHash fuel i t ≠ .error .wrong ∧
      old.rehash fHash sHash fuel i t ≠ .error .gaveUp ∧
    ∀ t', old.rehash fHash sHash fuel i t = .ok (some t') → t'.Placed fHash sHash ∧
      t'.capacity = t.capacity ∧
      old.capacity < 2 ^ 32 ∧ (i.toNat ≤ old.capacity →
        entries t.table t.capacity = entries old.table i.toNat →
        entries t'.table t'.capacity = entries old.table old.capacity) := by
  induction fuel generalizing i t with
  | zero => exact ⟨nofun, nofun, nofun⟩
  | succ fuel ih =>
    unfold CuckooHash.rehash
    by_cases more : i.toNat < old.capacity
    · rw [if_pos more]
      have index : old.capacity < 2 ^ 32 → (i + 1).toNat = i.toNat + 1 := by
        intro small
        rw [BitVec.toNat_add]
        exact Nat.mod_eq_of_lt (by change i.toNat + 1 < 2 ^ 32; omega)
      by_cases live : (old.table i.toNat).Live
      · rw [if_pos live]
        obtain ⟨r, done, added⟩ := placed.insert4resize live
        dsimp only [bind, Except.bind]
        rw [done]
        cases r with
        | none => exact ⟨nofun, nofun, nofun⟩
        | some u =>
          have added := added u rfl
          obtain ⟨right, on, rest⟩ := ih (i + 1) added.placed
          refine ⟨right, on, fun t' ended => ?_⟩
          obtain ⟨placed', capacity, small, moved⟩ := rest t' ended
          refine ⟨placed', capacity.trans added.capacity, small, fun _ before => ?_⟩
          rw [index small] at moved
          refine moved more ?_
          rw [added.entries, before, entries_succ_live live]
      · rw [if_neg live]
        obtain ⟨right, on, rest⟩ := ih (i + 1) placed
        refine ⟨right, on, fun t' ended => ?_⟩
        obtain ⟨placed', capacity, small, moved⟩ := rest t' ended
        refine ⟨placed', capacity, small, fun _ before => ?_⟩
        rw [index small, entries_succ_free live] at moved
        exact moved more before
    · rw [if_neg more]
      refine ⟨nofun, nofun, fun t' ended => ?_⟩
      obtain rfl : t = t' := Option.some_inj.mp (Except.ok.inj ended)
      refine ⟨placed, rfl, lt_of_le_of_lt (not_lt.mp more) i.isLt, fun le before => ?_⟩
      rw [before, le_antisymm le (not_lt.mp more)]

theorem lt_resized {capacity : Nat} (pos : 0 < capacity) : capacity < resized capacity := by
  have le : 2 ^ (capacity.log2 - 23) ≤ capacity :=
    (Nat.pow_le_pow_right (by decide) (Nat.sub_le _ _)).trans (Nat.log2_self_le pos.ne')
  have quotient : 1 ≤ capacity / 2 ^ (capacity.log2 - 23) := Nat.div_pos le (by positivity)
  have below : capacity < (capacity / 2 ^ (capacity.log2 - 23) + 1) * 2 ^ (capacity.log2 - 23) :=
    (Nat.div_lt_iff_lt_mul (by positivity)).mp (Nat.lt_succ_self _)
  unfold resized
  refine below.trans_le ?_
  rw [← Nat.mul_assoc]
  refine Nat.mul_le_mul_right _ ?_
  by_cases up : 2 ^ (capacity.log2 - 23) < 2 * (capacity % 2 ^ (capacity.log2 - 23)) ∨
      2 ^ (capacity.log2 - 23) = 2 * (capacity % 2 ^ (capacity.log2 - 23)) ∧
        capacity / 2 ^ (capacity.log2 - 23) % 2 = 1
  · rw [if_pos up]
    omega
  · rw [if_neg up]
    omega

theorem placed_new (fHash sHash : Key → BitVec 64) {capacity : Nat} (pos : 0 < capacity) :
    (new capacity).Placed fHash sHash :=
  ⟨pos, fun _ live => absurd live Pair.not_live_fresh⟩

theorem entries_new (capacity n : Nat) : entries (new capacity).table n = 0 :=
  entries_of_free fun _ _ => Pair.not_live_fresh

theorem grow_spec (fHash sHash : Key → BitVec 64) (alloc : Nat → Bool) (old : CuckooHash)
    (fuel turns : Nat) {capacity : Nat} (pos : 0 < capacity) :
    old.grow fHash sHash alloc fuel turns capacity ≠ .error .wrong ∧
    ∀ t', old.grow fHash sHash alloc fuel turns capacity = .ok t' → t'.Placed fHash sHash ∧
      capacity < t'.capacity ∧
      alloc t'.capacity = true ∧ entries t'.table t'.capacity = entries old.table old.capacity := by
  induction turns generalizing capacity with
  | zero => exact ⟨nofun, nofun⟩
  | succ turns ih =>
    unfold grow
    by_cases fits : alloc (resized capacity) = true
    · rw [if_pos fits]
      have larger := lt_resized pos
      obtain ⟨right, _, moved⟩ := (placed_new fHash sHash (pos.trans larger)).rehash old fuel 0
      obtain ⟨right', more⟩ := ih (pos.trans larger)
      dsimp only [bind, Except.bind]
      cases ended : old.rehash fHash sHash fuel 0 (new (resized capacity)) with
      | error stop => exact ⟨fun eq => right (Except.error.inj eq ▸ ended), nofun⟩
      | ok r =>
        cases r with
        | none =>
          refine ⟨right', fun t' eq => ?_⟩
          obtain ⟨placed, lt, rest⟩ := more t' eq
          exact ⟨placed, larger.trans lt, rest⟩
        | some u =>
          refine ⟨nofun, fun t' eq => ?_⟩
          obtain rfl : u = t' := Except.ok.inj eq
          obtain ⟨placed, same, _, all⟩ := moved u ended
          have same : u.capacity = resized capacity := same
          refine ⟨placed, same ▸ larger, same ▸ fits, all (Nat.zero_le _) ?_⟩
          rw [entries_new]
          exact (entries_of_free (n := 0) fun i lt => absurd lt (Nat.not_lt_zero i)).symm
    · rw [if_neg fits]
      exact ⟨nofun, nofun⟩

/-- One turn of `Insert` adds the pair or resizes. -/
theorem Placed.insert_succ (alloc : Nat → Bool) (fuel : Nat) {key : Key} (value : Value)
    (placed : t.Placed fHash sHash) (valid : key ≠ invalidKey) :
    (∃ t', t.insert fHash sHash alloc (fuel + 1) key value = .ok t' ∧
      Added fHash sHash t ⟨key, some value⟩ t') ∨
    t.insert fHash sHash alloc (fuel + 1) key value =
      (t.resize fHash sHash alloc fuel).bind fun u =>
        u.insert fHash sHash alloc fuel key value := by
  have live : (⟨key, some value⟩ : Pair).Live := valid
  rw [CuckooHash.insert]
  by_cases first : (t.table (t.fIdx fHash key)).key = invalidKey
  · rw [if_pos first]
    exact Or.inl ⟨_, rfl, placed.store first (Or.inl rfl) live⟩
  rw [if_neg first]
  by_cases second : (t.table (t.sIdx sHash key)).key = invalidKey
  · rw [if_pos second]
    exact Or.inl ⟨_, rfl, placed.store second (Or.inr rfl) live⟩
  rw [if_neg second]
  obtain ⟨path1, found1, is1⟩ := placed.findPath (t.fIdx fHash key)
  obtain ⟨path2, found2, is2⟩ := placed.findPath (t.sIdx sHash key)
  dsimp only [bind, Except.bind]
  rw [found1, found2]
  dsimp only
  -- the path that is taken is not empty and passes the validation
  have along : ∀ target path, path ≠ [] → (path ≠ [] → t.IsPath fHash sHash target path) →
    t.Home fHash sHash key target → ∃ t', (if ∀ p ∈ path, (t.table p.1).key = p.2 then
          (.ok { t with table := executePath path t.table ⟨key, some value⟩ } :
            Except Stop CuckooHash)
        else .error .running) = .ok t' ∧ Added fHash sHash t ⟨key, some value⟩ t' := by
    intro target path nonempty isPath home
    have isPath := isPath nonempty
    refine ⟨_, if_pos isPath.keys, ?_⟩
    rw [executePath_eq_carry nonempty isPath.trail.nodup]
    exact placed.path isPath home live
  by_cases either : path1 ≠ [] ∨ path2 ≠ []
  · rw [if_pos either]
    refine Or.inl ?_
    by_cases other : path1 = [] ∨ path2 ≠ [] ∧ path2.length < path1.length ∨
        path2 ≠ [] ∧ path1.head?.map Prod.snd = some invalidKey
    · rw [if_pos other]
      refine along _ path2 ?_ is2 (Or.inr rfl)
      rcases other with no1 | ⟨some2, _⟩ | ⟨some2, _⟩
      · exact either.resolve_left fun some1 => some1 no1
      · exact some2
      · exact some2
    · rw [if_neg other]
      exact along _ path1 (fun no1 => other (Or.inl no1)) is1 (Or.inl rfl)
  · rw [if_neg either]
    exact Or.inr rfl

/-- `Insert` never meets a misplaced pair, and adds its pair when it returns. -/
theorem Placed.insert (alloc : Nat → Bool) (fuel : Nat) {key : Key} (value : Value)
    (placed : t.Placed fHash sHash) (valid : key ≠ invalidKey) :
    t.insert fHash sHash alloc fuel key value ≠ .error .wrong ∧
    ∀ t', t.insert fHash sHash alloc fuel key value = .ok t' → t'.Placed fHash sHash ∧
      entries t'.table t'.capacity = ⟨key, some value⟩ ::ₘ entries t.table t.capacity := by
  induction fuel generalizing t with
  | zero => exact ⟨nofun, nofun⟩
  | succ fuel ih =>
    rcases placed.insert_succ alloc fuel value valid with ⟨u, returned, added⟩ | again
    · rw [returned]
      refine ⟨nofun, fun t' eq => ?_⟩
      obtain rfl : u = t' := Except.ok.inj eq
      exact ⟨added.placed, added.entries⟩
    · rw [again]
      obtain ⟨right, grown⟩ := grow_spec fHash sHash alloc t fuel kMaxGrows placed.pos
      cases resized : t.resize fHash sHash alloc fuel with
      | error stop => exact ⟨fun eq => right (Except.error.inj eq ▸ resized), nofun⟩
      | ok u =>
        obtain ⟨placed', _, _, same⟩ := grown u resized
        obtain ⟨right', rest⟩ := ih placed'
        exact ⟨right', fun t' eq => same ▸ rest t' eq⟩

theorem insertAll_spec (alloc : Nat → Bool) (fuel : Nat) (ops : List (Key × Value))
    (placed : t.Placed fHash sHash) (valid : ∀ op ∈ ops, op.1 ≠ invalidKey) :
    t.insertAll fHash sHash alloc fuel ops ≠ .error .wrong ∧
    ∀ t', t.insertAll fHash sHash alloc fuel ops = .ok t' → t'.Placed fHash sHash ∧
      entries t'.table t'.capacity = ↑(ops.map pairOf) + entries t.table t.capacity := by
  induction ops generalizing t with
  | nil =>
    refine ⟨nofun, fun t' eq => ?_⟩
    obtain rfl : t = t' := Except.ok.inj eq
    exact ⟨placed, (Multiset.zero_add _).symm⟩
  | cons op ops ih =>
    obtain ⟨right, added⟩ := placed.insert alloc fuel op.2 (valid op List.mem_cons_self)
    unfold insertAll
    dsimp only [bind, Except.bind]
    cases returned : t.insert fHash sHash alloc fuel op.1 op.2 with
    | error stop => exact ⟨fun eq => right (Except.error.inj eq ▸ returned), nofun⟩
    | ok u =>
      obtain ⟨placed', entries'⟩ := added u returned
      obtain ⟨right', rest⟩ := ih placed' fun op' mem => valid op' (List.mem_cons_of_mem op mem)
      refine ⟨right', fun t' eq => ?_⟩
      obtain ⟨placed'', entries''⟩ := rest t' eq
      refine ⟨placed'', ?_⟩
      rw [entries'', entries', List.map_cons, ← Multiset.cons_coe,
        Multiset.cons_add, Multiset.add_cons]
      rfl

theorem Placed.get_eq (placed : t.Placed fHash sHash) {key : Key} {value : Option Value}
    (valid : key ≠ invalidKey) (here : ∃ i, (t.table i).key = key)
    (every : ∀ i < t.capacity, (t.table i).key = key → (t.table i).value = value) :
    t.get fHash sHash key = value := by
  unfold get
  by_cases first : (t.table (t.fIdx fHash key)).key = key
  · rw [if_pos first]
    exact every _ (Nat.mod_lt _ placed.pos) first
  · rw [if_neg first]
    obtain ⟨i, eq⟩ := here
    have second : (t.table (t.sIdx sHash key)).key = key := by
      rcases placed.home i (fun free => valid (eq ▸ free)) with home | home
      · rw [eq] at home
        exact absurd (home ▸ eq) first
      · rw [eq] at home
        exact home ▸ eq
    rw [if_pos second]
    exact every _ (Nat.mod_lt _ placed.pos) second

theorem get_eq_none {key : Key} (absent : ∀ i < t.capacity, (t.table i).key ≠ key)
    (pos : 0 < t.capacity) :
    t.get fHash sHash key = some noneValue := by
  unfold get
  rw [if_neg (absent (t.fIdx fHash key) (Nat.mod_lt _ pos)),
    if_neg (absent (t.sIdx sHash key) (Nat.mod_lt _ pos))]

-- Calls end when no table of 2^32 cells can be had.

theorem rehash_ne_running {fuel : Nat} {i : BitVec 32} (placed : t.Placed fHash sHash)
    (small : old.capacity < 2 ^ 32) (le : i.toNat ≤ old.capacity)
    (enough : old.capacity < i.toNat + fuel) :
    old.rehash fHash sHash fuel i t ≠ .error .running := by
  induction fuel generalizing i t with
  | zero => omega
  | succ fuel ih =>
    unfold CuckooHash.rehash
    by_cases more : i.toNat < old.capacity
    · rw [if_pos more]
      have index : (i + 1).toNat = i.toNat + 1 := by
        rw [BitVec.toNat_add]
        exact Nat.mod_eq_of_lt (by change i.toNat + 1 < 2 ^ 32; omega)
      by_cases live : (old.table i.toNat).Live
      · rw [if_pos live]
        obtain ⟨r, done, added⟩ := placed.insert4resize live
        dsimp only [bind, Except.bind]
        rw [done]
        cases r with
        | none => nofun
        | some u => exact ih (added u rfl).placed (by omega) (by omega)
      · rw [if_neg live]
        exact ih placed (by omega) (by omega)
    · rw [if_neg more]
      nofun

theorem grow_ne_running (bounded : ∀ c, alloc c = true → c < 2 ^ 32) {fuel turns capacity : Nat}
    (pos : 0 < capacity) (le : old.capacity ≤ capacity) (enough : 2 ^ 32 ≤ fuel) :
    old.grow fHash sHash alloc fuel turns capacity ≠ .error .running := by
  induction turns generalizing capacity with
  | zero => nofun
  | succ turns ih =>
    unfold grow
    by_cases fits : alloc (resized capacity) = true
    · rw [if_pos fits]
      have larger := lt_resized pos
      have small := bounded _ fits
      have ends : old.rehash fHash sHash fuel 0 (new (resized capacity)) ≠ .error .running :=
        rehash_ne_running (placed_new fHash sHash (pos.trans larger)) (by omega) (Nat.zero_le _)
          (by change old.capacity < 0 + fuel; omega)
      dsimp only [bind, Except.bind]
      cases ended : old.rehash fHash sHash fuel 0 (new (resized capacity)) with
      | error stop => exact fun eq => ends (Except.error.inj eq ▸ ended)
      | ok r =>
        cases r with
        | none => exact ih (pos.trans larger) (le.trans larger.le)
        | some u => nofun
    · rw [if_neg fits]
      nofun

theorem Placed.insert_ne_running (placed : t.Placed fHash sHash)
    (bounded : ∀ c, alloc c = true → c < 2 ^ 32) {fuel : Nat} {key : Key} {value : Value}
    (valid : key ≠ invalidKey) (enough : 2 ^ 33 < fuel + min t.capacity (2 ^ 32)) :
    t.insert fHash sHash alloc fuel key value ≠ .error .running := by
  induction fuel generalizing t with
  | zero => omega
  | succ fuel ih =>
    rcases placed.insert_succ alloc fuel value valid with ⟨u, returned, _⟩ | again
    · rw [returned]
      nofun
    · rw [again]
      have ends : t.resize fHash sHash alloc fuel ≠ .error .running :=
        grow_ne_running bounded placed.pos le_rfl (by omega)
      obtain ⟨_, grown⟩ := grow_spec fHash sHash alloc t fuel kMaxGrows placed.pos
      cases resized : t.resize fHash sHash alloc fuel with
      | error stop => exact fun eq => ends (Except.error.inj eq ▸ resized)
      | ok u =>
        -- each resize makes the table larger, and there is no table of 2^32 cells
        obtain ⟨placed', larger, fits, _⟩ := grown u resized
        have small := bounded _ fits
        exact ih placed' (by omega)

theorem insertAll_ne_running (bounded : ∀ c, alloc c = true → c < 2 ^ 32) (ops : List (Key × Value))
    (placed : t.Placed fHash sHash) (valid : ∀ op ∈ ops, op.1 ≠ invalidKey) :
    t.insertAll fHash sHash alloc (2 ^ 33) ops ≠ .error .running := by
  induction ops generalizing t with
  | nil => nofun
  | cons op ops ih =>
    have valid' := valid op List.mem_cons_self
    have pos := placed.pos
    have ends : t.insert fHash sHash alloc (2 ^ 33) op.1 op.2 ≠ .error .running :=
      placed.insert_ne_running bounded valid' (by omega)
    obtain ⟨_, added⟩ := placed.insert alloc (2 ^ 33) op.2 valid'
    unfold insertAll
    dsimp only [bind, Except.bind]
    cases returned : t.insert fHash sHash alloc (2 ^ 33) op.1 op.2 with
    | error stop => exact fun eq => ends (Except.error.inj eq ▸ returned)
    | ok u => exact ih (added u returned).1 fun op' mem => valid op' (List.mem_cons_of_mem op mem)

/-- A path that `find_path` gives in any table has distinct cells, the last of them free. -/
theorem findPath_last {path : List (Nat × Key)} (found : t.findPath fHash sHash target = .ok path)
    (nonempty : path ≠ []) :
    (path.map Prod.fst).Nodup ∧ ∃ before last, path.map Prod.fst = before ++ [last] ∧
      (t.table last).key = invalidKey := by
  rcases findPath_cases fHash sHash t target with stuck | ⟨path', isPath, found'⟩ | ⟨wrong, _⟩
  · exact absurd (Except.ok.inj (found.symm.trans stuck)) nonempty
  · obtain rfl : path = path' := Except.ok.inj (found.symm.trans found')
    obtain ⟨before, last, eq, free⟩ := isPath.trail.last
    exact ⟨isPath.trail.nodup, before, last, eq, next_eq_none.mp free⟩
  · exact absurd (found.symm.trans wrong) nofun

end

/-- The store law. Whatever the two hash functions and the allocator do: no call meets a misplaced
pair; when the calls return, each inserted key is in one cell, which is one of its two positions,
`Get` gives its value, and no value for another key; every path found on the way has distinct cells
and a free one at its end. The calls return or a resize gives up when tables of 2^32 cells cannot be
had. -/
theorem insertAll_storeLaw (fHash sHash : Key → BitVec 64) (alloc : Nat → Bool) (capacity : Nat)
    (pos : 1 ≤ capacity) (ops : List (Key × Value)) (distinct : (ops.map Prod.fst).Nodup)
    (valid : ∀ op ∈ ops, op.1 ≠ invalidKey) :
    (∀ fuel, (new capacity).insertAll fHash sHash alloc fuel ops ≠ .error .wrong) ∧
    (∀ fuel t, (new capacity).insertAll fHash sHash alloc fuel ops = .ok t →
      (∀ op ∈ ops, (∃! i, i < t.capacity ∧ (t.table i).key = op.1) ∧
        (∀ i, (t.table i).key = op.1 → i = (fHash op.1).toNat % t.capacity ∨
          i = (sHash op.1).toNat % t.capacity) ∧
        t.get fHash sHash op.1 = some op.2) ∧
      ∀ key ∉ ops.map Prod.fst, key ≠ invalidKey → t.get fHash sHash key = some noneValue) ∧
    (∀ t target path, findPath fHash sHash t target = .ok path → path ≠ [] →
      (path.map Prod.fst).Nodup ∧
      ∃ before last, path.map Prod.fst = before ++ [last] ∧ (t.table last).key = invalidKey) ∧
    ((∀ c, alloc c = true → c < 2 ^ 32) → (new capacity).insertAll fHash sHash alloc (2 ^ 33) ops ≠
      .error .running) := by
  have placed := placed_new fHash sHash pos
  refine ⟨fun fuel => (insertAll_spec alloc fuel ops placed valid).1, fun fuel t returned => ?_,
    fun t target path => findPath_last,
    fun bounded => insertAll_ne_running bounded ops placed valid⟩
  obtain ⟨placed', stored⟩ := (insertAll_spec alloc fuel ops placed valid).2 t returned
  rw [entries_new, Multiset.add_zero] at stored
  refine ⟨fun op mem => ⟨existsUnique_cell stored distinct mem (valid op mem), fun i key => ?_, ?_⟩,
    fun key absent valid' => ?_⟩
  · have home := placed'.home i fun free => valid op mem (key ▸ free)
    rwa [key] at home
  · obtain ⟨i, _, eq⟩ := exists_cell stored mem
    exact placed'.get_eq (valid op mem) ⟨i, congrArg Pair.key eq⟩ fun j lt key =>
      congrArg Pair.value (cell_eq stored distinct mem (valid op mem) lt key)
  · refine get_eq_none (fun i lt eq => absent ?_) placed'.pos
    exact eq ▸ cell_mem stored lt fun free => valid' (eq ▸ free)

/-- Six keys in a table of four cells: the fifth resizes it, the sixth displaces the key 4. -/
theorem insertAll_storeLaw_six : ∃ t, (new 4).insertAll id (fun key => key / 2) (fun c => c < 64) 8
      [(0, 10), (1, 11), (4, 12), (3, 13), (5, 14), (9, 15)] = .ok t ∧ t.capacity = 8 ∧
    t.get id (fun key => key / 2) 4 = some 12 ∧
      t.get id (fun key => key / 2) 7 = some noneValue := by
  have capacity : ((new 4).insertAll id (fun key => key / 2) (fun c => c < 64) 8
      [(0, 10), (1, 11), (4, 12), (3, 13), (5, 14), (9, 15)]).toOption.map CuckooHash.capacity =
        some 8 := by decide +kernel
  have law := insertAll_storeLaw id (fun key => key / 2) (fun c => c < 64) 4 (by decide)
    [(0, 10), (1, 11), (4, 12), (3, 13), (5, 14), (9, 15)] (by decide) (by simp [invalidKey])
  cases returned : (new 4).insertAll id (fun key => key / 2) (fun c => c < 64) 8
      [(0, 10), (1, 11), (4, 12), (3, 13), (5, 14), (9, 15)] with
  | error stop =>
    rw [returned] at capacity
    cases capacity
  | ok t =>
    rw [returned] at capacity
    obtain ⟨present, absent⟩ := law.2.1 8 t returned
    exact ⟨t, rfl, Option.some_inj.mp capacity, (present (4, 12) (by decide)).2.2,
      absent 7 (by decide) (by decide)⟩

end CuckooHash

end Xcache
