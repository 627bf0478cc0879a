import Xcache.Store.Cells
import Xcache.Lib.LevelTree

/-! Path hashing (`server/src/path_hashing.cpp`), called by one thread at a time. A key has two
paths through the levels of a complete binary tree, of which the widest `reserved_levels` are
stored. -/

namespace Xcache

structure PathHashing where
  levels : Nat
  reservedLevels : Nat
  addrCapacity : Nat
  totalCapacity : Nat
  table : Nat → Pair

namespace PathHashing

/-- Why a call does not return: a cell outside the table, a power of two out of the range of the
integer it is converted to with so many levels, or more turns than are looked at. -/
inductive Stop
  | outside
  | range (levels : Nat)
  | running
  deriving DecidableEq

def node : Pair := ⟨invalidKey, some noneValue⟩

def new (levels reservedLevels : Nat) : PathHashing :=
  ⟨levels, reservedLevels, 2 ^ (levels - 1), 2 ^ levels - 2 ^ (levels - reservedLevels),
    fun _ => node⟩

/-- `(int)pow(2, n)`. -/
def intPow (t : PathHashing) (n : Nat) : Except Stop Nat :=
  if n < 31 then .ok (2 ^ n) else .error (.range t.levels)

/-- `capacity` in `Insert` and `resize`. -/
def insertCapacity (t : PathHashing) (i : Nat) : Except Stop Nat := do
  return (← t.intPow t.levels) - (← t.intPow (t.levels - i - 1))

/-- `capacity` in `Get`, where only the difference is converted. -/
def getCapacity (t : PathHashing) (i : Nat) : Except Stop Nat :=
  if 2 ^ t.levels - 2 ^ (t.levels - i - 1) < 2 ^ 31 then .ok (2 ^ t.levels - 2 ^ (t.levels - i - 1))
    else .error (.range t.levels)

/-- The loop over the levels in `Insert`, `Get` and `resize`, with the turns left: the first cell of
the two paths that passes the test. -/
def probe (t : PathHashing) (test : Pair → Bool) (capacity : Nat → Except Stop Nat) :
    Nat → Nat → Nat → Nat → Nat → Nat → Except Stop (Option Nat)
  | 0, _, _, _, _, _ => .ok none
  | turns + 1, i, subF, subS, f, s =>
    if f < t.totalCapacity then
      if test (t.table f) then .ok (some f)
      else if s < t.totalCapacity then
        if test (t.table s) then .ok (some s)
        else do
          let c ← capacity i
          probe t test capacity turns (i + 1) (subF / 2) (subS / 2) (subF / 2 + c) (subS / 2 + c)
      else .error .outside
    else .error .outside

section
-- `h` with `f_seed` and with `s_seed`
variable (fHash sHash : Key → BitVec 64)

def fIdx (t : PathHashing) (key : Key) : Nat := (fHash key).toNat % (t.addrCapacity / 2)

def sIdx (t : PathHashing) (key : Key) : Nat :=
  (sHash key).toNat % (t.addrCapacity / 2) + t.addrCapacity / 2

def search (t : PathHashing) (test : Pair → Bool) (capacity : Nat → Except Stop Nat) (key : Key) :
    Except Stop (Option Nat) :=
  t.probe test capacity t.reservedLevels 0 (t.fIdx fHash key) (t.sIdx sHash key) (t.fIdx fHash key)
    (t.sIdx sHash key)

/-- The cell where `Insert` and `resize` put a key. -/
def freeCell (t : PathHashing) (key : Key) : Except Stop (Option Nat) :=
  t.search fHash sHash (fun p => p.key = invalidKey) t.insertCapacity key

def store (t : PathHashing) (c : Nat) (p : Pair) : PathHashing :=
  { t with table := Function.update t.table c p }

/-- The loop of `resize` over the old cells from `i` on, with the turns left. The flags are the
values of `insertSuccess`, which nothing reads: a pair without a free cell is dropped. -/
def rehash (old : PathHashing) : Nat → Nat → PathHashing → List Bool × Except Stop PathHashing
  | 0, _, t => ([], .ok t)
  | turns + 1, i, t =>
    if (old.table i).Live then
      match t.freeCell fHash sHash (old.table i).key with
      | .error stop => ([], .error stop)
      | .ok (some c) => ((rehash old turns (i + 1) (t.store c (old.table i))).map (true :: ·) id)
      | .ok none => ((rehash old turns (i + 1) t).map (false :: ·) id)
    else rehash old turns (i + 1) t

def resize (t : PathHashing) : List Bool × Except Stop PathHashing :=
  let levels := t.levels + 1
  let addrCapacity := 2 ^ (levels - 1)
  let totalCapacity := 2 ^ levels - 2 ^ (levels - t.reservedLevels)
  if addrCapacity < 2 ^ 32 ∧ totalCapacity < 2 ^ 32 then
    t.rehash fHash sHash t.totalCapacity 0 ⟨levels, t.reservedLevels, addrCapacity, totalCapacity,
      fun _ => node⟩
  else ([], .error (.range levels))

/-- `Insert` with the turns to `RETRY` that are looked at. -/
def insert : Nat → PathHashing → Key → Value → List Bool × Except Stop PathHashing
  | 0, _, _, _ => ([], .error .running)
  | turns + 1, t, key, value =>
    match t.freeCell fHash sHash key with
    | .error stop => ([], .error stop)
    | .ok (some c) => ([], .ok (t.store c ⟨key, some value⟩))
    | .ok none =>
      match t.resize fHash sHash with
      | (flags, .error stop) => (flags, .error stop)
      | (flags, .ok u) => (insert turns u key value).map (flags ++ ·) id

def get (t : PathHashing) (key : Key) : Except Stop (Option Value) := do
  match ← t.search fHash sHash (fun p => p.key = key) t.getCapacity key with
  | some c => return (t.table c).value
  | none => return some noneValue

def insertAll (turns : Nat) : PathHashing → List (Key × Value) → List Bool × Except Stop PathHashing
  | t, [] => ([], .ok t)
  | t, op :: ops =>
    match t.insert fHash sHash turns op.1 op.2 with
    | (flags, .error stop) => (flags, .error stop)
    | (flags, .ok u) => (insertAll turns u ops).map (flags ++ ·) id

end

section
variable {fHash sHash : Key → BitVec 64} {t old : PathHashing} {key : Key} {i j k : Nat}

/-- The sizes of a table. -/
structure Sized (t : PathHashing) : Prop where
  two : 2 ≤ t.levels
  bound : t.levels ≤ 32
  one : 1 ≤ t.reservedLevels
  le : t.reservedLevels ≤ t.levels
  addr : t.addrCapacity = 2 ^ (t.levels - 1)
  total : t.totalCapacity = levelStart t.levels t.reservedLevels

theorem Sized.half (sized : t.Sized) : t.addrCapacity / 2 = 2 ^ (t.levels - 2) := by
  have two := sized.two
  rw [sized.addr, show t.levels - 1 = t.levels - 2 + 1 by omega, pow_succ,
    Nat.mul_div_cancel _ (by decide)]

theorem Sized.twice (sized : t.Sized) :
    2 ^ (t.levels - 1) = 2 ^ (t.levels - 2) + 2 ^ (t.levels - 2) := by
  have two := sized.two
  rw [← Nat.two_mul, ← pow_succ', show t.levels - 2 + 1 = t.levels - 1 by omega]

theorem Sized.fIdx_lt (sized : t.Sized) (fHash : Key → BitVec 64) (key : Key) :
    t.fIdx fHash key < 2 ^ (t.levels - 2) := by
  unfold fIdx
  rw [sized.half]
  exact Nat.mod_lt _ (by positivity)

theorem Sized.sIdx_ge (sized : t.Sized) (sHash : Key → BitVec 64) (key : Key) :
    2 ^ (t.levels - 2) ≤ t.sIdx sHash key := by
  unfold sIdx
  rw [sized.half]
  exact Nat.le_add_left _ _

theorem Sized.sIdx_lt (sized : t.Sized) (sHash : Key → BitVec 64) (key : Key) :
    t.sIdx sHash key < 2 ^ (t.levels - 1) := by
  unfold sIdx
  rw [sized.half, sized.twice]
  exact Nat.add_lt_add_right (Nat.mod_lt _ (by positivity)) _

theorem Sized.fIdx_lt_addr (sized : t.Sized) (fHash : Key → BitVec 64) (key : Key) :
    t.fIdx fHash key < 2 ^ (t.levels - 1) :=
  (sized.fIdx_lt fHash key).trans_le (Nat.pow_le_pow_right (by decide) (by omega))

def fCell (fHash : Key → BitVec 64) (t : PathHashing) (key : Key) (i : Nat) : Nat :=
  treeNode t.levels (t.fIdx fHash key) i

def sCell (sHash : Key → BitVec 64) (t : PathHashing) (key : Key) (i : Nat) : Nat :=
  treeNode t.levels (t.sIdx sHash key) i

/-- The cell is on one of the two paths of the key. -/
def On (fHash sHash : Key → BitVec 64) (t : PathHashing) (key : Key) (i c : Nat) : Prop :=
  c = t.fCell fHash key i ∨ c = t.sCell sHash key i

theorem Sized.treeNode_lt_total {x : Nat} (sized : t.Sized) (level : i < t.reservedLevels)
    (lt : x < 2 ^ (t.levels - 1)) :
    treeNode t.levels x i < t.totalCapacity := by
  have le := sized.le
  rw [sized.total]
  exact (treeNode_lt (by omega) lt).trans_le (levelStart_mono level)

theorem Sized.on_lt {c : Nat} (sized : t.Sized) (level : i < t.reservedLevels)
    (on : t.On fHash sHash key i c) :
    c < t.totalCapacity := by
  rcases on with rfl | rfl
  · exact sized.treeNode_lt_total level (sized.fIdx_lt_addr fHash key)
  · exact sized.treeNode_lt_total level (sized.sIdx_lt sHash key)

/-- The cells over two positions fail the test on the levels from `i` to `m`. -/
def Fails (t : PathHashing) (test : Pair → Bool) (x y i m : Nat) : Prop :=
  ∀ k, i ≤ k → k < m → test (t.table (treeNode t.levels x k)) = false ∧
    test (t.table (treeNode t.levels y k)) = false

/-- How the loop over the levels from `i` to `m` ends: at the first cell that passes the test, or
behind the last level, or where the capacity of the next level cannot be computed. -/
inductive Probed (t : PathHashing) (test : Pair → Bool) (capacity : Nat → Except Stop Nat)
    (x y i m : Nat) :
    Except Stop (Option Nat) → Prop
  | first (j : Nat) (ge : i ≤ j) (lt : j < m) (before : t.Fails test x y i j) (ok : ∀ k, i ≤ k →
    k < j → ∃ c, capacity k = .ok c)
      (hit : test (t.table (treeNode t.levels x j)) = true) :
        Probed t test capacity x y i m (.ok (some (treeNode t.levels x j)))
  | second (j : Nat) (ge : i ≤ j) (lt : j < m) (before : t.Fails test x y i j) (ok : ∀ k, i ≤ k →
    k < j → ∃ c, capacity k = .ok c)
      (miss : test (t.table (treeNode t.levels x j)) = false)
        (hit : test (t.table (treeNode t.levels y j)) = true) :
      Probed t test capacity x y i m (.ok (some (treeNode t.levels y j)))
  | behind (all : t.Fails test x y i m) : Probed t test capacity x y i m (.ok none)
  | stopped (j : Nat) (stop : Stop) (lt : j < m) (before : t.Fails test x y i (j + 1))
    (error : capacity j = .error stop) : Probed t test capacity x y i m (.error stop)

section
variable {test : Pair → Bool} {capacity : Nat → Except Stop Nat} {x y m : Nat}

theorem Fails.succ (first : test (t.table (treeNode t.levels x i)) = false)
    (second : test (t.table (treeNode t.levels y i)) = false) (later : t.Fails test x y (i + 1) m) :
    t.Fails test x y i m := by
  intro k ge lt
  rcases Nat.eq_or_lt_of_le ge with rfl | gt
  · exact ⟨first, second⟩
  · exact later k gt lt

theorem Probed.succ {r : Except Stop (Option Nat)}
    (first : test (t.table (treeNode t.levels x i)) = false)
    (second : test (t.table (treeNode t.levels y i)) = false) (ok : ∃ c, capacity i = .ok c)
    (probed : t.Probed test capacity x y (i + 1) m r) : t.Probed test capacity x y i m r := by
  have now : ∀ j, (∀ k, i + 1 ≤ k → k < j → ∃ c, capacity k = .ok c) → ∀ k, i ≤ k → k < j →
      ∃ c, capacity k = .ok c := by
    intro j later k ge lt
    rcases Nat.eq_or_lt_of_le ge with rfl | gt
    · exact ok
    · exact later k gt lt
  cases probed with
  | first j ge lt before ok hit =>
    exact .first j (by omega) lt (.succ first second before) (now j ok) hit
  | second j ge lt before ok miss hit =>
    exact .second j (by omega) lt (.succ first second before) (now j ok) miss hit
  | behind all => exact .behind (.succ first second all)
  | stopped j stop lt before error => exact .stopped j stop lt (.succ first second before) error

theorem treeNode_succ (height x i : Nat) :
    treeNode height x (i + 1) = x / 2 ^ i / 2 + levelStart height (i + 1) := by
  rw [treeNode, pow_succ, Nat.div_div_eq_div_mul]

theorem Sized.probed (sized : t.Sized) (test : Pair → Bool) (hx : x < 2 ^ (t.levels - 1))
    (hy : y < 2 ^ (t.levels - 1))
    (computed : ∀ i, capacity i = .ok (levelStart t.levels (i + 1)) ∨
      ∃ stop, capacity i = .error stop)
    (turns i : Nat) (le : i + turns ≤ t.reservedLevels) : t.Probed test capacity x y i (i + turns)
      (t.probe test capacity turns i (x / 2 ^ i) (y / 2 ^ i) (treeNode t.levels x i)
        (treeNode t.levels y i)) := by
  induction turns generalizing i with
  | zero => exact .behind fun k ge lt => by omega
  | succ turns ih =>
    unfold probe
    rw [if_pos (sized.treeNode_lt_total (by omega) hx),
      if_pos (sized.treeNode_lt_total (by omega) hy)]
    by_cases first : test (t.table (treeNode t.levels x i)) = true
    · rw [if_pos first]
      exact .first i le_rfl (by omega) (fun k ge lt => by omega) (fun k ge lt => by omega) first
    rw [if_neg first]
    have first := Bool.eq_false_of_not_eq_true first
    by_cases second : test (t.table (treeNode t.levels y i)) = true
    · rw [if_pos second]
      exact .second i le_rfl (by omega) (fun k ge lt => by omega) (fun k ge lt => by omega)
        first second
    rw [if_neg second]
    have second := Bool.eq_false_of_not_eq_true second
    dsimp only [bind, Except.bind]
    rcases computed i with ok | ⟨stop, error⟩
    · rw [ok]
      have step := ih (i + 1) (by omega)
      rw [treeNode_succ, treeNode_succ, pow_succ, ← Nat.div_div_eq_div_mul,
        ← Nat.div_div_eq_div_mul, Nat.add_right_comm] at step
      exact .succ first second ⟨_, ok⟩ step
    · rw [error]
      exact .stopped i stop (by omega) (.succ first second fun k ge lt => by omega) error

end

theorem Sized.searched {capacity : Nat → Except Stop Nat} (sized : t.Sized)
    (fHash sHash : Key → BitVec 64) (test : Pair → Bool)
    (computed : ∀ i, capacity i = .ok (levelStart t.levels (i + 1)) ∨
      ∃ stop, capacity i = .error stop)
    (key : Key) :
    t.Probed test capacity (t.fIdx fHash key) (t.sIdx sHash key) 0 t.reservedLevels
      (t.search fHash sHash test capacity key) := by
  have probed := sized.probed test (sized.fIdx_lt_addr fHash key) (sized.sIdx_lt sHash key) computed
    t.reservedLevels 0 (by omega)
  rwa [pow_zero, Nat.div_one, Nat.div_one, treeNode_zero, treeNode_zero, Nat.zero_add] at probed

theorem insertCapacity_cases (i : Nat) :
    t.levels < 31 ∧ t.insertCapacity i = .ok (levelStart t.levels (i + 1)) ∨
    31 ≤ t.levels ∧ t.insertCapacity i = .error (.range t.levels) := by
  unfold insertCapacity intPow
  by_cases small : t.levels < 31
  · rw [if_pos small, if_pos (by omega), Nat.sub_sub]
    exact Or.inl ⟨small, rfl⟩
  · rw [if_neg small]
    exact Or.inr ⟨not_lt.mp small, rfl⟩

theorem getCapacity_cases (i : Nat) : t.getCapacity i = .ok (levelStart t.levels (i + 1)) ∨
    31 < t.levels ∧ t.getCapacity i = .error (.range t.levels) := by
  unfold getCapacity
  by_cases small : 2 ^ t.levels - 2 ^ (t.levels - i - 1) < 2 ^ 31
  · rw [if_pos small, Nat.sub_sub]
    exact Or.inl rfl
  · rw [if_neg small]
    refine Or.inr ⟨?_, rfl⟩
    by_contra few
    have le : 2 ^ t.levels ≤ 2 ^ 31 := Nat.pow_le_pow_right (by decide) (not_lt.mp few)
    have pos : 0 < 2 ^ (t.levels - i - 1) := by positivity
    omega

/-- What `freeCell` finds: a free cell on the lowest level where there is one, the first path before
the second. -/
structure Free (fHash sHash : Key → BitVec 64) (t : PathHashing) (key : Key)
    (j c : Nat) : Prop where
  level : j < t.reservedLevels
  on : t.On fHash sHash key j c
  free : ¬ (t.table c).Live
  small : j = 0 ∨ t.levels < 31
  lowest : ∀ k < t.reservedLevels, ¬ (t.table (t.fCell fHash key k)).Live ∨
    ¬ (t.table (t.sCell sHash key k)).Live → j ≤ k
  first : ¬ (t.table (t.fCell fHash key j)).Live → c = t.fCell fHash key j

theorem Sized.freeCell_cases (sized : t.Sized) (key : Key) :
    (∃ j c, t.Free fHash sHash key j c ∧ t.freeCell fHash sHash key = .ok (some c)) ∨
    ((∀ k < t.reservedLevels, (t.table (t.fCell fHash key k)).Live ∧
      (t.table (t.sCell sHash key k)).Live) ∧
      t.freeCell fHash sHash key = .ok none) ∨
    31 ≤ t.levels ∧ t.freeCell fHash sHash key = .error (.range t.levels) := by
  have computed : ∀ i, t.insertCapacity i = .ok (levelStart t.levels (i + 1)) ∨
      ∃ stop, t.insertCapacity i = .error stop := fun i =>
    (insertCapacity_cases i).imp And.right fun large => ⟨_, large.2⟩
  have free : ∀ {p : Pair}, decide (p.key = invalidKey) = true → ¬ p.Live :=
    fun eq live => live (of_decide_eq_true eq)
  have used : ∀ {p : Pair}, decide (p.key = invalidKey) = false → p.Live := of_decide_eq_false
  -- a level that was passed was computed, and has no free cell
  have small : ∀ j, (∀ k, 0 ≤ k → k < j → ∃ c, t.insertCapacity k = .ok c) → j = 0 ∨
      t.levels < 31 := by
    intro j ok
    rcases Nat.eq_zero_or_pos j with zero | pos
    · exact Or.inl zero
    · obtain ⟨c, eq⟩ := ok 0 le_rfl pos
      rcases insertCapacity_cases (t := t) 0 with ⟨few, _⟩ | ⟨_, error⟩
      · exact Or.inr few
      · exact absurd (eq.symm.trans error) nofun
  have lowest : ∀ j, t.Fails (fun p => p.key = invalidKey) (t.fIdx fHash key) (t.sIdx sHash key) 0
    j → ∀ k < t.reservedLevels,
      ¬ (t.table (t.fCell fHash key k)).Live ∨ ¬ (t.table (t.sCell sHash key k)).Live → j ≤ k := by
    intro j before k _ here
    by_contra lt
    obtain ⟨first, second⟩ := before k (Nat.zero_le k) (not_le.mp lt)
    exact here.elim (fun no => no (used first)) fun no => no (used second)
  have probed := sized.searched fHash sHash (fun p => p.key = invalidKey) computed key
  unfold freeCell
  generalize t.search fHash sHash (fun p => decide (p.key = invalidKey)) t.insertCapacity key = r
    at probed ⊢
  cases probed with
  | first j _ lt before ok hit =>
    exact Or.inl ⟨j, _, ⟨lt, Or.inl rfl, free hit, small j ok, lowest j before, fun _ => rfl⟩, rfl⟩
  | second j _ lt before ok miss hit =>
    exact Or.inl ⟨j, _, ⟨lt, Or.inr rfl, free hit, small j ok, lowest j before,
      fun no => absurd (used miss) no⟩, rfl⟩
  | behind all => exact Or.inr (Or.inl ⟨fun k lt => (all k (Nat.zero_le k) lt).imp used used, rfl⟩)
  | stopped j stop _ _ error =>
    rcases insertCapacity_cases (t := t) j with ⟨_, ok⟩ | ⟨large, error'⟩
    · exact absurd (ok.symm.trans error) nofun
    · obtain rfl : stop = .range t.levels := Except.error.inj (error.symm.trans error')
      exact Or.inr (Or.inr ⟨large, rfl⟩)

/-- The table has the pairs of a log, each on one of its paths. -/
structure Good (fHash sHash : Key → BitVec 64) (t : PathHashing) (log : Multiset Pair) : Prop where
  sized : t.Sized
  path : ∀ c, (t.table c).Live → ∃ i < t.reservedLevels, t.On fHash sHash (t.table c).key i c ∧
    (i = 0 ∨ t.levels < 31)
  entries : entries t.table t.totalCapacity = log

theorem Free.entries {c : Nat} {p : Pair} (free : t.Free fHash sHash key j c) (sized : t.Sized)
    (live : p.Live) :
    entries (t.store c p).table (t.store c p).totalCapacity =
      p ::ₘ entries t.table t.totalCapacity :=
  entries_update (sized.on_lt free.level free.on) live free.free

theorem Sized.store {c : Nat} {p : Pair} (sized : t.Sized) : (t.store c p).Sized :=
  ⟨sized.two, sized.bound, sized.one, sized.le, sized.addr, sized.total⟩

theorem Good.store {log : Multiset Pair} {c : Nat} {p : Pair} (good : t.Good fHash sHash log)
    (free : t.Free fHash sHash p.key j c) (live : p.Live) :
    (t.store c p).Good fHash sHash (p ::ₘ log) := by
  refine ⟨good.sized.store, ?_, ?_⟩
  · intro d live'
    by_cases here : d = c
    · subst here
      change ((Function.update t.table d p) d).Live at live'
      refine ⟨j, free.level, ?_, free.small⟩
      change t.On fHash sHash (Function.update t.table d p d).key j d
      rw [Function.update_self]
      exact free.on
    · change (Function.update t.table c p d).Live at live'
      change ∃ i < t.reservedLevels, t.On fHash sHash (Function.update t.table c p d).key i d ∧
        (i = 0 ∨ t.levels < 31)
      rw [Function.update_of_ne here] at live' ⊢
      exact good.path d live'
  · rw [free.entries good.sized live, good.entries]

/-- Where the pairs of a table of one more level come from while the cells of the old one below `n`
have been moved: a pair is on a level not above its old one, and when it stays on its level and was
on its first path, it still is. -/
structure Moved (fHash sHash : Key → BitVec 64) (old : PathHashing) (n : Nat)
    (t : PathHashing) : Prop where
  sized : t.Sized
  levels : t.levels = old.levels + 1
  reserved : t.reservedLevels = old.reservedLevels
  origin : ∀ x, (t.table x).Live → ∃ c < n, old.table c = t.table x ∧ ∃ j k, j ≤ k ∧
    k < old.reservedLevels ∧
    t.On fHash sHash (t.table x).key j x ∧ old.On fHash sHash (t.table x).key k c ∧
    (j = k → c = old.fCell fHash (t.table x).key k → x = t.fCell fHash (t.table x).key j) ∧
      (j = 0 ∨ t.levels < 31)
  entries : entries t.table t.totalCapacity = entries old.table n

-- The paths of a key in a table and in the one with one more level.

section
variable {key' : Key} (sized : t.Sized) (sizedOld : old.Sized) (levels : t.levels = old.levels + 1)
include sized sizedOld levels

theorem fIdx_old (fHash : Key → BitVec 64) (key : Key) :
    old.fIdx fHash key = t.fIdx fHash key % 2 ^ (old.levels - 2) := by
  unfold fIdx
  rw [sizedOld.half, sized.half]
  exact (Nat.mod_mod_of_dvd _ (Nat.pow_dvd_pow 2 (by omega))).symm

theorem sIdx_old (sHash : Key → BitVec 64) (key : Key) :
    old.sIdx sHash key = t.sIdx sHash key % 2 ^ (old.levels - 2) + 2 ^ (old.levels - 2) := by
  have dvd : 2 ^ (old.levels - 2) ∣ 2 ^ (t.levels - 2) := Nat.pow_dvd_pow 2 (by omega)
  unfold sIdx
  rw [sizedOld.half, sized.half, Nat.add_mod, Nat.mod_mod_of_dvd _ dvd, Nat.mod_eq_zero_of_dvd dvd,
    Nat.add_zero, Nat.mod_mod]

theorem fCell_old (level : i < old.levels) (eq : t.fCell fHash key i = t.fCell fHash key' i) :
    old.fCell fHash key i = old.fCell fHash key' i := by
  have above :=
    (treeNode_inj (by omega) (by omega) (sized.fIdx_lt_addr fHash key)
      (sized.fIdx_lt_addr fHash key') eq).2
  unfold fCell treeNode
  rw [fIdx_old sized sizedOld levels, fIdx_old sized sizedOld levels, mod_div_of_div_eq _ above]

theorem sCell_old (level : i < old.levels) (eq : t.sCell sHash key i = t.sCell sHash key' i) :
    old.sCell sHash key i = old.sCell sHash key' i := by
  have above :=
    (treeNode_inj (by omega) (by omega) (sized.sIdx_lt sHash key) (sized.sIdx_lt sHash key') eq).2
  unfold sCell treeNode
  rw [sIdx_old sized sizedOld levels, sIdx_old sized sizedOld levels,
    add_div_of_div_eq (Nat.mod_lt _ (by positivity))
    (Nat.mod_lt _ (by positivity)) (mod_div_of_div_eq _ above)]

omit sizedOld in
theorem fCell_ne_sCell (level : i < old.levels) : t.fCell fHash key i ≠ t.sCell sHash key' i :=
  treeNode_ne (by omega) (sized.fIdx_lt fHash key) (sized.sIdx_ge sHash key')

end

theorem Sized.fCell_le_sCell (sized : t.Sized) (key key' : Key) :
    t.fCell fHash key i ≤ t.sCell sHash key' i :=
  treeNode_mono ((sized.fIdx_lt fHash key).le.trans (sized.sIdx_ge sHash key'))

theorem Sized.on_level {c d : Nat} {key' : Key} (sized : t.Sized) (level : j < t.levels)
    (on : t.On fHash sHash key i c) (on' : t.On fHash sHash key' j d) (le : c ≤ d) : i ≤ j := by
  have node : ∃ y < 2 ^ (t.levels - 1), d = treeNode t.levels y j := by
    rcases on' with eq | eq
    · exact ⟨_, sized.fIdx_lt_addr fHash key', eq⟩
    · exact ⟨_, sized.sIdx_lt sHash key', eq⟩
  obtain ⟨y, lt, rfl⟩ := node
  rcases on with rfl | rfl
  · exact level_le_of_treeNode_le level lt le
  · exact level_le_of_treeNode_le level lt le

section
variable {c n : Nat} {log : Multiset Pair}

/-- A pair that is met on the level `k` of the new table when the cell `c` of level `k` is moved was
on that level too. -/
theorem Moved.same_level {x : Nat} (moved : Moved fHash sHash old c t) (sizedOld : old.Sized)
    (level : k < old.reservedLevels) (on : old.On fHash sHash key k c)
    (on' : t.On fHash sHash key k x) (live : (t.table x).Live) :
    ∃ key' c', c' < c ∧ t.On fHash sHash key' k x ∧ old.On fHash sHash key' k c' ∧
      (c' = old.fCell fHash key' k → x = t.fCell fHash key' k) := by
  obtain ⟨c', lt, _, j, k', le, level', onX, onC, side, _⟩ := moved.origin x live
  have bound := sizedOld.le
  have levels := moved.levels
  have first : k ≤ j := moved.sized.on_level (by omega) on' onX le_rfl
  have second : k' ≤ k := sizedOld.on_level (by omega) onC on lt.le
  obtain rfl : j = k := by omega
  obtain rfl : k' = j := by omega
  exact ⟨_, c', lt, onX, onC, side rfl⟩

/-- When the cells are moved in order, the cell of the new table on the same level and path is
free. -/
theorem Moved.free (moved : Moved fHash sHash old c t) (sizedOld : old.Sized)
    (level : k < old.reservedLevels) (key : Key) :
    (c = old.fCell fHash key k → ¬ (t.table (t.fCell fHash key k)).Live) ∧
    (c = old.sCell sHash key k → ¬ (t.table (t.sCell sHash key k)).Live) := by
  have bound : k < old.levels := level.trans_le sizedOld.le
  refine ⟨fun eq live => ?_, fun eq live => ?_⟩
  · obtain ⟨key', c', lt, onX, onC, _⟩ :=
      moved.same_level sizedOld level (Or.inl eq) (Or.inl rfl) live
    have same := fCell_old moved.sized sizedOld moved.levels bound
      (onX.resolve_right (fCell_ne_sCell moved.sized moved.levels bound))
    -- what was left of `c` on this level was on its second path, and so right of it
    rcases onC with eq' | eq'
    · rw [eq', eq, same] at lt
      exact lt.false
    · have le : old.fCell fHash key k ≤ old.sCell sHash key' k := sizedOld.fCell_le_sCell key key'
      omega
  · obtain ⟨key', c', lt, onX, onC, side⟩ :=
      moved.same_level sizedOld level (Or.inr eq) (Or.inr rfl) live
    have away : t.sCell sHash key k ≠ t.fCell fHash key' k :=
      (fCell_ne_sCell moved.sized moved.levels bound).symm
    have same := sCell_old moved.sized sizedOld moved.levels bound (onX.resolve_left away)
    rcases onC with eq' | eq'
    · exact away (side eq')
    · rw [eq', eq, same] at lt
      exact lt.false

/-- One old pair finds a free cell, on a level not above its own. -/
theorem Moved.step (moved : Moved fHash sHash old c t) (good : old.Good fHash sHash log)
    (live : (old.table c).Live) :
    (∃ d, t.freeCell fHash sHash (old.table c).key = .ok (some d) ∧
      Moved fHash sHash old (c + 1) (t.store d (old.table c))) ∨
    31 ≤ t.levels ∧ t.freeCell fHash sHash (old.table c).key = .error (.range t.levels) := by
  obtain ⟨k, level, on, _⟩ := good.path c live
  have free := moved.free good.sized level (old.table c).key
  have either := on.imp free.1 free.2
  have level' : k < t.reservedLevels := moved.reserved ▸ level
  rcases moved.sized.freeCell_cases (old.table c).key with ⟨j, d, found, eq⟩ | ⟨all, _⟩ | large
  · refine Or.inl ⟨d, eq, moved.sized.store, moved.levels, moved.reserved, fun x live' => ?_, ?_⟩
    · change (Function.update t.table d (old.table c) x).Live at live'
      change ∃ c' < c + 1, old.table c' = Function.update t.table d (old.table c) x ∧ ∃ j k, j ≤ k ∧
        k < old.reservedLevels ∧
        t.On fHash sHash (Function.update t.table d (old.table c) x).key j x ∧
        old.On fHash sHash (Function.update t.table d (old.table c) x).key k c' ∧
        (j = k → c' = old.fCell fHash (Function.update t.table d (old.table c) x).key k →
          x = t.fCell fHash (Function.update t.table d (old.table c) x).key j) ∧
            (j = 0 ∨ t.levels < 31)
      by_cases here : x = d
      · rw [here, Function.update_self]
        refine ⟨c, Nat.lt_succ_self c, rfl, j, k, found.lowest k level' either, level, found.on, on,
          fun same first => ?_, found.small⟩
        exact found.first (same ▸ free.1 first)
      · rw [Function.update_of_ne here] at live' ⊢
        obtain ⟨c', lt, rest⟩ := moved.origin x live'
        exact ⟨c', lt.trans (Nat.lt_succ_self c), rest⟩
    · rw [found.entries moved.sized live, moved.entries, entries_succ_live live]
  · exact absurd either (by rw [not_or, not_not, not_not]; exact all k level')
  · exact Or.inr large

theorem Moved.skip (moved : Moved fHash sHash old c t) (free : ¬ (old.table c).Live) :
    Moved fHash sHash old (c + 1) t := by
  refine ⟨moved.sized, moved.levels, moved.reserved, fun x live => ?_, ?_⟩
  · obtain ⟨c', lt, rest⟩ := moved.origin x live
    exact ⟨c', lt.trans (Nat.lt_succ_self c), rest⟩
  · rw [moved.entries, entries_succ_free free]

/-- The results of calls with the flags of their resizes: all flags are 1, and either a table comes
out or a table of at least 31 levels was too large for the conversions. -/
def Ends (r : List Bool × Except Stop PathHashing) (P : PathHashing → Prop) : Prop :=
  (∀ flag ∈ r.1, flag = true) ∧ ((∃ t, r.2 = .ok t ∧ P t) ∨ ∃ levels, 31 ≤ levels ∧
    r.2 = .error (.range levels))

theorem Moved.rehash (good : old.Good fHash sHash log) (turns : Nat)
    (moved : Moved fHash sHash old c t) :
    Ends (old.rehash fHash sHash turns c t) (Moved fHash sHash old (c + turns)) := by
  induction turns generalizing c t with
  | zero => exact ⟨nofun, Or.inl ⟨t, rfl, moved⟩⟩
  | succ turns ih =>
    unfold PathHashing.rehash
    by_cases live : (old.table c).Live
    · rw [if_pos live]
      rcases moved.step good live with ⟨d, eq, moved'⟩ | ⟨large, eq⟩
      · rw [eq]
        obtain ⟨flags, rest⟩ := ih moved'
        rw [Nat.add_right_comm] at rest
        refine ⟨fun flag mem => ?_, rest⟩
        rcases List.mem_cons.mp mem with rfl | mem
        · rfl
        · exact flags flag mem
      · rw [eq]
        exact ⟨nofun, Or.inr ⟨_, large, rfl⟩⟩
    · rw [if_neg live]
      have rest := ih (moved.skip live)
      rwa [Nat.add_right_comm] at rest

theorem Good.resize (good : t.Good fHash sHash log) :
    Ends (t.resize fHash sHash) fun t' => t'.Good fHash sHash log ∧ t'.levels = t.levels + 1 := by
  unfold PathHashing.resize
  have sized := good.sized
  have two := sized.two
  have le := sized.le
  have free : ¬ node.Live := fun live => live rfl
  by_cases fits : 2 ^ (t.levels + 1 - 1) < 2 ^ 32 ∧
    2 ^ (t.levels + 1) - 2 ^ (t.levels + 1 - t.reservedLevels) < 2 ^ 32
  · rw [if_pos fits]
    have bound : t.levels < 32 := (Nat.pow_lt_pow_iff_right (by decide)).mp fits.1
    have start : Moved fHash sHash t 0 ⟨t.levels + 1, t.reservedLevels, 2 ^ (t.levels + 1 - 1),
        2 ^ (t.levels + 1) - 2 ^ (t.levels + 1 - t.reservedLevels), fun _ => node⟩ := by
      refine ⟨⟨?_, ?_, sized.one, ?_, rfl, rfl⟩, rfl, rfl, fun x live => absurd live free, ?_⟩
      · exact two.trans (Nat.le_succ _)
      · exact bound
      · exact le.trans (Nat.le_succ _)
      · rw [entries_of_free fun _ _ => free]
        exact (entries_of_free fun i lt => absurd lt (Nat.not_lt_zero i)).symm
    obtain ⟨flags, ⟨t', eq, moved⟩ | large⟩ := start.rehash good t.totalCapacity
    · rw [Nat.zero_add] at moved
      refine ⟨flags, Or.inl ⟨t', eq, ⟨moved.sized, fun c live => ?_, ?_⟩, moved.levels⟩⟩
      · obtain ⟨_, _, _, j, k, le, level, on, _, _, small⟩ := moved.origin c live
        exact ⟨j, moved.reserved ▸ le.trans_lt level, on, small⟩
      · rw [moved.entries, good.entries]
    · exact ⟨flags, Or.inr large⟩
  · rw [if_neg fits]
    refine ⟨nofun, Or.inr ⟨_, ?_, rfl⟩⟩
    by_contra few
    have small : 2 ^ (t.levels + 1) < 2 ^ 32 := Nat.pow_lt_pow_right (by decide) (by omega)
    have half : 2 ^ (t.levels + 1 - 1) ≤ 2 ^ (t.levels + 1) :=
      Nat.pow_le_pow_right (by decide) (Nat.sub_le _ _)
    exact fits ⟨half.trans_lt small, (Nat.sub_le _ _).trans_lt small⟩

theorem Ends.cons {r r' : List Bool × Except Stop PathHashing} {P : PathHashing → Prop}
    (flags : ∀ flag ∈ r.1, flag = true) (ends : Ends r' P) : Ends (r'.map (r.1 ++ ·) id) P := by
  refine ⟨fun flag mem => ?_, ends.2⟩
  rcases List.mem_append.mp mem with mem | mem
  · exact flags flag mem
  · exact ends.1 flag mem

/-- `Insert` adds its pair, after at most as many resizes as there are levels up to 32. -/
theorem Good.insert (value : Value) (turns : Nat) (good : t.Good fHash sHash log)
    (valid : key ≠ invalidKey) (enough : 33 ≤ t.levels + turns) :
    Ends (t.insert fHash sHash turns key value) fun t' =>
      t'.Good fHash sHash (⟨key, some value⟩ ::ₘ log) ∧ t.levels ≤ t'.levels := by
  induction turns generalizing t with
  | zero => exact absurd good.sized.bound (by omega)
  | succ turns ih =>
    unfold PathHashing.insert
    rcases good.sized.freeCell_cases key with ⟨j, c, found, eq⟩ | ⟨_, eq⟩ | ⟨large, eq⟩
    · rw [eq]
      exact ⟨nofun, Or.inl ⟨_, rfl, good.store found valid, le_rfl⟩⟩
    · rw [eq]
      obtain ⟨flags, ended⟩ := good.resize
      cases resized : t.resize fHash sHash with
      | mk list result =>
        rw [resized] at flags ended
        rcases ended with ⟨u, ok, good', levels⟩ | ⟨levels, large, error⟩
        · obtain rfl : result = .ok u := ok
          obtain ⟨flags', rest⟩ := ih good' (by omega)
          refine Ends.cons (r := (list, .ok u)) flags ⟨flags', rest.imp_left ?_⟩
          rintro ⟨t', ok', good'', more⟩
          exact ⟨t', ok', good'', by omega⟩
        · obtain rfl : result = .error (.range levels) := error
          exact ⟨flags, Or.inr ⟨levels, large, rfl⟩⟩
    · rw [eq]
      exact ⟨nofun, Or.inr ⟨_, large, rfl⟩⟩

theorem Good.insertAll (turns : Nat) (ops : List (Key × Value)) (good : t.Good fHash sHash log)
    (valid : ∀ op ∈ ops, op.1 ≠ invalidKey) (enough : 33 ≤ t.levels + turns) :
    Ends (t.insertAll fHash sHash turns ops) fun t' =>
      t'.Good fHash sHash (↑(ops.map pairOf) + log) := by
  induction ops generalizing t log with
  | nil => exact ⟨nofun, Or.inl ⟨t, rfl, by rwa [List.map_nil,
    Multiset.coe_nil, Multiset.zero_add]⟩⟩
  | cons op ops ih =>
    unfold PathHashing.insertAll
    obtain ⟨flags, ended⟩ := good.insert op.2 turns (valid op List.mem_cons_self) enough
    cases inserted : t.insert fHash sHash turns op.1 op.2 with
    | mk list result =>
      rw [inserted] at flags ended
      rcases ended with ⟨u, ok, good', more⟩ | ⟨levels, large, error⟩
      · obtain rfl : result = .ok u := ok
        have rest := ih good' (fun op' mem => valid op' (List.mem_cons_of_mem op mem)) (by omega)
        rw [Multiset.add_cons] at rest
        rw [List.map_cons, ← Multiset.cons_coe, Multiset.cons_add]
        exact Ends.cons (r := (list, .ok u)) flags rest
      · obtain rfl : result = .error (.range levels) := error
        exact ⟨flags, Or.inr ⟨levels, large, rfl⟩⟩

theorem good_new {levels reservedLevels : Nat} (two : 2 ≤ levels) (below : levels < 31)
    (one : 1 ≤ reservedLevels) (le : reservedLevels ≤ levels) :
    (new levels reservedLevels).Good fHash sHash 0 :=
  ⟨⟨two, by change levels ≤ 32; omega, one, le, rfl, rfl⟩, fun _ live => absurd rfl live,
    entries_of_free fun _ _ live => live rfl⟩

theorem getCapacity_computed (i : Nat) :
    t.getCapacity i = .ok (levelStart t.levels (i + 1)) ∨ ∃ stop, t.getCapacity i = .error stop :=
  (getCapacity_cases i).imp_right fun large => ⟨_, large.2⟩

theorem Sized.get_ne_outside (sized : t.Sized) (key : Key) :
    t.get fHash sHash key ≠ .error .outside := by
  have probed := sized.searched fHash sHash (fun p => p.key = key) getCapacity_computed key
  unfold get
  dsimp only [bind, Except.bind]
  generalize t.search fHash sHash (fun p => decide (p.key = key)) t.getCapacity key = r at probed ⊢
  cases probed with
  | first | second | behind => nofun
  | stopped j stop _ _ error =>
    rcases getCapacity_cases (t := t) j with ok | ⟨_, error'⟩
    · exact absurd (ok.symm.trans error) nofun
    · obtain rfl : stop = .range t.levels := Except.error.inj (error.symm.trans error')
      nofun

theorem Good.get {c : Nat} {value : Option Value} (good : t.Good fHash sHash log)
    (valid : key ≠ invalidKey) (here : (t.table c).key = key)
    (every : ∀ d < t.totalCapacity, (t.table d).key = key → (t.table d).value = value) :
    t.get fHash sHash key = .ok value := by
  obtain ⟨i, level, on, small⟩ := good.path c fun free => valid (here ▸ free)
  rw [here] at on
  -- the loop does not get beyond the level of that cell
  have stays : ∀ m, t.Fails (fun p => p.key = key) (t.fIdx fHash key) (t.sIdx sHash key) 0 m →
      m ≤ i := by
    intro m fails
    by_contra more
    obtain ⟨first, second⟩ := fails i (Nat.zero_le i) (not_le.mp more)
    rcases on with rfl | rfl
    · exact of_decide_eq_false first here
    · exact of_decide_eq_false second here
  have probed := good.sized.searched fHash sHash (fun p => p.key = key) getCapacity_computed key
  unfold PathHashing.get
  dsimp only [bind, Except.bind]
  generalize t.search fHash sHash (fun p => decide (p.key = key)) t.getCapacity key = r at probed ⊢
  cases probed with
  | first j _ lt _ _ hit =>
    exact congrArg Except.ok (every _ (good.sized.treeNode_lt_total lt
      (good.sized.fIdx_lt_addr fHash key)) (of_decide_eq_true hit))
  | second j _ lt _ _ _ hit =>
    exact congrArg Except.ok (every _ (good.sized.treeNode_lt_total lt
      (good.sized.sIdx_lt sHash key)) (of_decide_eq_true hit))
  | behind all => exact absurd (stays _ all) (not_le.mpr level)
  | stopped j stop _ before error =>
    have lower := stays _ before
    rcases getCapacity_cases (t := t) j with ok | ⟨large, _⟩
    · exact absurd (ok.symm.trans error) nofun
    · omega

end

end

/-- No pair is lost. For all two hash functions, levels and distinct keys: all cells that are looked
at are in the table, every pair finds a free cell in every resize, and `Get` gives the values of all
keys. The calls return as long as the table has fewer than 31 levels; with more the powers of two
are out of the range of an `int`. -/
theorem insertAll_keeps_pairs (fHash sHash : Key → BitVec 64) (levels reservedLevels : Nat)
    (two : 2 ≤ levels) (below : levels < 31) (one : 1 ≤ reservedLevels)
    (le : reservedLevels ≤ levels) (ops : List (Key × Value)) (distinct : (ops.map Prod.fst).Nodup)
    (valid : ∀ op ∈ ops, op.1 ≠ invalidKey) (turns : Nat) (enough : 31 ≤ turns) :
    (∀ flag ∈ ((new levels reservedLevels).insertAll fHash sHash turns ops).1, flag = true) ∧
    ((∃ t, ((new levels reservedLevels).insertAll fHash sHash turns ops).2 = .ok t ∧
        (∀ op ∈ ops, t.get fHash sHash op.1 = .ok (some op.2)) ∧
          ∀ key, t.get fHash sHash key ≠ .error .outside) ∨
      ∃ l, 31 ≤ l ∧ ((new levels reservedLevels).insertAll fHash sHash turns ops).2 =
        .error (.range l)) := by
  have good : (new levels reservedLevels).Good fHash sHash 0 := good_new two below one le
  obtain ⟨flags, ended⟩ := good.insertAll turns ops valid (by change 33 ≤ levels + turns; omega)
  refine ⟨flags, ended.imp_left ?_⟩
  rintro ⟨t, returned, good'⟩
  have stored := good'.entries
  rw [Multiset.add_zero] at stored
  refine ⟨t, returned, fun op mem => ?_, good'.sized.get_ne_outside⟩
  obtain ⟨c, _, eq⟩ := exists_cell stored mem
  exact good'.get (valid op mem) (congrArg Pair.key eq) fun d lt key =>
    congrArg Pair.value (cell_eq stored distinct mem (valid op mem) lt key)

/-- The third key resizes the smallest table. -/
theorem insertAll_keeps_pairs_three :
    ((new 2 1).insertAll id id 31 [(0, 10), (1, 11), (2, 12)]).1 = [true, true] ∧
    ∃ t, ((new 2 1).insertAll id id 31 [(0, 10), (1, 11), (2, 12)]).2 = .ok t ∧ t.levels = 3 ∧
      t.get id id 1 = .ok (some 11) := by
  have levels : ((new 2 1).insertAll id id 31 [(0, 10), (1, 11), (2, 12)]).2.toOption.map
      PathHashing.levels = some 3 := by
    decide +kernel
  refine ⟨by decide +kernel, ?_⟩
  obtain ⟨_, ⟨t, returned, present, _⟩ | ⟨l, _, error⟩⟩ :=
    insertAll_keeps_pairs id id 2 1 (by decide) (by decide) (by decide) (by decide)
    [(0, 10), (1, 11), (2, 12)] (by decide) (by simp [invalidKey]) 31 (by decide)
  · rw [returned] at levels
    exact ⟨t, returned, Option.some_inj.mp levels, present (1, 11) (by decide)⟩
  · rw [error] at levels
    cases levels

end PathHashing

end Xcache
