import Xcache.CCEH.Invariant
import Xcache.CCEH.Split

/-! `CCEH::Recovery` (`server/src/cceh.cpp`) after a crash between the directory stores of a
split. -/

namespace Xcache.CCEH
open Blocks (top writeAll writeAll_apply halved Owned)

section
variable (level : Nat → Nat)

def recoverEntry (i depthCur : Nat) (entries : Nat → Nat) (j : Nat) : Nat → Nat :=
  if level (entries j) ≠ depthCur then Function.update entries j (entries i) else entries

/-- The loop from `buddy - 1` down to the entry after `i`. -/
def recoverBlock (i stride depthCur : Nat) (entries : Nat → Nat) : Nat → Nat :=
  (List.range' (i + 1) (stride - 1)).reverse.foldl (recoverEntry level i depthCur) entries

/-- The outer loop; the last block ends it. -/
def recoveryLoop (depth capacity : Nat) : Nat → Nat → (Nat → Nat) → Option (Nat → Nat)
  | 0, _, _ => none
  | fuel + 1, i, entries =>
    if i < capacity then
      if i + 2 ^ (depth - level (entries i)) = capacity then some entries
      else recoveryLoop depth capacity fuel (i + 2 ^ (depth - level (entries i)))
        (recoverBlock level i (2 ^ (depth - level (entries i))) (level (entries i)) entries)
    else some entries

end

/-- `Recovery` never sets the flag it returns. Every round goes on by an entry at least, so that the
capacity bounds their number. -/
def Table.recovery (t : Table) : Option (Bool × Table) :=
  (recoveryLoop (fun a => (t.segs a).localDepth) t.cur.depth t.cur.capacity (t.cur.capacity + 1)
    0 t.cur.entries).map fun entries => (false, t.setDir t.dir { t.cur with entries })

section
variable {level : Nat → Nat}

theorem foldl_recoverEntry (i depthCur : Nat) {l : List Nat} (distinct : l.Nodup) (away : i ∉ l)
    (entries : Nat → Nat) (j : Nat) : l.foldl (recoverEntry level i depthCur) entries j =
      if j ∈ l ∧ level (entries j) ≠ depthCur then entries i else entries j := by
  induction l generalizing entries with
  | nil => simp
  | cons j' l ih =>
    obtain ⟨fresh, distinct⟩ := List.nodup_cons.mp distinct
    have other : i ≠ j' := fun eq => away (eq ▸ List.mem_cons_self ..)
    rw [List.foldl_cons, ih distinct (fun mem => away (List.mem_cons_of_mem _ mem))]
    unfold recoverEntry
    by_cases wrong : level (entries j') ≠ depthCur
    · rw [if_pos wrong, Function.update_of_ne other]
      by_cases here : j = j'
      · subst here
        simp [fresh, wrong]
      · simp [here]
    · rw [if_neg wrong]
      by_cases here : j = j'
      · subst here
        simp [fresh, wrong]
      · simp [here]

theorem recoverBlock_apply (i stride depthCur : Nat) (entries : Nat → Nat) (j : Nat) :
    recoverBlock level i stride depthCur entries j =
      if (i < j ∧ j < i + stride) ∧ level (entries j) ≠ depthCur then entries i else entries j := by
  have inside : j ∈ (List.range' (i + 1) (stride - 1)).reverse ↔ i < j ∧ j < i + stride := by
    rw [List.mem_reverse, List.mem_range'_1]
    omega
  rw [recoverBlock, foldl_recoverEntry i depthCur (List.nodup_reverse.mpr List.nodup_range')
    (by simp) entries j]
  simp only [inside]

/-- Entries that can be mended: the first entry of every block is right, and a wrong entry shows by
its level. -/
structure Mendable (depth : Nat) (level : Nat → Nat) (good entries : Nat → Nat) : Prop where
  first : ∀ j < 2 ^ depth, j % 2 ^ (depth - level (good j)) = 0 → entries j = good j
  shows : ∀ j < 2 ^ depth, level (entries j) = level (good j) → entries j = good j

/-- What the loop makes of such entries: it never comes to the last block. -/
def mended (depth : Nat) (good entries : Nat → Nat) (j : Nat) : Nat :=
  if j < 2 ^ depth ∧ good j ≠ good (2 ^ depth - 1) then good j else entries j

theorem recoveryLoop_eq {depth : Nat} {good entries : Nat → Nat} (owned : Owned depth level good)
    (mendable : Mendable depth level good entries) {fuel i : Nat} {now : Nat → Nat}
    (enough : 2 ^ depth < i + fuel) (hi : i < 2 ^ depth)
    (start : i % 2 ^ (depth - level (good i)) = 0)
    (before : ∀ j < i, now j = good j ∧ good j ≠ good (2 ^ depth - 1))
    (after : ∀ j, i ≤ j → now j = entries j) :
    recoveryLoop level depth (2 ^ depth) fuel i now = some (mended depth good entries) := by
  induction fuel generalizing i now with
  | zero => omega
  | succ fuel ih =>
    have here : now i = good i := (after i (le_refl i)).trans (mendable.first i hi start)
    have fits := Owned.end_le start hi
    have width : 0 < 2 ^ (depth - level (good i)) := by positivity
    rw [recoveryLoop, if_pos hi, here]
    by_cases last : i + 2 ^ (depth - level (good i)) = 2 ^ depth
    · rw [if_pos last]
      congr 1
      funext j
      rcases Nat.lt_or_ge j i with lt | ge
      · rw [mended, if_pos ⟨lt.trans hi, (before j lt).2⟩, (before j lt).1]
      · -- the block of `i` is the last one
        have same : ∀ j, i ≤ j → j < 2 ^ depth → good j = good i :=
          fun j ge lt => owned.entry_eq start ge (by omega) lt
        rw [after j ge, mended, if_neg]
        rintro ⟨lt, other⟩
        exact other ((same j ge lt).trans (same _ (by omega) (by omega)).symm)
    · rw [if_neg last]
      have next : i + 2 ^ (depth - level (good i)) < 2 ^ depth := by omega
      refine ih (by omega) next (owned.next_start start rfl next) ?_ ?_
      · intro j lt
        rw [recoverBlock_apply]
        rcases Nat.lt_or_ge j i with old | new
        · rw [if_neg (by omega)]
          exact before j old
        · have same : good j = good i := owned.entry_eq start new lt (by omega)
          constructor
          · split_ifs with wrong
            · rw [here, same]
            · rcases Nat.eq_or_lt_of_le new with rfl | inner
              · exact here
              · have level_eq : level (now j) = level (good i) := by
                  by_contra differ
                  exact wrong ⟨⟨inner, lt⟩, differ⟩
                rw [after j new] at level_eq ⊢
                exact mendable.shows j (by omega) (same ▸ level_eq)
          · rw [same]
            exact (owned.entry_ne (by omega) (by omega)).symm
      · intro j ge
        rw [recoverBlock_apply, if_neg (by omega)]
        exact after j (by omega)

end

/-- When entry `j` gets its turn among the stores to a block of `2 ^ (k + 1)` entries: the upper
half comes first. -/
def turn (k j : Nat) : Nat := if j / 2 ^ k % 2 = 0 then 2 ^ k + j % 2 ^ k else j % 2 ^ k

/-- The entries after the first `n` stores of a split. -/
def interrupted (entries : Nat → Nat) (k x s0 s1 n j : Nat) : Nat :=
  if turn k j < n then halved entries (k + 1) x s0 s1 j else entries j

theorem stores_fst {x k s0 s1 : Nat} (le : k < 30) : (stores x (k + 1) s0 s1).map Prod.fst =
    (List.range (2 ^ k)).map (fun i => 2 ^ k * (2 * (x / 2 ^ (k + 1)) + 1) + i) ++
      (List.range (2 ^ k)).map fun i => 2 ^ k * (2 * (x / 2 ^ (k + 1))) + i := by
  by_cases one : k = 0
  · subst one
    have parity := Nat.div_add_mod x 2
    rw [stores, if_pos rfl]
    split_ifs with even <;> simp <;> omega
  · have width : stride (k + 1) = 2 * 2 ^ k := by rw [stride, if_pos (by omega), pow_succ']
    have half : 2 * 2 ^ k / 2 = 2 ^ k := Nat.mul_div_cancel_left _ (by decide)
    have loc : x - x % (2 * 2 ^ k) = 2 ^ k * (2 * (x / (2 * 2 ^ k))) := by
      have split := Nat.div_add_mod x (2 * 2 ^ k)
      have assoc : 2 ^ k * (2 * (x / (2 * 2 ^ k))) = 2 * 2 ^ k * (x / (2 * 2 ^ k)) := by ring
      omega
    rw [stores, if_neg (by omega), width, half, loc, pow_succ', List.map_append,
      List.map_map, List.map_map]
    rfl

theorem mem_take_stores {x k s0 s1 : Nat} (le : k < 30) (n j : Nat) :
    j ∈ ((stores x (k + 1) s0 s1).take n).map Prod.fst ↔ j / 2 ^ (k + 1) = x / 2 ^ (k + 1) ∧
      turn k j < n := by
  rw [List.map_take, stores_fst le, List.take_append, List.mem_append, List.length_map,
    List.length_range, ← List.map_take, ← List.map_take, List.take_range, List.take_range]
  have width : 0 < 2 ^ k := by positivity
  simp only [List.mem_map, List.mem_range, Nat.lt_min, Blocks.div_two_pow_succ, turn]
  generalize 2 ^ k = m at width ⊢
  generalize x / m / 2 = q
  have split : ∀ a i, i < m → (m * a + i = j ↔ j / m = a ∧ j % m = i) := by
    intro a i lt
    constructor
    · rintro rfl
      rw [Nat.mul_add_div width, Nat.div_eq_of_lt lt, Nat.mul_add_mod, Nat.mod_eq_of_lt lt]
      exact ⟨rfl, rfl⟩
    · rintro ⟨rfl, rfl⟩
      exact Nat.div_add_mod j m
  have rest := Nat.mod_lt j width
  constructor
  · rintro (⟨i, ⟨lt, small⟩, eq⟩ | ⟨i, ⟨lt, small⟩, eq⟩)
    · obtain ⟨quot, rfl⟩ := (split _ i small).mp eq
      rw [quot, if_neg (by omega)]
      exact ⟨by omega, lt⟩
    · obtain ⟨quot, rfl⟩ := (split _ i small).mp eq
      rw [quot, if_pos (by omega)]
      exact ⟨by omega, by omega⟩
  · rintro ⟨block, early⟩
    split_ifs at early with lower
    · exact Or.inr ⟨j % m, ⟨by omega, rest⟩, (split _ _ rest).mpr ⟨by omega, rfl⟩⟩
    · exact Or.inl ⟨j % m, ⟨early, rest⟩, (split _ _ rest).mpr ⟨by omega, rfl⟩⟩

theorem writeAll_take_stores {x k s0 s1 : Nat} (le : k < 30) (entries : Nat → Nat) (n : Nat) :
    writeAll entries ((stores x (k + 1) s0 s1).take n) = interrupted entries k x s0 s1 n := by
  obtain ⟨agree, -⟩ := @stores_spec x (k + 1) s0 s1 (by omega) (by omega)
  funext j
  rw [writeAll_apply (f := fun j => if j / 2 ^ k % 2 = 0 then s0 else s1)
    fun p mem => (agree p (List.mem_of_mem_take mem)).2, interrupted, halved, Nat.add_sub_cancel]
  by_cases block : j / 2 ^ (k + 1) = x / 2 ^ (k + 1)
  · simp only [mem_take_stores le, block, true_and, if_true]
  · simp only [mem_take_stores le, block, false_and, if_false, ite_self]

section
variable {level : Nat → Nat} {entries : Nat → Nat} {depth k x s0 s1 n : Nat}

theorem mod_block_ne_zero {j : Nat} (upper : j / 2 ^ k % 2 ≠ 0) : j % 2 ^ (k + 1) ≠ 0 := by
  intro zero
  obtain ⟨q, rfl⟩ := Nat.dvd_of_mod_eq_zero zero
  rw [pow_succ, Nat.mul_assoc, Nat.mul_div_cancel_left _ (by positivity)] at upper
  omega

theorem entry_of_halved (owned : Owned depth level entries) (hx : x < 2 ^ depth)
    (width : depth - level (entries x) = k + 1) {j : Nat} (hj : j < 2 ^ depth)
    (changed : halved entries (k + 1) x s0 s1 j ≠ entries j) :
    entries j = entries x ∧ halved entries (k + 1) x s0 s1 j = if j / 2 ^ k % 2 =
      0 then s0 else s1 := by
  have block : j / 2 ^ (k + 1) = x / 2 ^ (k + 1) := by
    by_contra away
    exact changed (if_neg away)
  rw [owned.block x hx j hj, width, halved, if_pos block]
  exact ⟨block, rfl⟩

/-- Up to the middle of the stores the old entries can be restored. -/
theorem mendable_back (owned : Owned depth level entries) (hx : x < 2 ^ depth)
    (width : depth - level (entries x) = k + 1) (level1 : level s1 = level (entries x) + 1)
    (early : n ≤ 2 ^ k) :
    Mendable depth level entries (interrupted entries k x s0 s1 n) := by
  -- an entry that was stored to lies in the upper half of the block
  have stored : ∀ j < 2 ^ depth, interrupted entries k x s0 s1 n j ≠ entries j →
      entries j = entries x ∧ interrupted entries k x s0 s1 n j = s1 ∧ j / 2 ^ k % 2 ≠ 0 := by
    intro j hj changed
    have turned : turn k j < n := by
      by_contra no
      exact changed (if_neg no)
    have upper : j / 2 ^ k % 2 ≠ 0 := by
      intro lower
      rw [turn, if_pos lower] at turned
      omega
    rw [interrupted, if_pos turned] at changed ⊢
    obtain ⟨old, eq⟩ := entry_of_halved owned hx width hj changed
    exact ⟨old, by rw [eq, if_neg upper], upper⟩
  constructor
  · intro j hj start
    by_contra changed
    obtain ⟨old, -, upper⟩ := stored j hj changed
    rw [old, width] at start
    exact mod_block_ne_zero upper start
  · intro j hj same
    by_contra changed
    obtain ⟨old, new, -⟩ := stored j hj changed
    rw [new, old, level1] at same
    omega

/-- In the second half, an entry not stored to yet lies in the lower half of the block, but not at
its start. -/
theorem not_stored_yet (owned : Owned depth level entries) (hx : x < 2 ^ depth)
    (width : depth - level (entries x) = k + 1) (late : 2 ^ k < n) {j : Nat} (hj : j < 2 ^ depth)
    (open_ : interrupted entries k x s0 s1 n j ≠ halved entries (k + 1) x s0 s1 j) :
    interrupted entries k x s0 s1 n j = entries x ∧ halved entries (k + 1) x s0 s1 j = s0 ∧
      j % 2 ^ k ≠ 0 := by
  have turned : ¬ turn k j < n := fun turned => open_ (if_pos turned)
  have lower : j / 2 ^ k % 2 = 0 := by
    by_contra upper
    rw [turn, if_neg upper] at turned
    exact turned ((Nat.mod_lt j (by positivity)).trans late)
  rw [turn, if_pos lower] at turned
  have kept : interrupted entries k x s0 s1 n j = entries j := by
    rw [interrupted, turn, if_pos lower, if_neg turned]
  rw [kept] at open_ ⊢
  obtain ⟨old, eq⟩ := entry_of_halved owned hx width hj open_.symm
  exact ⟨old, by rw [eq, if_pos lower], by omega⟩

/-- From then on the split can be finished. -/
theorem mendable_forth (owned : Owned depth level entries) (hx : x < 2 ^ depth)
    (width : depth - level (entries x) = k + 1) (level0 : level s0 = level (entries x) + 1)
    (late : 2 ^ k < n) :
    Mendable depth level (halved entries (k + 1) x s0 s1) (interrupted entries k x s0 s1 n) := by
  have child : depth - level s0 = k := by omega
  constructor
  · intro j hj start
    by_contra open_
    obtain ⟨-, low, inner⟩ := not_stored_yet owned hx width late hj open_
    rw [low, child] at start
    exact inner start
  · intro j hj same
    by_contra open_
    obtain ⟨old, low, -⟩ := not_stored_yet owned hx width late hj open_
    rw [old, low, level0] at same
    omega

theorem mended_back (owned : Owned depth level entries) (hx : x < 2 ^ depth)
    (width : depth - level (entries x) = k + 1) (safe : n = 0 ∨ entries x ≠ entries (2 ^ depth - 1))
    {j : Nat} (hj : j < 2 ^ depth) :
    mended depth entries (interrupted entries k x s0 s1 n) j = entries j := by
  unfold mended
  split_ifs with other
  · rfl
  · have last : entries j = entries (2 ^ depth - 1) := by
      by_contra differ
      exact other ⟨hj, differ⟩
    unfold interrupted
    split_ifs with turned
    · by_contra changed
      obtain ⟨same, -⟩ := entry_of_halved owned hx width hj changed
      rcases safe with rfl | away
      · exact Nat.not_lt_zero _ turned
      · exact away (same.symm.trans last)
    · rfl

theorem mended_last {j : Nat} (last : entries j = entries (2 ^ depth - 1)) (now : Nat → Nat) :
    mended depth entries now j = now j := if_neg fun both => both.2 last

/-- In the last block the entries stay mixed. -/
theorem not_owned_last (owned : Owned depth level entries) (hx : x < 2 ^ depth)
    (width : depth - level (entries x) = k + 1) (last : entries x = entries (2 ^ depth - 1))
    (pos : 0 < n) (early : n ≤ 2 ^ k) (differ : s1 ≠ entries x) :
    ¬ Owned depth level (mended depth entries (interrupted entries k x s0 s1 n)) := by
  have few : 0 < 2 ^ k := by positivity
  have many : 2 ^ (k + 1) = 2 ^ k * 2 := pow_succ ..
  -- the first entry of the block and the first one of its upper half
  obtain ⟨q, block⟩ : ∃ q, x / 2 ^ (k + 1) = q := ⟨_, rfl⟩
  have below : 2 ^ (k + 1) * q ≤ x := block ▸ Nat.mul_div_le x _
  have base_div : 2 ^ (k + 1) * q / 2 ^ (k + 1) = q := Nat.mul_div_cancel_left q (by positivity)
  have top_div : (2 ^ (k + 1) * q + 2 ^ k) / 2 ^ (k + 1) = q := by
    rw [Nat.mul_add_div (by positivity), Nat.div_eq_of_lt (by omega), Nat.add_zero]
  have base_eq : entries (2 ^ (k + 1) * q) = entries x := by
    rw [owned.block x hx _ (by omega), width, base_div, block]
  have fits : 2 ^ (k + 1) * q + 2 ^ (k + 1) ≤ 2 ^ depth := by
    have fits : 2 ^ (k + 1) * q + 2 ^ (depth - level (entries (2 ^ (k + 1) * q))) ≤ 2 ^ depth :=
      Owned.end_le (by rw [base_eq, width]; exact Nat.mul_mod_right ..) (by omega)
    rwa [base_eq, width] at fits
  have top_eq : entries (2 ^ (k + 1) * q + 2 ^ k) = entries x := by
    rw [owned.block x hx _ (by omega), width, top_div, block]
  have base_now : interrupted entries k x s0 s1 n (2 ^ (k + 1) * q) = entries x := by
    have lower : 2 ^ (k + 1) * q / 2 ^ k % 2 = 0 := by
      rw [many, Nat.mul_assoc, Nat.mul_div_cancel_left _ few, Nat.mul_mod_right]
    rw [interrupted, turn, if_pos lower, if_neg (by omega), base_eq]
  have top_now : interrupted entries k x s0 s1 n (2 ^ (k + 1) * q + 2 ^ k) = s1 := by
    have factor : 2 ^ (k + 1) * q + 2 ^ k = 2 ^ k * (2 * q + 1) := by rw [many]; ring
    have upper : ¬ (2 ^ (k + 1) * q + 2 ^ k) / 2 ^ k % 2 = 0 := by
      rw [factor, Nat.mul_div_cancel_left _ few]
      omega
    have first : (2 ^ (k + 1) * q + 2 ^ k) % 2 ^ k = 0 := by rw [factor, Nat.mul_mod_right]
    rw [interrupted, turn, if_neg upper, first, if_pos pos, halved, if_pos (by rw [top_div, block]),
      Nat.add_sub_cancel, if_neg upper]
  intro mixed
  have same := mixed.block (2 ^ (k + 1) * q) (by omega) (2 ^ (k + 1) * q + 2 ^ k) (by omega)
  rw [mended_last (base_eq.trans last), mended_last (top_eq.trans last), base_now, top_now, width,
    base_div, top_div] at same
  exact differ (same.mpr rfl)

theorem last_upper (lt : k < depth) : (2 ^ depth - 1) / 2 ^ k % 2 ≠ 0 := by
  obtain ⟨d, rfl⟩ : ∃ d, depth = k + (d + 1) := ⟨depth - k - 1, by omega⟩
  have width : 0 < 2 ^ k := by positivity
  have many : 0 < 2 ^ d := by positivity
  have split : 2 ^ (k + (d + 1)) - 1 = 2 ^ k * (2 ^ d * 2 - 1) + (2 ^ k - 1) := by
    have whole : 2 ^ k * (2 ^ d * 2) = 2 ^ k * (2 ^ d * 2 - 1) + 2 ^ k := by
      rw [← Nat.mul_succ]
      congr 1
      omega
    rw [pow_add, pow_succ, whole]
    omega
  rw [split, Nat.mul_add_div width, Nat.div_eq_of_lt (by omega)]
  omega

theorem mended_forth (owned : Owned depth level entries) (hx : x < 2 ^ depth)
    (width : depth - level (entries x) = k + 1) (fresh0 : ∀ i < 2 ^ depth, entries i ≠ s0)
    (differ : s0 ≠ s1) (late : 2 ^ k < n) {j : Nat} (hj : j < 2 ^ depth) :
    mended depth (halved entries (k + 1) x s0 s1) (interrupted entries k x s0 s1 n) j =
      halved entries (k + 1) x s0 s1 j := by
  -- the last entry never has the lower half, which is all that may still be wrong
  have last : halved entries (k + 1) x s0 s1 (2 ^ depth - 1) ≠ s0 := by
    by_cases changed : halved entries (k + 1) x s0 s1 (2 ^ depth - 1) ≠ entries (2 ^ depth - 1)
    · rw [(entry_of_halved owned hx width (by omega) changed).2, if_neg (last_upper (by omega))]
      exact differ.symm
    · rw [not_not.mp changed]
      exact fresh0 _ (by omega)
  unfold mended
  split_ifs with other
  · rfl
  · by_contra open_
    obtain ⟨-, low, -⟩ := not_stored_yet owned hx width late hj open_
    exact other ⟨hj, fun same => last (same.symm.trans low)⟩

end

namespace Segment

/-- `Get` finds the key in its window. -/
def Holds (h : Key → BitVec 64) (s : Segment) (key : Key) : Prop :=
  ∃ i ∈ windowSlots (window (h key)), (s.slots i).key = key

end Segment

namespace Table

/-- Every segment of the directory owns exactly the aligned block of its local depth. -/
structure WellFormed (t : Table) : Prop where
  depth_lt : t.cur.depth < 64
  capacity : t.cur.capacity = 2 ^ t.cur.depth
  owned : Owned t.cur.depth (fun a => (t.segs a).localDepth) t.cur.entries
  alloc : ∀ i < 2 ^ t.cur.depth, t.cur.entries i < t.nseg

section
variable (h : Key → BitVec 64) (t : Table)

def Retrievable (key : Key) : Prop := (t.segs (t.target h key)).Holds h key

def splitStores (x : Nat) : List (Nat × Nat) :=
  stores x (t.cur.depth - (t.segs (t.cur.entries x)).localDepth) t.nseg (t.nseg + 1)

def crashed (x n : Nat) : Table :=
  (t.splitOff h (t.cur.entries x)).setDir t.dir { t.cur with
    sema := t.cur.sema + 1
    entries := writeAll t.cur.entries ((t.splitStores x).take n) }

/-- The local depths after that split. -/
def levelAfter (x a : Nat) : Nat := ((t.splitOff h (t.cur.entries x)).segs a).localDepth

/-- `Recovery` after the crash ends with a well-formed directory that has all keys. -/
def Repairs (x n : Nat) : Prop :=
  ∃ b t', (t.crashed h x n).recovery = some (b, t') ∧ t'.WellFormed ∧
    ∀ key ≠ invalidKey, t.Retrievable h key → t'.Retrievable h key

/-- `Split` of the segment in entry `x` keeps the keys that are looked up there. -/
def SplitKeeps (x : Nat) : Prop :=
  ∀ key ≠ invalidKey, t.target h key = t.cur.entries x → (t.segs (t.cur.entries x)).Holds h key →
    ((t.segs (t.cur.entries x)).child h key).Holds h key

/-- Not in the first half of the stores to the last block; and in the second half the split has lost
no key. -/
def Mends (x n : Nat) : Prop :=
  ¬ (0 < ((t.splitStores x).take n).length ∧
      ((t.splitStores x).take n).length ≤ 2 ^
        (t.cur.depth - (t.segs (t.cur.entries x)).localDepth - 1) ∧
      t.cur.entries x = t.cur.entries (2 ^ t.cur.depth - 1)) ∧
    (2 ^ (t.cur.depth - (t.segs (t.cur.entries x)).localDepth - 1) <
      ((t.splitStores x).take n).length → t.SplitKeeps h x)

end

variable {h : Key → BitVec 64} {t : Table}

/-- A segment whose pairs do not crowd each other out keeps its keys. -/
theorem splitKeeps_of_not_crowded {x : Nat}
    (none_ : ∀ i, ((t.segs (t.cur.entries x)).slots i).Live →
      ¬ Segment.Crowded h (t.segs (t.cur.entries x)) i) : t.SplitKeeps h x := by
  rintro key live - ⟨i, -, rfl⟩
  have room := (Segment.none_dropped_iff fun _ live => live).mpr none_ i live
  obtain ⟨j, mem, stored⟩ := Segment.stored_of_not_dropped live room
  exact ⟨j, mem, congrArg Pair.key stored⟩

theorem recovery_eq (capacity : t.cur.capacity = 2 ^ t.cur.depth) {good : Nat → Nat}
    (owned : Owned t.cur.depth (fun a => (t.segs a).localDepth) good)
    (mendable : Mendable t.cur.depth (fun a => (t.segs a).localDepth) good t.cur.entries) :
    t.recovery = some (false, t.setDir t.dir
      { t.cur with entries := mended t.cur.depth good t.cur.entries }) := by
  have pos : 0 < 2 ^ t.cur.depth := by positivity
  rw [recovery, capacity, recoveryLoop_eq owned mendable (by omega) pos (Nat.zero_mod _) (by simp)
    (fun _ _ => rfl)]
  rfl

theorem crashed_cur (x n : Nat) : (t.crashed h x n).cur =
    ⟨writeAll t.cur.entries ((t.splitStores x).take n), t.cur.sema + 1,
      t.cur.capacity, t.cur.depth⟩ :=
  setDir_cur rfl _

theorem WellFormed.levels (wf : t.WellFormed) (a : Nat) {i : Nat} (hi : i < 2 ^ t.cur.depth) :
    ((t.splitOff h a).segs (t.cur.entries i)).localDepth = (t.segs (t.cur.entries i)).localDepth :=
  splitOff_localDepth h t a (wf.alloc i hi)

/-- The bit of a directory index below the prefix of a segment is the one that `Split` looks at. -/
theorem index_bit {depth localDepth k : Nat} (sum : depth = localDepth + 1 + k) (lt : depth < 64)
    (hash : BitVec 64) :
    index depth hash / 2 ^ k % 2 = 0 ↔ splitBit localDepth hash = false := by
  have shift : depth - (localDepth + 1) = k := by omega
  rw [index_eq (by omega) (by omega), ← shift, Blocks.top_div (by omega) (by omega),
    Blocks.top_succ (by omega),
    Nat.mul_add_mod, Nat.mod_mod, ← Bool.not_eq_true, splitBit_iff (by omega)]
  omega

theorem WellFormed.restored (wf : t.WellFormed) {a : Nat} {c : Table}
    (segs : c.segs = (t.splitOff h a).segs) (nseg : c.nseg = t.nseg + 2)
    (depth : c.cur.depth = t.cur.depth) (capacity : c.cur.capacity = t.cur.capacity)
    (pos : 1 ≤ t.cur.depth) (entries : ∀ j < 2 ^ t.cur.depth, c.cur.entries j = t.cur.entries j) :
    c.WellFormed ∧ ∀ key, t.Retrievable h key → c.Retrievable h key := by
  constructor
  · refine ⟨depth ▸ wf.depth_lt, by rw [capacity, depth, wf.capacity], ?_, ?_⟩
    · rw [depth, segs]
      exact (wf.owned.level_congr fun i hi => wf.levels a hi).congr entries
    · rw [depth, nseg]
      intro i hi
      rw [entries i hi]
      exact (wf.alloc i hi).trans (by omega)
  · intro key found
    have here := index_lt pos wf.depth_lt.le (h key)
    rw [Retrievable, target, depth, entries _ here, segs, Segment.Holds,
      splitOff_slots h t a (wf.alloc _ here)]
    exact found

theorem WellFormed.finished (wf : t.WellFormed) {x k : Nat} (hx : x < 2 ^ t.cur.depth)
    (width : t.cur.depth - (t.segs (t.cur.entries x)).localDepth = k + 1) {c : Table}
    (segs : c.segs = (t.splitOff h (t.cur.entries x)).segs) (nseg : c.nseg = t.nseg + 2)
    (depth : c.cur.depth = t.cur.depth) (capacity : c.cur.capacity = t.cur.capacity)
    (entries : ∀ j < 2 ^ t.cur.depth, c.cur.entries j = halved t.cur.entries (k + 1) x t.nseg
      (t.nseg + 1) j) :
    c.WellFormed ∧ ∀ key, (t.target h key ≠ t.cur.entries x → t.Retrievable h key →
      c.Retrievable h key) ∧
      (t.target h key = t.cur.entries x →
        (c.Retrievable h key ↔ ((t.segs (t.cur.entries x)).child h key).Holds h key)) := by
  have fresh : ∀ i < 2 ^ t.cur.depth, t.cur.entries i ≠ t.nseg ∧ t.cur.entries i ≠ t.nseg + 1 := by
    intro i hi
    have := wf.alloc i hi
    omega
  have halves := Segment.split_localDepth (h := h) (t.segs (t.cur.entries x))
  constructor
  · refine ⟨depth ▸ wf.depth_lt, by rw [capacity, depth, wf.capacity], ?_, ?_⟩
    · rw [depth, segs]
      have owned : Owned t.cur.depth (fun a => ((t.splitOff h (t.cur.entries x)).segs a).localDepth)
          (halved t.cur.entries (t.cur.depth - (t.segs (t.cur.entries x)).localDepth) x t.nseg
            (t.nseg + 1)) :=
        wf.owned.halve hx (by omega) (fun i hi => (fresh i hi).1) (fun i hi => (fresh i hi).2)
          (by omega)
          (by rw [splitOff_low, halves.1]) (by rw [splitOff_high, halves.2])
            (fun i hi => wf.levels _ hi)
      rw [width] at owned
      exact owned.congr entries
    · rw [depth, nseg]
      intro i hi
      rw [entries i hi, halved]
      have := wf.alloc i hi
      split_ifs <;> omega
  · intro key
    have pos : 1 ≤ t.cur.depth := by omega
    have here := index_lt pos wf.depth_lt.le (h key)
    have block := wf.owned.block x hx _ here
    rw [width] at block
    constructor
    · intro other found
      have away : ¬ index t.cur.depth (h key) / 2 ^ (k + 1) = x / 2 ^ (k + 1) :=
        fun eq => other (block.mpr eq)
      rw [Retrievable, target, depth, entries _ here, halved, if_neg away, segs, Segment.Holds,
        splitOff_slots h t _ (wf.alloc _ here)]
      exact found
    · intro mine
      rw [Retrievable, target, depth, entries _ here, halved, if_pos (block.mp mine), segs,
        Nat.add_sub_cancel, Segment.child]
      have bit : index t.cur.depth (h key) / 2 ^ k % 2 = 0 ↔
          splitBit (t.segs (t.cur.entries x)).localDepth (h key) = false :=
        index_bit (by omega) wf.depth_lt (h key)
      split_ifs with lower upper upper
      · exact absurd (bit.mp lower) (by rw [upper]; decide)
      · rw [splitOff_low]
      · rw [splitOff_high]
      · exact absurd (bit.mpr (by simpa using upper)) lower

theorem repairs_iff_of_recovery {x n : Nat} {b : Bool} {t' : Table}
    (done : (t.crashed h x n).recovery = some (b, t')) :
    t.Repairs h x n ↔ t'.WellFormed ∧ ∀ key ≠ invalidKey, t.Retrievable h key →
      t'.Retrievable h key := by
  constructor
  · rintro ⟨b', t'', done', good⟩
    cases done.symm.trans done'
    exact good
  · intro good
    exact ⟨b, t', done, good⟩

theorem WellFormed.recovery_self (wf : t.WellFormed) : t.recovery = some (false, t) := by
  have nothing : mended t.cur.depth t.cur.entries t.cur.entries = t.cur.entries := by
    funext j
    exact ite_self _
  rw [recovery_eq wf.capacity wf.owned ⟨fun _ _ _ => rfl, fun _ _ _ => rfl⟩, nothing, setDir,
    cur, Function.update_eq_self]

section
variable {x k n : Nat}

/-- The directory that `Recovery` leaves, for entries that can be mended. -/
theorem WellFormed.recovery_crashed (wf : t.WellFormed) {now good : Nat → Nat}
    (entries : writeAll t.cur.entries ((t.splitStores x).take n) = now)
    (owned : Owned t.cur.depth (t.levelAfter h x) good)
    (mendable : Mendable t.cur.depth (t.levelAfter h x) good now) :
    ∃ t', (t.crashed h x n).recovery = some (false, t') ∧
      t'.segs = (t.splitOff h (t.cur.entries x)).segs ∧
      t'.nseg = t.nseg + 2 ∧ t'.cur.depth = t.cur.depth ∧ t'.cur.capacity = t.cur.capacity ∧
      t'.cur.entries = mended t.cur.depth good now := by
  have cur := crashed_cur (h := h) (t := t) x n
  rw [entries] at cur
  have owned' : Owned (t.crashed h x n).cur.depth (fun a => ((t.crashed h x n).segs a).localDepth)
      good := by
    rw [cur]
    exact owned
  have mendable' : Mendable (t.crashed h x n).cur.depth
    (fun a => ((t.crashed h x n).segs a).localDepth) good (t.crashed h x n).cur.entries := by
    rw [cur]
    exact mendable
  refine ⟨_, recovery_eq (by rw [cur]; exact wf.capacity) owned' mendable', rfl, rfl, ?_, ?_, ?_⟩
  · rw [setDir_cur rfl, cur]
  · rw [setDir_cur rfl, cur]
  · rw [setDir_cur rfl, cur]

/-- What the lemmas about the entries ask of the levels after a split. -/
structure Setting (h : Key → BitVec 64) (t : Table) (x k : Nat) : Prop where
  owned : Owned t.cur.depth (t.levelAfter h x) t.cur.entries
  width : t.cur.depth - t.levelAfter h x (t.cur.entries x) = k + 1
  low : t.levelAfter h x t.nseg = t.levelAfter h x (t.cur.entries x) + 1
  high : t.levelAfter h x (t.nseg + 1) = t.levelAfter h x (t.cur.entries x) + 1

theorem WellFormed.setting (h : Key → BitVec 64) (wf : t.WellFormed) (hx : x < 2 ^ t.cur.depth)
    (width : t.cur.depth - (t.segs (t.cur.entries x)).localDepth = k + 1) : Setting h t x k := by
  have halves := Segment.split_localDepth (h := h) (t.segs (t.cur.entries x))
  have level := wf.levels (h := h) (t.cur.entries x) hx
  refine ⟨wf.owned.level_congr fun i hi => wf.levels _ hi, by rw [levelAfter, level, width], ?_, ?_⟩
  · rw [levelAfter, splitOff_low, halves.1, levelAfter, level]
  · rw [levelAfter, splitOff_high, halves.2, levelAfter, level]

theorem length_splitStores (narrow : k < 30)
    (width : t.cur.depth - (t.segs (t.cur.entries x)).localDepth = k + 1) :
    (t.splitStores x).length = 2 ^ k + 2 ^ k := by
  rw [splitStores, width, ← List.length_map (f := Prod.fst), stores_fst narrow, List.length_append,
    List.length_map, List.length_map, List.length_range]

theorem entries_crashed (narrow : k < 30)
    (width : t.cur.depth - (t.segs (t.cur.entries x)).localDepth = k + 1) :
    writeAll t.cur.entries ((t.splitStores x).take n) =
      interrupted t.cur.entries k x t.nseg (t.nseg + 1) n := by
  rw [splitStores, width, writeAll_take_stores narrow]

/-- In the first half of the stores, away from the last block, the old directory comes back. -/
theorem WellFormed.repairs_early (wf : t.WellFormed) (hx : x < 2 ^ t.cur.depth) (narrow : k < 30)
    (width : t.cur.depth - (t.segs (t.cur.entries x)).localDepth = k + 1) (early : n ≤ 2 ^ k)
    (safe : n = 0 ∨ t.cur.entries x ≠ t.cur.entries (2 ^ t.cur.depth - 1)) : t.Repairs h x n := by
  have after := wf.setting h hx width
  obtain ⟨t', done, segs, nseg, depth, capacity, now⟩ :=
    wf.recovery_crashed (entries_crashed narrow width) after.owned
    (mendable_back after.owned hx after.width after.high early)
  rw [repairs_iff_of_recovery done]
  have good := wf.restored segs nseg depth capacity (by omega) fun j hj => by
    rw [now]
    exact mended_back after.owned hx after.width safe hj
  exact ⟨good.1, fun key _ => good.2 key⟩

theorem WellFormed.not_repairs_last (wf : t.WellFormed) (hx : x < 2 ^ t.cur.depth) (narrow : k < 30)
    (width : t.cur.depth - (t.segs (t.cur.entries x)).localDepth = k + 1) (pos : 0 < n)
    (early : n ≤ 2 ^ k)
    (last : t.cur.entries x = t.cur.entries (2 ^ t.cur.depth - 1)) : ¬ t.Repairs h x n := by
  have after := wf.setting h hx width
  obtain ⟨t', done, segs, nseg, depth, capacity, now⟩ :=
    wf.recovery_crashed (entries_crashed narrow width) after.owned
    (mendable_back after.owned hx after.width after.high early)
  rw [repairs_iff_of_recovery done]
  rintro ⟨good, -⟩
  have owned := good.owned
  rw [segs, depth, now] at owned
  exact not_owned_last after.owned hx after.width last pos early (by have := wf.alloc x hx; omega)
    owned

/-- In the second half of the stores the split is finished. -/
theorem WellFormed.repairs_late_iff (wf : t.WellFormed) (hx : x < 2 ^ t.cur.depth) (narrow : k < 30)
    (width : t.cur.depth - (t.segs (t.cur.entries x)).localDepth = k + 1) (late : 2 ^ k < n) :
    t.Repairs h x n ↔ t.SplitKeeps h x := by
  have after := wf.setting h hx width
  have fresh : ∀ i < 2 ^ t.cur.depth, t.cur.entries i ≠ t.nseg := fun i hi => (wf.alloc i hi).ne
  have owned : Owned t.cur.depth (t.levelAfter h x)
      (halved t.cur.entries (k + 1) x t.nseg (t.nseg + 1)) := by
    have halve : Owned t.cur.depth (t.levelAfter h x)
        (halved t.cur.entries (t.cur.depth - t.levelAfter h x (t.cur.entries x)) x t.nseg
          (t.nseg + 1)) :=
      after.owned.halve hx (Nat.lt_of_sub_pos (by rw [after.width]; omega)) fresh
      (fun i hi => by have := wf.alloc i hi; omega) (by omega) after.low after.high (fun _ _ => rfl)
    rwa [after.width] at halve
  obtain ⟨t', done, segs, nseg, depth, capacity, now⟩ :=
    wf.recovery_crashed (entries_crashed narrow width) owned
    (mendable_forth after.owned hx after.width after.low late)
  rw [repairs_iff_of_recovery done]
  obtain ⟨good, keys⟩ := wf.finished hx width segs nseg depth capacity fun j hj => by
    rw [now]
    exact mended_forth after.owned hx after.width fresh (by omega) late hj
  constructor
  · rintro ⟨-, kept⟩ key live mine found
    refine ((keys key).2 mine).mp (kept key live ?_)
    rw [Retrievable, mine]
    exact found
  · intro keeps
    refine ⟨good, fun key live found => ?_⟩
    by_cases mine : t.target h key = t.cur.entries x
    · rw [Retrievable, mine] at found
      exact ((keys key).2 mine).mpr (keeps key live mine found)
    · exact (keys key).1 mine found

theorem WellFormed.repairs_wide (wf : t.WellFormed) (hx : x < 2 ^ t.cur.depth)
    (width : t.cur.depth - (t.segs (t.cur.entries x)).localDepth = k + 1)
    (wide : 30 ≤ k) : t.Repairs h x n := by
  have after := wf.setting h hx width
  have none_ : t.splitStores x = [] := by
    rw [splitStores, width]
    exact stores_overflow (by omega)
  obtain ⟨t', done, segs, nseg, depth, capacity, now⟩ :=
    wf.recovery_crashed (n := n) (by rw [none_, List.take_nil]; rfl)
    after.owned ⟨fun _ _ _ => rfl, fun _ _ _ => rfl⟩
  rw [repairs_iff_of_recovery done]
  have good := wf.restored segs nseg depth capacity (by omega) fun j _ => by
    rw [now]
    exact ite_self _
  exact ⟨good.1, fun key _ => good.2 key⟩

/-- `Recovery` changes nothing in a well-formed directory, and mends an interrupted split exactly in
the cases of `Mends`. -/
theorem recovery_mends_iff (h : Key → BitVec 64) (t : Table) (wf : t.WellFormed) :
    t.recovery = some (false, t) ∧ ∀ x < 2 ^ t.cur.depth, (t.segs (t.cur.entries x)).localDepth <
      t.cur.depth →
      ∀ n, t.Repairs h x n ↔ t.Mends h x n := by
  refine ⟨wf.recovery_self, ?_⟩
  intro x hx below n
  obtain ⟨k, width⟩ : ∃ k, t.cur.depth - (t.segs (t.cur.entries x)).localDepth = k + 1 :=
    ⟨t.cur.depth - (t.segs (t.cur.entries x)).localDepth - 1, by omega⟩
  rw [Mends, width, Nat.add_sub_cancel]
  rcases Nat.lt_or_ge k 30 with narrow | wide
  · have count : ((t.splitStores x).take n).length = min n (2 ^ k + 2 ^ k) := by
      rw [List.length_take, length_splitStores narrow width]
    have few : 0 < 2 ^ k := by positivity
    rw [count]
    rcases Nat.lt_or_ge (2 ^ k) n with late | early
    · rw [wf.repairs_late_iff hx narrow width late]
      constructor
      · intro keeps
        exact ⟨by omega, fun _ => keeps⟩
      · intro mends
        exact mends.2 (by omega)
    · by_cases safe : n = 0 ∨ t.cur.entries x ≠ t.cur.entries (2 ^ t.cur.depth - 1)
      · refine iff_of_true (wf.repairs_early hx narrow width early safe) ⟨?_, fun _ => by omega⟩
        rintro ⟨some_, -, last⟩
        rcases safe with zero | away
        · omega
        · exact away last
      · push Not at safe
        refine iff_of_false (wf.not_repairs_last hx narrow width (Nat.pos_of_ne_zero safe.1)
          early safe.2) ?_
        intro mends
        exact mends.1 ⟨by omega, by omega, safe.2⟩
  · refine iff_of_true (wf.repairs_wide hx width wide) ?_
    have none_ : t.splitStores x = [] := by
      rw [splitStores, width]
      exact stores_overflow (by omega)
    rw [none_, List.take_nil]
    exact ⟨fun both => absurd both.1 (lt_irrefl 0), fun many => absurd many (Nat.not_lt_zero _)⟩

end

def threeSegments (wide : Nat) (entries : Nat → Nat) : Table where
  segs a := Segment.new (if a = wide then 1 else 2)
  nseg := 3
  dirs _ := ⟨entries, 0, 4, 2⟩
  ndir := 1
  dir := 0

/-- A crash between the two stores to the first block is undone. -/
theorem recovery_mends_iff_first_block : (threeSegments 0 fun i => i - 1).WellFormed ∧
    (threeSegments 0 fun i => i - 1).Repairs id 0 1 := by
  have wf : (threeSegments 0 fun i => i - 1).WellFormed :=
    ⟨by decide, rfl, ⟨by decide, by decide⟩, by decide⟩
  refine ⟨wf, ((recovery_mends_iff id _ wf).2 0 (by decide) (by decide) 1).mpr ⟨by decide, ?_⟩⟩
  intro many
  exact absurd many (by decide)

/-- The same crash in the last block leaves the old segment and the new one mixed. -/
theorem recovery_skips_last_block : (threeSegments 2 fun i => min i 2).WellFormed ∧
    ((threeSegments 2 fun i => min i 2).splitStores 2).take 1 = [(3, 4)] ∧
    ¬ (threeSegments 2 fun i => min i 2).Repairs id 2 1 := by
  have wf : (threeSegments 2 fun i => min i 2).WellFormed :=
    ⟨by decide, rfl, ⟨by decide, by decide⟩, by decide⟩
  exact ⟨wf, by decide, wf.not_repairs_last (k := 0) (by decide) (by decide) (by decide) (by decide)
    (by decide) (by decide)⟩

end Table

end Xcache.CCEH
