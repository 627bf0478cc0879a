import Xcache.Store.Cells
import Xcache.Lib.LowBits
import Xcache.Lib.Dyadic

/-! Extendible hashing (`server/src/extendible_hash.cpp`) with `LSB` and without `INPLACE`, called
by one thread at a time: a directory indexed by the low bits of the hash value, and blocks that are
split when they are full. -/

namespace Xcache
open Function

structure Block where
  slots : Nat → Pair
  localDepth : Nat
  sema : Int
  pattern : BitVec 64

/-- The directory, the global depth, and the blocks by address, with the address of the next one. -/
structure ExtendibleHash where
  capacity : Nat
  entry : Nat → Nat
  globalDepth : Nat
  blocks : Nat → Block
  fresh : Nat

/-- Why a call does not return: an entry outside the directory, an operation without a defined
result, or more turns than are looked at. -/
inductive ExtendibleHash.Stop
  | outside
  | undefined
  | running
  deriving DecidableEq

namespace Block

open ExtendibleHash (Stop)

@[irreducible] def kNumSlot : Nat := 256 * 1024 / 16

def new (depth : Nat) : Block := ⟨fun _ => Pair.fresh, depth, 0, 0⟩

def freeSlot (b : Block) : Option Nat :=
  (List.range kNumSlot).find? fun i => (b.slots i).key = invalidKey

def store (b : Block) (i : Nat) (p : Pair) : Block :=
  { b with slots := update b.slots i p }

/-- The results of `Block::Insert`: a slot, -1 and -2. -/
inductive Ret
  | slot (b : Block)
  | full
  | other

/-- `Block::Insert`. `sema` goes up and down again. -/
def insert (b : Block) (key : Key) (value : Value) (keyHash : BitVec 64) : Except Stop Ret :=
  if b.sema = -1 then .ok .other
  -- `(size_t)pow(2, local_depth)`
  else if b.localDepth < 64 then
    if keyHash &&& (BitVec.ofNat 64 (2 ^ b.localDepth) - 1) ≠ b.pattern then .ok .other
    else match b.freeSlot with
      | some i => .ok (.slot (b.store i ⟨key, some value⟩))
      | none => .ok .full
  else .error .undefined

def insert4split (b : Block) (p : Pair) : Block :=
  match b.freeSlot with
  | some i => b.store i p
  | none => b

section
variable (h : Key → BitVec 64)

/-- The loop of `Split` over the slots from the first. -/
def moveSlots (b : Block) : Nat → Block × Block
  | 0 => (new (b.localDepth + 1), new (b.localDepth + 1))
  | n + 1 =>
    let split := moveSlots b n
    if h (b.slots n).key &&& (1#64 <<< b.localDepth) ≠
      0 then (split.1, split.2.insert4split (b.slots n))
    else (split.1.insert4split (b.slots n), split.2)

/-- `Split`, once `sema` is taken. -/
def split (b : Block) : Block × Block := b.moveSlots h kNumSlot

end

end Block

namespace ExtendibleHash

open Block (kNumSlot)

def new (initCap : Nat) : Except Stop ExtendibleHash :=
  if initCap < 2 ^ 32 then
    .ok ⟨initCap, id, initCap.log2, fun i => { Block.new initCap.log2 with
      pattern := BitVec.ofNat 64 i }, initCap⟩
  else .error .running

/-- The conversion of a `size_t` to an `int`. -/
def toInt (n : Nat) : Int := (BitVec.ofNat 32 n).toInt

def setEntry (capacity : Nat) (i : Int) (b : Nat) (entry : Nat → Nat) : Except Stop (Nat → Nat) :=
  if 0 ≤ i ∧ i < capacity then .ok (update entry i.toNat b) else .error .outside

/-- The recursion of `LSBUpdate`, by `depth_diff`. -/
def lsbUpdateBy (capacity : Nat) (s : Nat × Nat) :
    Nat → Int → Int → (Nat → Nat) → Except Stop (Nat → Nat)
  | 0, dirCap, x, entry =>
    if dirCap = 0 then .error .undefined
    else if x.tmod dirCap ≥ dirCap.tdiv 2 then do
      setEntry capacity x s.2 (← setEntry capacity (x - dirCap.tdiv 2) s.1 entry)
    else do setEntry capacity (x + dirCap.tdiv 2) s.2 (← setEntry capacity x s.1 entry)
  | depthDiff + 1, dirCap, x, entry =>
    if dirCap = 0 then .error .undefined
    else if x.tmod dirCap ≥ dirCap.tdiv 2 then do
      lsbUpdateBy capacity s depthDiff (dirCap.tdiv 2) x
        (← lsbUpdateBy capacity s depthDiff (dirCap.tdiv 2) (x - dirCap.tdiv 2) entry)
    else do
      lsbUpdateBy capacity s depthDiff (dirCap.tdiv 2) (x + dirCap.tdiv 2)
        (← lsbUpdateBy capacity s depthDiff (dirCap.tdiv 2) x entry)

/-- `LSBUpdate` as `Insert` calls it. A negative difference of the depths is never met again. -/
def lsbUpdate (capacity localDepth globalDepth x : Nat) (s : Nat × Nat) (entry : Nat → Nat) :
    Except Stop (Nat → Nat) :=
  let depthDiff := toInt globalDepth - toInt localDepth
  if 0 ≤ depthDiff then lsbUpdateBy capacity s depthDiff.toNat (toInt capacity) (toInt x) entry
    else .error .running

section
variable (h : Key → BitVec 64)

/-- The part of `Insert` for a full block: the split, the patterns of the two new blocks and the
directory. Nothing is done while somebody else is splitting. -/
def splitBlock (t : ExtendibleHash) (key : Key) : Except Stop ExtendibleHash :=
  let keyHash := h key
  let x := keyHash.toNat % t.capacity
  let target := t.blocks (t.entry x)
  if target.sema = 0 then
    let depth := target.localDepth
    -- `1 << (s[0]->local_depth - 1)` is an `int`
    if depth < 32 then
      let pattern : BitVec 64 := keyHash % BitVec.ofNat 64 (2 ^ depth)
      let split := target.split h
      let s0 := { split.1 with pattern := pattern }
      let s1 := { split.2 with pattern := pattern + (1#32 <<< depth).signExtend 64 }
      let blocks :=
        update (update (update t.blocks (t.entry x) { target with
          sema := -1 }) t.fresh s0) (t.fresh + 1) s1
      if depth < t.globalDepth then do
        let entry ← lsbUpdate t.capacity s0.localDepth t.globalDepth x (t.fresh,
          t.fresh + 1) t.entry
        return { t with entry := entry, blocks := blocks, fresh := t.fresh + 2 }
      else
        -- two copies of the directory, and a store to each
        let entry := update (update (fun d => t.entry (d % t.capacity)) x t.fresh)
          (x + t.capacity) (t.fresh + 1)
        return ⟨2 * t.capacity, entry, t.globalDepth + 1, blocks, t.fresh + 2⟩
    else .error .undefined
  else .ok t

/-- `Insert` with the turns to `RETRY` that are looked at. The list has the capacity of the
directory at each split. -/
def insert : Nat → ExtendibleHash → Key → Value → List Nat × Except Stop ExtendibleHash
  | 0, _, _, _ => ([], .error .running)
  | turns + 1, t, key, value =>
    let x := (h key).toNat % t.capacity
    match (t.blocks (t.entry x)).insert key value (h key) with
    | .error stop => ([], .error stop)
    | .ok (.slot b) => ([], .ok { t with blocks := update t.blocks (t.entry x) b })
    | .ok .full =>
      match t.splitBlock h key with
      | .error stop => ([t.capacity], .error stop)
      | .ok u => (insert turns u key value).map (t.capacity :: ·) id
    | .ok .other => insert turns t key value

/-- `Get`, `none` if it reads a value that nothing has written. -/
def get (t : ExtendibleHash) (key : Key) : Option Value :=
  let b := t.blocks (t.entry ((h key).toNat % t.capacity))
  match (List.range kNumSlot).find? fun i => (b.slots i).key = key with
  | some i => (b.slots i).value
  | none => some noneValue

def insertAll (turns : Nat) :
    ExtendibleHash → List (Key × Value) → List Nat × Except Stop ExtendibleHash
  | t, [] => ([], .ok t)
  | t, op :: ops =>
    match t.insert h turns op.1 op.2 with
    | (splits, .error stop) => (splits, .error stop)
    | (splits, .ok u) => (insertAll turns u ops).map (splits ++ ·) id

end

-- `LSBUpdate` in a directory whose capacity is an `int`.

theorem toInt_of_lt {n : Nat} (lt : n < 2 ^ 31) : toInt n = n := by
  have value : (BitVec.ofNat 32 n).toNat = n := by
    rw [BitVec.toNat_ofNat]
    exact Nat.mod_eq_of_lt (by omega)
  unfold toInt
  rw [BitVec.toInt_eq_toNat_of_lt (by rw [value]; omega), value]

theorem setEntry_of_lt {capacity i b : Nat} {entry : Nat → Nat} (lt : i < capacity) :
    setEntry capacity i b entry = .ok (update entry i b) := by
  rw [setEntry, if_pos ⟨Int.natCast_nonneg i, Int.ofNat_lt.mpr lt⟩, Int.toNat_natCast]

/-- The two indices that agree with `x` except in the bit of `H`. -/
structure Toggled (x H lo : Nat) : Prop where
  here : x % (H * 2) < H ∧ lo = x ∨ H ≤ x % (H * 2) ∧ lo + H = x
  low : lo / H = 2 * (x / (H * 2))
  high : (lo + H) / H = 2 * (x / (H * 2)) + 1
  below : lo % H = x % H

theorem exists_toggled (x : Nat) {H : Nat} (pos : 0 < H) : ∃ lo, Toggled x H lo := by
  have bits := eq_bits x H
  have rest := Nat.mod_lt x pos
  have low : (x / (H * 2) * (H * 2) + x % H) / H = 2 * (x / (H * 2)) := by
    rw [show x / (H * 2) * (H * 2) + x % H = x % H + H * (2 * (x / (H * 2))) by ring,
      Nat.add_mul_div_left _ _ pos, Nat.div_eq_of_lt rest, Nat.zero_add]
  have within : x % (H * 2) = x / H % 2 * H + x % H := by
    have whole := Nat.div_add_mod x (H * 2)
    rw [Nat.mul_comm] at whole
    omega
  refine ⟨x / (H * 2) * (H * 2) + x % H, ?_, low, ?_, ?_⟩
  · rw [within]
    rcases Nat.mod_two_eq_zero_or_one (x / H) with bit | bit
    · rw [bit] at bits ⊢
      exact Or.inl ⟨by omega, by omega⟩
    · rw [bit] at bits ⊢
      exact Or.inr ⟨by omega, by omega⟩
  · rw [Nat.add_div_right _ pos, low]
  · rw [show x / (H * 2) * (H * 2) + x % H = x % H + H * (2 * (x / (H * 2))) by ring,
      Nat.add_mul_mod_self_left, Nat.mod_mod]

theorem Toggled.above {x H lo : Nat} (toggled : Toggled x H lo) :
    lo / (H * 2) = x / (H * 2) ∧ (lo + H) / (H * 2) = x / (H * 2) := by
  have first := Nat.div_div_eq_div_mul lo H 2
  have second := Nat.div_div_eq_div_mul (lo + H) H 2
  rw [toggled.low] at first
  rw [toggled.high] at second
  omega

theorem Toggled.lt {x H lo N : Nat} (toggled : Toggled x H lo) (pos : 0 < H) (dvd : H * 2 ∣ N)
    (less : x < N) : lo + H < N := by
  obtain ⟨k, rfl⟩ := dvd
  have high := Nat.div_lt_of_lt_mul less
  rw [← toggled.above.2, Nat.div_lt_iff_lt_mul (by omega), Nat.mul_comm] at high
  exact high

section
variable {capacity x H lo n : Nat} {s : Nat × Nat} {entry : Nat → Nat}

/-- A call of `LSBUpdate` on a directory part of `2H` entries. -/
theorem tdiv_two (H : Nat) : ((H * 2 : Nat) : Int).tdiv 2 = H := by
  rw [show ((2 : Int)) = ((2 : Nat) : Int) from rfl, ← Int.ofNat_tdiv,
    Nat.mul_div_cancel _ (by decide)]

theorem lsbUpdateBy_zero (pos : 0 < H) (toggled : Toggled x H lo) :
    lsbUpdateBy capacity s 0 ((H * 2 : Nat) : Int) x entry =
      (setEntry capacity lo s.1 entry).bind (setEntry capacity (lo + H : Nat) s.2) := by
  rw [lsbUpdateBy, if_neg (by omega), tdiv_two, ← Int.ofNat_tmod]
  rcases toggled.here with ⟨lt, rfl⟩ | ⟨ge, rfl⟩
  · rw [if_neg (by omega)]
    rfl
  · rw [if_pos (by omega), show (((lo + H : Nat) : Int) - (H : Int)) = (lo : Int) by omega]
    rfl

theorem lsbUpdateBy_succ (pos : 0 < H) (toggled : Toggled x H lo) :
    lsbUpdateBy capacity s (n + 1) ((H * 2 : Nat) : Int) x entry =
      (lsbUpdateBy capacity s n H lo entry).bind (lsbUpdateBy capacity s n H (lo + H : Nat)) := by
  rw [lsbUpdateBy, if_neg (by omega), tdiv_two, ← Int.ofNat_tmod]
  rcases toggled.here with ⟨lt, rfl⟩ | ⟨ge, rfl⟩
  · rw [if_neg (by omega)]
    rfl
  · rw [if_pos (by omega), show (((lo + H : Nat) : Int) - (H : Int)) = (lo : Int) by omega]
    rfl

end

/-- `LSBUpdate` on a part of `2 ^ m` entries redirects those that agree with `x` on the low bits
below the one of the split. -/
theorem lsbUpdateBy_spec (g : Nat) (s : Nat × Nat) (l n x : Nat) (entry : Nat → Nat)
    (le : l + n + 1 ≤ g) (lt : x < 2 ^ g) :
    ∃ entry', lsbUpdateBy (2 ^ g) s n ((2 ^ (l + n + 1) : Nat) : Int) x entry = .ok entry' ∧
      ∀ d, entry' d = if d / 2 ^ (l + n + 1) = x / 2 ^ (l + n + 1) ∧ d % 2 ^ l = x % 2 ^ l then
        (if d / 2 ^ l % 2 = 0 then s.1 else s.2) else entry d := by
  induction n generalizing x entry with
  | zero =>
    have pos : 0 < 2 ^ l := by positivity
    rw [Nat.add_zero, pow_succ]
    obtain ⟨lo, toggled⟩ := exists_toggled x pos
    have inside : lo + 2 ^ l < 2 ^ g := toggled.lt pos (pow_succ 2 l ▸ Nat.pow_dvd_pow 2 le) lt
    refine ⟨update (update entry lo s.1) (lo + 2 ^ l) s.2, ?_, fun d => ?_⟩
    · rw [lsbUpdateBy_zero pos toggled, setEntry_of_lt (by omega)]
      exact setEntry_of_lt inside
    · have first : d = lo ↔ (d / (2 ^ l * 2) = x / (2 ^ l * 2) ∧ d % 2 ^ l = x % 2 ^ l) ∧
          d / 2 ^ l % 2 = 0 := by
        rw [eq_iff_bits d lo (2 ^ l), toggled.above.1, toggled.low,
          toggled.below, Nat.mul_mod_right]
        exact ⟨fun ⟨high, bit, low⟩ => ⟨⟨high, low⟩, bit⟩,
          fun ⟨⟨high, low⟩, bit⟩ => ⟨high, bit, low⟩⟩
      have second : d = lo + 2 ^ l ↔ (d / (2 ^ l * 2) = x / (2 ^ l * 2) ∧ d % 2 ^ l = x % 2 ^ l) ∧
          d / 2 ^ l % 2 = 1 := by
        rw [eq_iff_bits d (lo + 2 ^ l) (2 ^ l), toggled.above.2, toggled.high, Nat.add_mod_right,
          toggled.below, Nat.mul_add_mod]
        exact ⟨fun ⟨high, bit, low⟩ => ⟨⟨high, low⟩, bit⟩,
          fun ⟨⟨high, low⟩, bit⟩ => ⟨high, bit, low⟩⟩
      by_cases near : d / (2 ^ l * 2) = x / (2 ^ l * 2) ∧ d % 2 ^ l = x % 2 ^ l
      · rw [if_pos near]
        rcases Nat.mod_two_eq_zero_or_one (d / 2 ^ l) with bit | bit
        · obtain rfl := first.mpr ⟨near, bit⟩
          rw [if_pos bit, update_of_ne (by omega), update_self]
        · obtain rfl := second.mpr ⟨near, bit⟩
          rw [if_neg (by omega), update_self]
      · rw [if_neg near, update_of_ne fun eq => near (second.mp eq).1,
          update_of_ne fun eq => near (first.mp eq).1]
  | succ n ih =>
    have pos : 0 < 2 ^ (l + n + 1) := by positivity
    rw [← Nat.add_assoc, pow_succ _ (l + n + 1)]
    obtain ⟨lo, toggled⟩ := exists_toggled x pos
    have inside : lo + 2 ^ (l + n + 1) < 2 ^ g :=
      toggled.lt pos (pow_succ 2 (l + n + 1) ▸ Nat.pow_dvd_pow 2 le) lt
    have dvd : 2 ^ l ∣ 2 ^ (l + n + 1) := Nat.pow_dvd_pow 2 (by omega)
    obtain ⟨entry₁, eq₁, apply₁⟩ := ih lo entry (by omega) (by omega)
    obtain ⟨entry₂, eq₂, apply₂⟩ := ih (lo + 2 ^ (l + n + 1)) entry₁ (by omega) inside
    refine ⟨entry₂, ?_, fun d => ?_⟩
    · rw [lsbUpdateBy_succ pos toggled, eq₁]
      exact eq₂
    · -- the two halves together are the part, and `x` agrees with both on the low bits
      have low : lo % 2 ^ l = x % 2 ^ l := by
        rw [← Nat.mod_mod_of_dvd lo dvd, toggled.below, Nat.mod_mod_of_dvd x dvd]
      have high : (lo + 2 ^ (l + n + 1)) % 2 ^ l = x % 2 ^ l := by
        rw [Nat.add_mod, Nat.mod_eq_zero_of_dvd dvd, Nat.add_zero, Nat.mod_mod, low]
      have part : d / (2 ^ (l + n + 1) * 2) = x / (2 ^ (l + n + 1) * 2) ↔
          d / 2 ^ (l + n + 1) = lo / 2 ^ (l + n + 1) ∨
            d / 2 ^ (l + n + 1) = (lo + 2 ^ (l + n + 1)) / 2 ^ (l + n + 1) := by
        rw [toggled.low, toggled.high, ← Nat.div_div_eq_div_mul d]
        omega
      rw [apply₂, apply₁, low, high]
      by_cases agree : d % 2 ^ l = x % 2 ^ l
      · by_cases second : d / 2 ^ (l + n + 1) = (lo + 2 ^ (l + n + 1)) / 2 ^ (l + n + 1)
        · exact (if_pos ⟨second, agree⟩).trans (if_pos ⟨part.mpr (Or.inr second), agree⟩).symm
        · rw [if_neg fun both => second both.1]
          exact if_congr ⟨fun ⟨eq, _⟩ => ⟨part.mpr (Or.inl eq), agree⟩,
            fun ⟨eq, _⟩ => ⟨(part.mp eq).resolve_right second, agree⟩⟩ rfl rfl
      · rw [if_neg fun both => agree both.2, if_neg fun both => agree both.2, if_neg fun both =>
          agree both.2]

/-- `LSBUpdate` redirects exactly the entries that agree with `x` on the bits of the old local
depth, by the next bit. -/
theorem lsbUpdate_spec {g l x : Nat} (s : Nat × Nat) (entry : Nat → Nat) (deep : l < g)
    (small : g < 31) (lt : x < 2 ^ g) :
    ∃ entry', lsbUpdate (2 ^ g) (l + 1) g x s entry = .ok entry' ∧
      (∀ d < 2 ^ g, entry' d = redirected entry l x s.1 s.2 d) ∧
      ∀ d, 2 ^ g ≤ d → entry' d = entry d := by
  have pow : 2 ^ g < 2 ^ 31 := Nat.pow_lt_pow_right (by decide) small
  obtain ⟨entry', eq, apply⟩ := lsbUpdateBy_spec g s l (g - (l + 1)) x entry (by omega) lt
  rw [show l + (g - (l + 1)) + 1 = g by omega] at eq apply
  refine ⟨entry', ?_, fun d less => ?_, fun d ge => ?_⟩
  · unfold lsbUpdate
    rw [toInt_of_lt (by omega), toInt_of_lt (by omega), toInt_of_lt (by omega),
      toInt_of_lt (by omega), if_pos (by omega)]
    rw [← eq]
    congr 1
    omega
  · rw [apply, Nat.div_eq_of_lt less, Nat.div_eq_of_lt lt]
    exact if_congr ⟨And.right, fun agree => ⟨rfl, agree⟩⟩ rfl rfl
  · rw [apply, if_neg]
    rintro ⟨same, _⟩
    rw [Nat.div_eq_of_lt lt, Nat.div_eq_zero_iff] at same
    omega

end ExtendibleHash

end Xcache
