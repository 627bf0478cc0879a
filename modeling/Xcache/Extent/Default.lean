import Xcache.Extent.Store

/-! Extents in the default store, `KV` over `cceh.cpp`. `Insert_extent` stores an extent where
each of its pieces begins, but `Get_extent` returns from its loop before it looks anywhere but
at the key itself. -/

namespace Xcache

namespace CCEH

/-- How far `Insert_extent` goes on from `currentKey` when more than one key is left. It is `none`
when `__builtin_ctz` is called with 0. -/
def subextentSize (currentKey len : BitVec 64) : Option (BitVec 64) :=
  if currentKey % 2 = 1 then some 1
  else if currentKey ≠ 0 then
    -- `ffs` and `__builtin_ctz` see the low half of their argument, and the second shift is one of
    -- an `int`
    let order : BitVec 64 := BitVec.ofInt 64 (ffs (currentKey.setWidth 32) - 1)
    let reach : BitVec 64 := shl 1 order.toNat
    (builtinCtz ((if reach < len then reach else len).setWidth 32)).map fun n =>
      ((1#32) <<< n).signExtend 64
  else some (len / 2)

/-- `CCEH::Insert_extent`, with the depth of its recursion as fuel. -/
def insertExtent {P : Type} :
    Nat → (Key → Option P) → Key → BitVec 64 → BitVec 64 → P → Option (Key → Option P)
  | 0, _, _, _, _, _ => none
  | fuel + 1, table, key, clusterNum, len, value =>
    if len = 0 then some table
    else
      let currentKey := key + clusterNum
      let table := Function.update table currentKey (some value)
      if len = 1 then some table
      else (subextentSize currentKey len).bind fun size =>
        insertExtent fuel table key (clusterNum + size) (len - size) value

def getExtent {P : Type} (table : Key → Option P) (key : Key) (clusterNum : BitVec 64) : Option P :=
  table (key + clusterNum)

/-- The pieces that the recursion makes of a span, as long as it stays inside. -/
def pieces (currentKey len : BitVec 64) : List Range :=
  if len = 0 then []
  else
    match subextentSize currentKey len with
    | none => [⟨currentKey.toNat, len.toNat⟩]
    | some size =>
      if _inside : len ≠ 1 ∧ 0 < size ∧ size ≤ len then
        ⟨currentKey.toNat, size.toNat⟩ :: pieces (currentKey + size) (len - size)
      else [⟨currentKey.toNat, len.toNat⟩]
termination_by len.toNat
decreasing_by
  have pos : 0 < size.toNat := BitVec.lt_def.mp _inside.2.1
  have le : size.toNat ≤ len.toNat := BitVec.le_def.mp _inside.2.2
  rw [BitVec.toNat_sub_of_le _inside.2.2]
  omega

end CCEH

namespace KV

def insertExtent (fuel : Nat) : ExtentStore → Extent → Option ExtentStore :=
  ExtentStore.insertExtent fun table span ptr =>
    CCEH.insertExtent fuel table span.key 0 span.len ptr

def getExtent : ExtentStore → Key → Option Value :=
  ExtentStore.getExtent fun table key => CCEH.getExtent table key 0

end KV

namespace KV

/-- Key 5 of the extent of keys 4 to 7 gets no address. -/
theorem interior_key_not_found : ∃ s,
    ExtentStore.insertAll (insertExtent 5) ExtentStore.empty [⟨⟨4, 4⟩, 8192⟩] = some s ∧
      (Span.mk 4 4).range.Has (5 : Key).toNat ∧ getExtent s 5 = some noneValue ∧
        getExtent s 5 ≠ some (8192 + 4096 * (5 - 4)) := by
  refine ⟨⟨[⟨⟨4, 4⟩, 8192⟩], Function.update (fun _ => none) 4 (some 0)⟩,
    ?_, by decide, by decide, by decide⟩
  have size : CCEH.subextentSize 4 4 = some 4 := by decide +kernel
  have table : CCEH.insertExtent 5 (fun _ => none) 4 0 4 0 =
      some (Function.update (fun _ => none) 4 (some 0)) := by
    rw [CCEH.insertExtent, if_neg (by decide), if_neg (by decide)]
    change (CCEH.subextentSize 4 4).bind _ = _
    rw [size]
    rfl
  rw [ExtentStore.insertAll, insertExtent, ExtentStore.insertExtent]
  change ((CCEH.insertExtent 5 (fun _ => none) 4 0 4 0).map _).bind _ = _
  rw [table]
  rfl

end KV

end Xcache
