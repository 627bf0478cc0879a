import Mathlib.Tactic

/-! The ring hash table of `hotring/hotring.c`. Nodes live in a memory that maps pointers to them;
`none` stands for undefined behaviour, for a pointer to nothing and for a loop that does not end. -/

namespace Xcache.HotRing

abbrev Ptr := Nat

/-- `struct list_head`: one word, with the address in its low 48 bits and a counter above. -/
structure ListHead where
  addr : Ptr
  counter : BitVec 14
  deriving DecidableEq

structure HashNode where
  list : ListHead
  tag : BitVec 64
  key : BitVec 64
  value : BitVec 64

/-- `struct head`. It is reached only through its slot. -/
structure Head where
  node : Ptr
  counter : BitVec 15

structure Hash where
  n : Nat
  k : Nat
  size : Nat
  slots : Nat → Option Head

structure Mem where
  nodes : Ptr → Option HashNode
  fresh : Ptr

namespace Mem

def start : Mem := ⟨fun _ => none, 1⟩

def set (mem : Mem) (p : Ptr) (node : HashNode) : Mem :=
  { mem with nodes := Function.update mem.nodes p (some node) }

def hashNodeAlloc (mem : Mem) : Mem :=
  { mem.set mem.fresh ⟨⟨0, 0⟩, 0, 0, 0⟩ with fresh := mem.fresh + 1 }

def free (mem : Mem) (p : Ptr) : Mem := { mem with nodes := Function.update mem.nodes p none }

def next (mem : Mem) (p : Ptr) : Option Ptr := (mem.nodes p).map (·.list.addr)

/-- `list_add`: the new node takes over the whole word of `prev`. -/
def listAdd (mem : Mem) (new prev : Ptr) : Option Mem := do
  let newNode ← mem.nodes new
  let prevNode ← mem.nodes prev
  return (mem.set new { newNode with list := prevNode.list }).set prev { prevNode with
    list.addr := new }

end Mem

/-- `hashCode`: the bucket and the tag. The first shift is one of an `unsigned long`, the second
one of an `int`. -/
def hashCode (h : Hash) (key : BitVec 64) : Option (Nat × BitVec 64) :=
  if h.n < 64 ∧ h.n - h.k < 32 then
    let hashValue := key % (1#64 <<< h.n)
    let range := ((1#32) <<< (h.n - h.k)).signExtend 64
    some ((hashValue / range).toNat, hashValue % range)
  else none

/-- `hotring_alloc`. For more bits the size is negative or undefined. -/
def hotringAlloc (nbits kbits : Nat) : Option Hash :=
  if kbits < 31 then some ⟨nbits, kbits, 1 <<< kbits, fun _ => none⟩ else none

def Hash.setSlot (h : Hash) (index : Nat) (head : Option Head) : Hash :=
  { h with slots := Function.update h.slots index head }

/-- The loop of `__hash_create`: the node behind which the new one goes. -/
def searchPlace (mem : Mem) (tag : BitVec 64) (head : Ptr) : Nat → Ptr → Ptr → Option Ptr
  | 0, _, _ => none
  | fuel + 1, prev, p =>
    if p = head then some prev
    else do
      let prevNode ← mem.nodes prev
      let nextNode ← mem.nodes p
      if nextNode.tag < prevNode.tag ∧ (tag ≤ nextNode.tag ∨ prevNode.tag < tag) then some prev
      else if prevNode.tag < tag ∧ tag ≤ nextNode.tag then some prev
      else searchPlace mem tag head fuel p nextNode.list.addr

/-- `__hash_create`. A walk over more nodes than there are does not end. -/
def hashCreate (mem : Mem) (h : Hash) (index : Nat) (tag : BitVec 64) : Option (Mem × Hash × Ptr) :=
  if index < h.size then do
    let node := mem.fresh
    let mem := mem.hashNodeAlloc
    let (mem, h) ← match h.slots index with
      | some head => do
          let headNode ← mem.nodes head.node
          let prev ← searchPlace mem tag head.node mem.fresh head.node headNode.list.addr
          let mem ← mem.listAdd node prev
          pure (mem, h)
      | none => do
          let fresh ← mem.nodes node
          pure (mem.set node { fresh with list := ⟨node, 0⟩ }, h.setSlot index (some ⟨node, 0⟩))
    let created ← mem.nodes node
    pure (mem.set node { created with list.counter := 1 }, h, node)
  else none

def insertEntries (mem : Mem) (node : Ptr) (key tag value : BitVec 64) : Option (Mem × Int) := do
  let entry ← mem.nodes node
  if entry.value ≠ 0 then return (mem, -17)
  else return (mem.set node { entry with key := key, tag := tag, value := value }, 1)

def hotringInsert (mem : Mem) (h : Hash) (key value : BitVec 64) : Option (Mem × Hash × Int) := do
  let (hashIndex, hashTag) ← hashCode h key
  let (mem, h, node) ← hashCreate mem h hashIndex hashTag
  let (mem, error) ← insertEntries mem node key hashTag value
  return (mem, h, if error < 0 then error else 0)

inductive HotringGet
  | notFound
  | success
  | accessHot
  | accessCold
  deriving DecidableEq

/-- The loop of `__hotring_get`: the node with the key and the one before it. -/
def searchKey (mem : Mem) (key : BitVec 64) (head : Ptr) :
    Nat → Ptr → Ptr → Option (Option (Ptr × Ptr))
  | 0, _, _ => none
  | fuel + 1, prev, p =>
    if p = head then some none
    else do
      let prevNode ← mem.nodes prev
      let tmp ← mem.nodes p
      if tmp.key = key then some (some (p, prev))
      else if prevNode.key < key ∧ key < tmp.key then some none
      else if key < tmp.key ∧ tmp.key < prevNode.key then some none
      else if tmp.key < prevNode.key ∧ prevNode.key < key then some none
      else searchKey mem key head fuel p tmp.list.addr

/-- What `__hotring_get` returns; `nodep` is left alone when nothing is found. -/
structure GetResult where
  ret : HotringGet
  nodep : Option Ptr
  prevp : Option Ptr

def Mem.count (mem : Mem) (p : Ptr) : Option Mem := do
  let node ← mem.nodes p
  return mem.set p { node with list.counter := node.list.counter + 1 }

def hotringGet (mem : Mem) (h : Hash) (key : BitVec 64) : Option (Mem × Hash × GetResult) := do
  let (hashIndex, _) ← hashCode h key
  if hashIndex < h.size then
    match h.slots hashIndex with
    | none => return (mem, h, ⟨.notFound, none, none⟩)
    | some head =>
      let h := h.setSlot hashIndex (some { head with counter := head.counter + 1 })
      let headNode ← mem.nodes head.node
      if headNode.key = key then
        return (← mem.count head.node, h, ⟨.accessHot, some head.node, none⟩)
      else
        match ← searchKey mem key head.node mem.fresh head.node headNode.list.addr with
        | some (p, prev) => return (← mem.count p, h, ⟨.accessCold, some p, some prev⟩)
        | none => return (mem, h, ⟨.notFound, none, none⟩)
  else none

def Mem.listDel (mem : Mem) (prev : Ptr) (addr : Ptr) : Option Mem := do
  let prevNode ← mem.nodes prev
  return mem.set prev { prevNode with list.addr := addr }

/-- The loop of `hotring_delete_head` to the last node of the ring, if there is one behind the
head. -/
def searchLast (mem : Mem) (head : Ptr) : Nat → Option Ptr → Ptr → Option (Option Ptr)
  | 0, _, _ => none
  | fuel + 1, prev, p =>
    if p = head then some prev else do searchLast mem head fuel (some p) (← mem.next p)

/-- `hotring_delete_head`. The test for a single node compares the whole word with the address. -/
def hotringDeleteHead (mem : Mem) (h : Hash) (index : Nat) : Option (Mem × Hash) := do
  let head ← h.slots index
  let headNode ← mem.nodes head.node
  if headNode.list = ⟨head.node, 0⟩ then
    return (mem.free head.node, h.setSlot index none)
  else
    let prev ← (← searchLast mem head.node mem.fresh none headNode.list.addr)
    let mem ← mem.listDel prev headNode.list.addr
    return (mem.free head.node, h.setSlot index (some ⟨headNode.list.addr, 0⟩))

def nbits : Nat := 10

def shiftIndex (i hashTagBits : Nat) : BitVec 64 :=
  ((BitVec.ofNat 32 i) <<< hashTagBits).signExtend 64

/-- One milestone: a node in the old ring, and a slot of the new table for it. -/
def milestone (mem : Mem) (h new : Hash) (i : Nat) (key tag : BitVec 64) (slot : Nat) :
    Option (Mem × Hash × Hash) :=
  do
  let (mem, h, node) ← hashCreate mem h i tag
  let (mem, _) ← insertEntries mem node key tag 0
  if slot < new.size then return (mem, h, new.setSlot slot (some ⟨node, 0⟩)) else none

/-- The two milestones of an old bucket. -/
def milestones (hashTagBits : Nat) (s : Mem × Hash × Hash) (i : Nat) : Option (Mem × Hash × Hash) :=
  let (mem, h, new) := s
  let halfTag : BitVec 64 := 1#64 <<< (hashTagBits - 1)
  match h.slots i with
  | none => some (mem, h, new)
  | some _ => do
      let (mem, h, new) ← milestone mem h new i (shiftIndex i hashTagBits + halfTag) halfTag
        (i * 2 + 1)
      milestone mem h new i (shiftIndex i hashTagBits) 0 (i * 2)

def hotringRehashInit (mem : Mem) (h : Hash) : Option (Mem × Hash × Hash) := do
  let new ← hotringAlloc nbits (h.k + 1)
  (List.range h.size).foldlM (milestones (h.n - h.k)) (mem, h, new)

def Mem.link (mem : Mem) (x y : Ptr) : Option Mem := do
  let node ← mem.nodes x
  return mem.set x { node with list := ⟨y, 0⟩ }

/-- What the loop of `hotring_rehash` carries along: `ring1_head` and `ring2_head` keep what they
had when a lookup fails, and have nothing at first. -/
structure Cut where
  mem : Mem
  new : Hash
  ring1Head : Option Ptr
  ring2Head : Option Ptr

/-- One turn of the loop that cuts the rings. The tails are `NULL` when the lookup fails or ends at
the head. -/
def cutRing (hashTagBits : Nat) (s : Cut) (i : Nat) : Option Cut :=
  let halfTag : BitVec 64 := 1#64 <<< (hashTagBits - 1)
  match s.new.slots i with
  | none => some s
  | some _ => do
      let (mem, new, first) ← hotringGet s.mem s.new (shiftIndex i hashTagBits)
      let ring1Head := first.nodep <|> s.ring1Head
      let (mem, new, second) ← hotringGet mem new (shiftIndex i hashTagBits + halfTag)
      let ring2Head := second.nodep <|> s.ring2Head
      let mem ← mem.link (← second.prevp) (← ring1Head)
      let mem ← mem.link (← first.prevp) (← ring2Head)
      return ⟨mem, new, ring1Head, ring2Head⟩

def deleteMilestone (s : Mem × Hash) (i : Nat) : Option (Mem × Hash) :=
  match s.2.slots i with
  | none => some s
  | some _ => hotringDeleteHead s.1 s.2 i

def hotringRehash (mem : Mem) (h : Hash) : Option (Mem × Hash) := do
  let (mem, h, new) ← hotringRehashInit mem h
  let cut ← (List.range new.size).foldlM (cutRing (h.n - h.k)) ⟨mem, new, none, none⟩
  (List.range cut.new.size).foldlM deleteMilestone (cut.mem, cut.new)

end Xcache.HotRing
