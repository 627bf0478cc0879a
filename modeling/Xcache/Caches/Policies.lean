import Mathlib.Tactic
import Xcache.Lib.Nodes

/-! The replacement policies of `server/cache-replacement`: `ICachePolicy` and its LRU, LFU and FIFO
implementations. -/

namespace Xcache.Caches

open Nodes

/-- A policy with the state that it keeps. `none` stands for undefined behaviour: the end of an
empty container is read, or an iterator that points to no node is followed. -/
structure ICachePolicy (Key : Type) where
  State : Type
  new : State
  insert : State → Key → State
  touch : State → Key → Option State
  erase : State → Key → Option State
  replCandidate : State → Option Key
  /-- The keys in the policy's own container. -/
  keys : State → List Key
  /-- The keys of the table of iterators beside the container. -/
  finds : State → Key → Bool

section
variable {Key : Type} [DecidableEq Key]

namespace LRUCachePolicy

structure State (Key : Type) where
  lruQueue : List (Node Key)
  keyFinder : Key → Option Nat
  fresh : Nat

def new : State Key := ⟨[], fun _ => none, 0⟩

def insert (s : State Key) (key : Key) : State Key where
  lruQueue := ⟨s.fresh, key⟩ :: s.lruQueue
  keyFinder := Function.update s.keyFinder key (some s.fresh)
  fresh := s.fresh + 1

/-- The splice moves the node itself, so its iterator stays valid. -/
def touch (s : State Key) (key : Key) : Option (State Key) :=
  (s.keyFinder key).bind fun id => (nodeAt s.lruQueue id).map fun n =>
    { s with lruQueue := n :: s.lruQueue.erase n }

/-- Whatever the key, the last node goes. -/
def erase (s : State Key) (_key : Key) : Option (State Key) :=
  s.lruQueue.getLast?.map fun n =>
    { s with keyFinder := Function.update s.keyFinder n.item none, lruQueue := s.lruQueue.dropLast }

def replCandidate (s : State Key) : Option Key := s.lruQueue.getLast?.map Node.item

end LRUCachePolicy

def lruCachePolicy (Key : Type) [DecidableEq Key] : ICachePolicy Key where
  State := LRUCachePolicy.State Key
  new := LRUCachePolicy.new
  insert := LRUCachePolicy.insert
  touch := LRUCachePolicy.touch
  erase := LRUCachePolicy.erase
  replCandidate := LRUCachePolicy.replCandidate
  keys s := Nodes.keys id s.lruQueue
  finds s key := (s.keyFinder key).isSome

namespace LFUCachePolicy

/-- An element of the multimap: the frequency, a `size_t`, and the key. -/
abbrev Entry (Key : Type) := Nat × Key

structure State (Key : Type) where
  frequencyStorage : List (Node (Entry Key))
  lfuStorage : Key → Option Nat
  fresh : Nat

def new : State Key := ⟨[], fun _ => none, 0⟩

def lowerBound (storage : List (Node (Entry Key))) (freq : Nat) : Nat :=
  (storage.takeWhile fun n => decide (n.item.1 < freq)).length

def upperBound (storage : List (Node (Entry Key))) (freq : Nat) : Nat :=
  (storage.takeWhile fun n => decide (n.item.1 ≤ freq)).length

/-- `std::multimap::emplace_hint`: of the positions that keep the order, the one closest to the
hint. -/
def emplaceHint (storage : List (Node (Entry Key))) (hint : Nat) (n : Node (Entry Key)) :
    List (Node (Entry Key)) :=
  let at_ := max (lowerBound storage n.item.1) (min hint (upperBound storage n.item.1))
  storage.take at_ ++ n :: storage.drop at_

def initVal : Nat := 1

def insert (s : State Key) (key : Key) : State Key where
  frequencyStorage := emplaceHint s.frequencyStorage 0 ⟨s.fresh, initVal, key⟩
  lfuStorage := Function.update s.lfuStorage key (some s.fresh)
  fresh := s.fresh + 1

def touch (s : State Key) (key : Key) : Option (State Key) :=
  (s.lfuStorage key).bind fun id => (nodeAt s.frequencyStorage id).map fun n =>
    let rest := s.frequencyStorage.erase n
    { frequencyStorage := emplaceHint rest rest.length ⟨s.fresh, (n.item.1 + 1) % 2 ^ 64, n.item.2⟩
      lfuStorage := Function.update s.lfuStorage key (some s.fresh)
      fresh := s.fresh + 1 }

def erase (s : State Key) (key : Key) : Option (State Key) :=
  (s.lfuStorage key).bind fun id => (nodeAt s.frequencyStorage id).map fun n =>
    { s with
      frequencyStorage := s.frequencyStorage.erase n
      lfuStorage := Function.update s.lfuStorage key none }

def replCandidate (s : State Key) : Option Key := s.frequencyStorage.head?.map fun n => n.item.2

end LFUCachePolicy

def lfuCachePolicy (Key : Type) [DecidableEq Key] : ICachePolicy Key where
  State := LFUCachePolicy.State Key
  new := LFUCachePolicy.new
  insert := LFUCachePolicy.insert
  touch := LFUCachePolicy.touch
  erase := LFUCachePolicy.erase
  replCandidate := LFUCachePolicy.replCandidate
  keys s := Nodes.keys Prod.snd s.frequencyStorage
  finds s key := (s.lfuStorage key).isSome

namespace FIFOCachePolicy

def insert (fifoQueue : List Key) (key : Key) : List Key := key :: fifoQueue

def touch (fifoQueue : List Key) (_key : Key) : Option (List Key) := some fifoQueue

def erase (fifoQueue : List Key) (_key : Key) : Option (List Key) :=
  if fifoQueue = [] then none else some fifoQueue.dropLast

def replCandidate (fifoQueue : List Key) : Option Key := fifoQueue.getLast?

end FIFOCachePolicy

def fifoCachePolicy (Key : Type) [DecidableEq Key] : ICachePolicy Key where
  State := List Key
  new := []
  insert := FIFOCachePolicy.insert
  touch := FIFOCachePolicy.touch
  erase := FIFOCachePolicy.erase
  replCandidate := FIFOCachePolicy.replCandidate
  keys fifoQueue := fifoQueue
  finds fifoQueue key := decide (key ∈ fifoQueue)

inductive Kind where
  | lru
  | lfu
  | fifo
  deriving DecidableEq

def Kind.policy (Key : Type) [DecidableEq Key] : Kind → ICachePolicy Key
  | .lru => lruCachePolicy Key
  | .lfu => lfuCachePolicy Key
  | .fifo => fifoCachePolicy Key

/-- What the cache may rely on, for keys in the policy's container: `victim s key` is the key that
`erase` takes out when it is asked for `key`. -/
structure Lawful (P : ICachePolicy Key) (Good : P.State → Prop)
    (victim : P.State → Key → Key) : Prop where
  new : Good P.new ∧ P.keys P.new = []
  nodup : ∀ {s}, Good s → (P.keys s).Nodup
  finds : ∀ {s}, Good s → ∀ key, P.finds s key = true ↔ key ∈ P.keys s
  insert : ∀ {s key}, Good s → key ∉ P.keys s →
    Good (P.insert s key) ∧ (P.keys (P.insert s key)).Perm (key :: P.keys s)
  touch : ∀ {s key}, Good s → key ∈ P.keys s → ∃ t, P.touch s key = some t ∧ Good t ∧
    (P.keys t).Perm (P.keys s)
  candidate : ∀ {s}, Good s → P.keys s ≠ [] → ∃ c ∈ P.keys s, P.replCandidate s = some c ∧
    victim s c = c
  erase : ∀ {s key}, Good s → key ∈ P.keys s →
    ∃ t, P.erase s key = some t ∧ Good t ∧ (victim s key :: P.keys t).Perm (P.keys s)

theorem dropLast_perm {α : Type*} {l : List α} {a : α} (last : l.getLast? = some a) :
    (a :: l.dropLast).Perm l := by
  have whole := List.dropLast_append_getLast? a last
  have moved := (List.perm_append_singleton a l.dropLast).symm
  rwa [whole] at moved

namespace LRUCachePolicy

def Good (s : State Key) : Prop := Indexed id s.lruQueue s.keyFinder s.fresh

def victim (s : State Key) (key : Key) : Key := (replCandidate s).getD key

variable {s : State Key} {key : Key}

theorem touch_spec (good : Good s) (mem : key ∈ Nodes.keys id s.lruQueue) :
    ∃ n ∈ s.lruQueue, n.item = key ∧ touch s key = some
      { s with lruQueue := n :: s.lruQueue.erase n } := by
  obtain ⟨n, inside, eq, found, follows⟩ := Indexed.find good mem
  exact ⟨n, inside, eq, by simp [touch, found, follows]⟩

omit [DecidableEq Key] in
theorem last_spec (nonempty : Nodes.keys id s.lruQueue ≠ []) :
    ∃ n ∈ s.lruQueue, s.lruQueue.getLast? = some n ∧ replCandidate s = some n.item := by
  have some_ : s.lruQueue ≠ [] := fun eq => nonempty (by simp [eq])
  refine ⟨s.lruQueue.getLast some_, List.getLast_mem some_, List.getLast?_eq_some_getLast some_, ?_⟩
  simp [replCandidate, List.getLast?_eq_some_getLast some_]

theorem lawful : Lawful (lruCachePolicy Key) Good victim where
  new := ⟨Indexed.nil, rfl⟩
  nodup good := good.nodup
  finds good key := good.isSome_iff key
  insert good missing := ⟨Indexed.cons good missing, List.Perm.refl _⟩
  touch := by
    intro s key good mem
    obtain ⟨n, inside, -, eq⟩ := touch_spec good mem
    have moved := (List.perm_cons_erase inside).symm
    exact ⟨_, eq, good.perm moved.symm, keys_perm id moved⟩
  candidate := by
    intro s _ nonempty
    obtain ⟨n, inside, -, eq⟩ := last_spec nonempty
    exact ⟨n.item, mem_keys.mpr ⟨n, inside, rfl⟩, eq, by simp [victim, eq]⟩
  erase := by
    intro s key good mem
    obtain ⟨n, -, last, eq⟩ := last_spec (List.ne_nil_of_mem mem)
    have moved := dropLast_perm last
    refine ⟨⟨s.lruQueue.dropLast, Function.update s.keyFinder n.item none, s.fresh⟩, ?_, ?_, ?_⟩
    · simp [lruCachePolicy, erase, last]
    · exact (good.perm moved.symm).uncons
    · simpa [lruCachePolicy, victim, eq] using keys_perm id moved

end LRUCachePolicy

namespace LFUCachePolicy

def Good (s : State Key) : Prop := Indexed Prod.snd s.frequencyStorage s.lfuStorage s.fresh

variable {s : State Key} {key : Key}

omit [DecidableEq Key] in
theorem emplaceHint_perm (storage : List (Node (Entry Key))) (hint : Nat) (n : Node (Entry Key)) :
    (emplaceHint storage hint n).Perm (n :: storage) := by
  have moved :=
    @List.perm_middle _ n (storage.take (max (lowerBound storage n.item.1)
      (min hint (upperBound storage n.item.1))))
    (storage.drop (max (lowerBound storage n.item.1) (min hint (upperBound storage n.item.1))))
  rwa [List.take_append_drop] at moved

theorem touch_spec (good : Good s) (mem : key ∈ Nodes.keys Prod.snd s.frequencyStorage) :
    ∃ n ∈ s.frequencyStorage, n.item.2 = key ∧ touch s key = some
      { frequencyStorage := emplaceHint (s.frequencyStorage.erase n)
          (s.frequencyStorage.erase n).length ⟨s.fresh, (n.item.1 + 1) % 2 ^ 64, n.item.2⟩
        lfuStorage := Function.update s.lfuStorage key (some s.fresh)
        fresh := s.fresh + 1 } := by
  obtain ⟨n, inside, eq, found, follows⟩ := Indexed.find good mem
  exact ⟨n, inside, eq, by simp [touch, found, follows]⟩

theorem erase_spec (good : Good s) (mem : key ∈ Nodes.keys Prod.snd s.frequencyStorage) :
    ∃ n ∈ s.frequencyStorage, n.item.2 = key ∧ erase s key = some
      { s with
        frequencyStorage := s.frequencyStorage.erase n
        lfuStorage := Function.update s.lfuStorage key none } := by
  obtain ⟨n, inside, eq, found, follows⟩ := Indexed.find good mem
  exact ⟨n, inside, eq, by simp [erase, found, follows]⟩

omit [DecidableEq Key] in
theorem head_spec (nonempty : Nodes.keys Prod.snd s.frequencyStorage ≠ []) :
    ∃ n rest, s.frequencyStorage = n :: rest ∧ replCandidate s = some n.item.2 := by
  cases eq : s.frequencyStorage with
  | nil => simp [eq] at nonempty
  | cons n rest => exact ⟨n, rest, rfl, by simp [replCandidate, eq]⟩

theorem lawful : Lawful (lfuCachePolicy Key) Good fun _ key => key where
  new := ⟨Indexed.nil, rfl⟩
  nodup good := good.nodup
  finds good key := good.isSome_iff key
  insert := by
    intro s key good missing
    have placed := emplaceHint_perm s.frequencyStorage 0 ⟨s.fresh, initVal, key⟩
    exact ⟨(Indexed.cons (a := (initVal, key)) good missing).perm placed.symm,
      keys_perm Prod.snd placed⟩
  touch := by
    intro s key good mem
    obtain ⟨n, inside, rfl, eq⟩ := touch_spec good mem
    have taken := List.perm_cons_erase inside
    have placed := emplaceHint_perm (s.frequencyStorage.erase n) (s.frequencyStorage.erase n).length
      ⟨s.fresh, (n.item.1 + 1) % 2 ^ 64, n.item.2⟩
    have again := (Indexed.perm good taken).retag (a := ((n.item.1 + 1) % 2 ^ 64, n.item.2)) rfl
    refine ⟨_, eq, again.perm placed.symm, ?_⟩
    exact (keys_perm Prod.snd placed).trans (keys_perm Prod.snd taken).symm
  candidate := by
    intro s _ nonempty
    obtain ⟨n, rest, eq, first⟩ := head_spec nonempty
    exact ⟨n.item.2, mem_keys.mpr ⟨n, by simp [eq], rfl⟩, first, rfl⟩
  erase := by
    intro s key good mem
    obtain ⟨n, inside, rfl, eq⟩ := erase_spec good mem
    have taken := List.perm_cons_erase inside
    exact ⟨_, eq, (Indexed.perm good taken).uncons, (keys_perm Prod.snd taken).symm⟩

end LFUCachePolicy

namespace FIFOCachePolicy

def victim (fifoQueue : List Key) (key : Key) : Key := (replCandidate fifoQueue).getD key

omit [DecidableEq Key] in
theorem last_spec {fifoQueue : List Key} (nonempty : fifoQueue ≠ []) :
    ∃ c ∈ fifoQueue, replCandidate fifoQueue = some c :=
  ⟨fifoQueue.getLast nonempty, List.getLast_mem nonempty, List.getLast?_eq_some_getLast nonempty⟩

theorem lawful : Lawful (fifoCachePolicy Key) List.Nodup victim where
  new := ⟨List.nodup_nil, rfl⟩
  nodup good := good
  finds := by
    intro fifoQueue _ key
    simp [fifoCachePolicy]
  insert good missing := ⟨List.nodup_cons.mpr ⟨missing, good⟩, List.Perm.refl _⟩
  touch good _ := ⟨_, rfl, good, List.Perm.refl _⟩
  candidate := by
    intro fifoQueue _ nonempty
    obtain ⟨c, inside, eq⟩ := @last_spec Key fifoQueue nonempty
    exact ⟨c, inside, eq, by simp [victim, eq]⟩
  erase := by
    intro fifoQueue key good mem
    have nonempty : fifoQueue ≠ [] := List.ne_nil_of_mem mem
    obtain ⟨c, -, eq⟩ := last_spec nonempty
    refine ⟨fifoQueue.dropLast, if_neg nonempty, good.sublist (List.dropLast_sublist fifoQueue), ?_⟩
    simpa [fifoCachePolicy, victim, eq] using dropLast_perm eq

end FIFOCachePolicy

def Kind.Good : (kind : Kind) → (kind.policy Key).State → Prop
  | .lru => LRUCachePolicy.Good
  | .lfu => LFUCachePolicy.Good
  | .fifo => List.Nodup

/-- Only the LFU policy looks at the key that it is asked to erase. -/
def Kind.victim : (kind : Kind) → (kind.policy Key).State → Key → Key
  | .lru => LRUCachePolicy.victim
  | .lfu => fun _ key => key
  | .fifo => FIFOCachePolicy.victim

theorem Kind.lawful : ∀ kind : Kind, Lawful (kind.policy Key) kind.Good kind.victim
  | .lru => LRUCachePolicy.lawful
  | .lfu => LFUCachePolicy.lawful
  | .fifo => FIFOCachePolicy.lawful

end

end Xcache.Caches
