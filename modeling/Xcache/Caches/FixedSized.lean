import Mathlib.Data.Finmap
import Xcache.Caches.Policies
import Xcache.Lib.Runs

/-! `fixed_sized_cache` of `server/cache-replacement/cache.hpp`, driven by a policy, and when the
two keep track of the same keys. -/

namespace Xcache.Caches

open Nodes

section
variable {Key : Type} [DecidableEq Key] {Value : Type}

structure FixedSizedCache (P : ICachePolicy Key) (Value : Type) where
  cacheItemsMap : AList fun _ : Key => Value
  cachePolicy : P.State
  maxCacheSize : Nat
  evictQueue : List Key

/-- The constructor reads 0 as the largest `size_t`. -/
def limit (maxSize : Nat) : Nat := if maxSize = 0 then 2 ^ 64 - 1 else maxSize

namespace FixedSizedCache

variable {P : ICachePolicy Key}

def new (P : ICachePolicy Key) (Value : Type) (maxSize : Nat) : FixedSizedCache P Value where
  cacheItemsMap := ∅
  cachePolicy := P.new
  maxCacheSize := limit maxSize
  evictQueue := []

def size (c : FixedSizedCache P Value) : Nat := c.cacheItemsMap.keys.length

/-- `emplace` leaves an item that is already there. -/
def insert (c : FixedSizedCache P Value) (key : Key) (value : Value) : FixedSizedCache P Value :=
  { c with
    cachePolicy := P.insert c.cachePolicy key
    cacheItemsMap :=
      if key ∈ c.cacheItemsMap then c.cacheItemsMap else c.cacheItemsMap.insert key value }

/-- The callback reads the item through its iterator, so a missing one is dereferenced. -/
def erase (c : FixedSizedCache P Value) (key : Key) : Option (FixedSizedCache P Value) :=
  (P.erase c.cachePolicy key).bind fun policy =>
    if key ∈ c.cacheItemsMap then
      some { c with cachePolicy := policy, cacheItemsMap := c.cacheItemsMap.erase key }
    else none

def update (c : FixedSizedCache P Value) (key : Key) (value : Value) :
    Option (FixedSizedCache P Value) :=
  (P.touch c.cachePolicy key).map fun policy =>
    { c with cachePolicy := policy, cacheItemsMap := c.cacheItemsMap.insert key value }

/-- Room for one more item. -/
def displace (c : FixedSizedCache P Value) : Option (FixedSizedCache P Value) :=
  if c.maxCacheSize < c.size + 1 then
    (P.replCandidate c.cachePolicy).bind fun key =>
      erase { c with evictQueue := key :: c.evictQueue } key
  else some c

def put (c : FixedSizedCache P Value) (key : Key) (value : Value) :
    Option (FixedSizedCache P Value) :=
  if key ∈ c.cacheItemsMap then c.update key value
  else c.displace.map fun c => c.insert key value

/-- `none` as the value stands for the `range_error`. -/
def get (c : FixedSizedCache P Value) (key : Key) :
    Option (Option Value × FixedSizedCache P Value) :=
  match c.cacheItemsMap.lookup key with
  | none => some (none, c)
  | some value =>
    (P.touch c.cachePolicy key).map fun policy => (some value, { c with cachePolicy := policy })

def remove (c : FixedSizedCache P Value) (key : Key) : Option (Bool × FixedSizedCache P Value) :=
  if key ∈ c.cacheItemsMap then (c.erase key).map fun c => (true, c) else some (false, c)

end FixedSizedCache

inductive Op (Key Value : Type) where
  | put (key : Key) (value : Value)
  | get (key : Key)
  | remove (key : Key)

namespace FixedSizedCache

variable {P : ICachePolicy Key}

def step (c : FixedSizedCache P Value) : Op Key Value → Option (FixedSizedCache P Value)
  | .put key value => c.put key value
  | .get key => (c.get key).map Prod.snd
  | .remove key => (c.remove key).map Prod.snd

/-- Policy and map hold the same keys, and no more of them than the cache may have. -/
structure InStep (maxSize : Nat) (c : FixedSizedCache P Value) : Prop where
  tracked : ∀ key, key ∈ P.keys c.cachePolicy ↔ key ∈ c.cacheItemsMap
  found : ∀ key, P.finds c.cachePolicy key = true ↔ key ∈ c.cacheItemsMap
  fits : c.size ≤ limit maxSize

variable {Good : P.State → Prop} {victim : P.State → Key → Key}

/-- What every operation keeps, over any lawful policy. -/
structure Sound (Good : P.State → Prop) (maxSize : Nat) (c : FixedSizedCache P Value) : Prop where
  good : Good c.cachePolicy
  same : (P.keys c.cachePolicy).Perm c.cacheItemsMap.keys
  bound : c.maxCacheSize = limit maxSize
  fits : c.size ≤ limit maxSize

theorem limit_pos (maxSize : Nat) : 0 < limit maxSize := by
  unfold limit
  split <;> omega

section
variable {maxSize : Nat} {c t : FixedSizedCache P Value} {key : Key}

omit [DecidableEq Key] in
theorem Sound.mem_iff (sound : Sound Good maxSize c) :
    key ∈ P.keys c.cachePolicy ↔ key ∈ c.cacheItemsMap :=
  sound.same.mem_iff

omit [DecidableEq Key] in
theorem Sound.new (law : Lawful P Good victim) (maxSize : Nat) :
    Sound Good maxSize (new P Value maxSize) where
  good := law.new.1
  same := by simp [FixedSizedCache.new, law.new.2]
  bound := rfl
  fits := Nat.zero_le _

omit [DecidableEq Key] in
theorem Sound.inStep (law : Lawful P Good victim)
    (sound : Sound Good maxSize c) : InStep maxSize c where
  tracked _ := sound.mem_iff
  found key := (law.finds sound.good key).trans sound.mem_iff
  fits := sound.fits

theorem Sound.erase_spec (law : Lawful P Good victim) (sound : Sound Good maxSize c)
    (mem : key ∈ c.cacheItemsMap) :
    ∃ policy, Good policy ∧ (victim c.cachePolicy key :: P.keys policy).Perm c.cacheItemsMap.keys ∧
      P.erase c.cachePolicy key = some policy ∧ c.erase key = some
        { c with cachePolicy := policy, cacheItemsMap := c.cacheItemsMap.erase key } := by
  obtain ⟨policy, eq, good, taken⟩ := law.erase sound.good (sound.mem_iff.mpr mem)
  exact ⟨policy, good, taken.trans sound.same, eq, by simp [erase, eq, mem]⟩

theorem Sound.erase (law : Lawful P Good victim) (sound : Sound Good maxSize c)
    (mem : key ∈ c.cacheItemsMap) (own : victim c.cachePolicy key = key) :
    ∃ t, c.erase key = some t ∧ Sound Good maxSize t ∧ t.size + 1 = c.size ∧
      P.erase c.cachePolicy key = some t.cachePolicy ∧ t.cacheItemsMap = c.cacheItemsMap.erase key ∧
      t.evictQueue = c.evictQueue := by
  obtain ⟨policy, good, taken, own', eq⟩ := sound.erase_spec law mem
  rw [own] at taken
  have smaller : size { c with cachePolicy := policy, cacheItemsMap := c.cacheItemsMap.erase key } +
      1 = c.size := by
    simpa [size] using List.length_erase_add_one (AList.mem_keys.mp mem)
  have fits := sound.fits
  refine ⟨_, eq, ⟨good, ?_, sound.bound, by omega⟩, smaller, own', rfl, rfl⟩
  simpa using (List.cons_perm_iff_perm_erase.mp taken).2

theorem Sound.insert (law : Lawful P Good victim) (sound : Sound Good maxSize c)
    (missing : key ∉ c.cacheItemsMap) (room : c.size + 1 ≤ limit maxSize) (value : Value) :
    Sound Good maxSize (c.insert key value) := by
  obtain ⟨good, added⟩ := law.insert sound.good fun mem => missing (sound.mem_iff.mp mem)
  have keys : (c.insert key value).cacheItemsMap.keys = key :: c.cacheItemsMap.keys := by
    simp [FixedSizedCache.insert, missing, AList.keys_insert,
      List.erase_of_not_mem (AList.mem_keys.not.mp missing)]
  refine ⟨good, ?_, sound.bound, ?_⟩
  · rw [keys]
    exact added.trans (sound.same.cons key)
  · unfold size at room ⊢
    rw [keys]
    exact room

omit [DecidableEq Key] in
theorem Sound.touch (law : Lawful P Good victim) (sound : Sound Good maxSize c)
    (mem : key ∈ c.cacheItemsMap) :
    ∃ policy, P.touch c.cachePolicy key = some policy ∧ Good policy ∧
      (P.keys policy).Perm c.cacheItemsMap.keys := by
  obtain ⟨policy, eq, good, moved⟩ := law.touch sound.good (sound.mem_iff.mpr mem)
  exact ⟨policy, eq, good, moved.trans sound.same⟩

theorem Sound.displace (law : Lawful P Good victim) (sound : Sound Good maxSize c) :
    ∃ t, c.displace = some t ∧ Sound Good maxSize t ∧ t.size + 1 ≤ limit maxSize ∧
      (t = c ∨ ∃ out ∈ c.cacheItemsMap, P.replCandidate c.cachePolicy = some out ∧
        P.erase c.cachePolicy out = some t.cachePolicy ∧
          t.cacheItemsMap = c.cacheItemsMap.erase out ∧
        t.evictQueue = out :: c.evictQueue) := by
  have bound := sound.bound
  by_cases full : c.maxCacheSize < c.size + 1
  · have some_ : P.keys c.cachePolicy ≠ [] := by
      intro none_
      have empty := sound.same.length_eq
      have := limit_pos maxSize
      simp only [none_, List.length_nil] at empty
      unfold size at full
      omega
    obtain ⟨out, mem, eq, own⟩ := law.candidate sound.good some_
    have sound' : Sound Good maxSize { c with evictQueue := out :: c.evictQueue } :=
      ⟨sound.good, sound.same, sound.bound, sound.fits⟩
    obtain ⟨t, erased, soundT, smaller, own', gone, queue⟩ :=
      sound'.erase law (sound.mem_iff.mp mem) own
    have fits := sound.fits
    refine ⟨t, by simp [FixedSizedCache.displace, full, eq, erased], soundT, ?_, ?_⟩
    · exact smaller.trans_le fits
    · exact Or.inr ⟨out, sound.mem_iff.mp mem, eq, own', gone, queue⟩
  · refine ⟨c, by simp [FixedSizedCache.displace, full], sound, by omega, Or.inl rfl⟩

/-- What a `put` or a `get` of `key` can do to the cache. -/
inductive Change (c : FixedSizedCache P Value) (key : Key)
    (t : FixedSizedCache P Value) : Prop where
  | missed (missing : key ∉ c.cacheItemsMap) (same : t = c)
  | touched (mem : key ∈ c.cacheItemsMap) (policy : P.touch c.cachePolicy key = some t.cachePolicy)
      (items : ∀ k, k ∈ t.cacheItemsMap ↔ k ∈ c.cacheItemsMap) (queue : t.evictQueue = c.evictQueue)
  | entered (missing : key ∉ c.cacheItemsMap) (policy : t.cachePolicy = P.insert c.cachePolicy key)
      (items : ∀ k, k ∈ t.cacheItemsMap ↔ k = key ∨ k ∈ c.cacheItemsMap)
        (queue : t.evictQueue = c.evictQueue)
  | replaced {out : Key} {policy : P.State} (missing : key ∉ c.cacheItemsMap)
    (mem : out ∈ c.cacheItemsMap)
      (candidate : P.replCandidate c.cachePolicy = some out)
        (erased : P.erase c.cachePolicy out = some policy)
      (policy : t.cachePolicy = P.insert policy key)
      (items : ∀ k, k ∈ t.cacheItemsMap ↔ k = key ∨ k ≠ out ∧ k ∈ c.cacheItemsMap)
      (queue : t.evictQueue = out :: c.evictQueue)

theorem Sound.put (law : Lawful P Good victim) (sound : Sound Good maxSize c) (key : Key)
    (value : Value) :
    ∃ t, c.put key value = some t ∧ Sound Good maxSize t ∧ Change c key t ∧
      key ∈ t.cacheItemsMap := by
  by_cases mem : key ∈ c.cacheItemsMap
  · obtain ⟨policy, eq, good, same⟩ := sound.touch law mem
    have keys : (c.cacheItemsMap.insert key value).keys.Perm c.cacheItemsMap.keys := by
      simpa [AList.keys_insert] using (List.perm_cons_erase (AList.mem_keys.mp mem)).symm
    refine ⟨{ c with cachePolicy := policy, cacheItemsMap := c.cacheItemsMap.insert key value }, ?_,
      ?_, ?_, by simp⟩
    · simp [FixedSizedCache.put, mem, update, eq]
    · exact ⟨good, same.trans keys.symm, sound.bound, keys.length_eq.trans_le sound.fits⟩
    · exact Change.touched mem eq (fun _ => keys.mem_iff) rfl
  · obtain ⟨t, eq, soundT, room, which⟩ := sound.displace law
    have missing : key ∉ t.cacheItemsMap := by
      rcases which with rfl | ⟨out, -, -, -, gone, -⟩
      · exact mem
      · simp [gone, mem]
    refine ⟨t.insert key value, by simp [FixedSizedCache.put, mem, eq],
      soundT.insert law missing room value, ?_, ?_⟩
    · rcases which with rfl | ⟨out, inside, candidate, erased, gone, queue⟩
      · exact Change.entered mem rfl (fun k => by simp [FixedSizedCache.insert, mem]) rfl
      · exact Change.replaced mem inside candidate erased rfl
          (fun k => by simp [FixedSizedCache.insert, gone, mem]) queue
    · simp [FixedSizedCache.insert, missing]

theorem Sound.get (law : Lawful P Good victim) (sound : Sound Good maxSize c) (key : Key) :
    ∃ value t, c.get key = some (value, t) ∧ Sound Good maxSize t ∧ Change c key t ∧
      t.cacheItemsMap = c.cacheItemsMap := by
  cases looked : c.cacheItemsMap.lookup key with
  | none =>
    exact ⟨none, c, by simp [FixedSizedCache.get, looked], sound,
      Change.missed (AList.lookup_eq_none.mp looked) rfl, rfl⟩
  | some value =>
    have mem : key ∈ c.cacheItemsMap := AList.lookup_isSome.mp (by simp [looked])
    obtain ⟨policy, eq, good, same⟩ := sound.touch law mem
    refine ⟨some value, { c with cachePolicy := policy }, ?_, ?_, ?_, rfl⟩
    · simp [FixedSizedCache.get, looked, eq]
    · exact ⟨good, same, sound.bound, sound.fits⟩
    · exact Change.touched mem eq (fun _ => Iff.rfl) rfl

/-- A cached key may be removed when the policy gives up that very key. -/
def Removes (victim : P.State → Key → Key) (c : FixedSizedCache P Value) : Op Key Value → Prop
  | .remove key => key ∈ c.cacheItemsMap → victim c.cachePolicy key = key
  | _ => True

theorem Sound.step (law : Lawful P Good victim) (sound : Sound Good maxSize c) {op : Op Key Value}
    (allowed : Removes victim c op) : ∃ t, c.step op = some t ∧ Sound Good maxSize t := by
  cases op with
  | put key value =>
    obtain ⟨t, eq, soundT, -⟩ := sound.put law key value
    exact ⟨t, eq, soundT⟩
  | get key =>
    obtain ⟨value, t, eq, soundT, -⟩ := sound.get law key
    exact ⟨t, by simp [FixedSizedCache.step, eq], soundT⟩
  | remove key =>
    by_cases mem : key ∈ c.cacheItemsMap
    · obtain ⟨t, eq, soundT, -⟩ := sound.erase law mem (allowed mem)
      exact ⟨t, by simp [FixedSizedCache.step, remove, mem, eq], soundT⟩
    · exact ⟨c, by simp [FixedSizedCache.step, remove, mem], sound⟩

/-- When the policy gives up another key, that key is still in the map and no longer in the
policy. -/
theorem Sound.removes (law : Lawful P Good victim) (sound : Sound Good maxSize c)
    {op : Op Key Value} (next : c.step op = some t) (inStep : InStep maxSize t) :
    Removes victim c op := by
  cases op with
  | put key value => trivial
  | get key => trivial
  | remove key =>
    intro mem
    obtain ⟨policy, good, taken, -, eq⟩ := sound.erase_spec law mem
    simp only [FixedSizedCache.step, remove, mem, if_true, eq, Option.map_some, Option.some.injEq]
      at next
    subst next
    by_contra other
    have cached : victim c.cachePolicy key ∈ c.cacheItemsMap := taken.mem_iff.mp (by simp)
    have lost : victim c.cachePolicy key ∉ P.keys policy :=
      (List.nodup_cons.mp (taken.nodup_iff.mpr c.cacheItemsMap.keys_nodup)).1
    exact lost ((inStep.tracked _).mpr (by simp [cached, other]))

end

/-- The step that keeps cache and policy together: LRU and FIFO can only give up their last key. -/
def RemovesLast (kind : Kind) (c : FixedSizedCache (kind.policy Key) Value) : Op Key Value → Prop
  | .remove key =>
    key ∈ c.cacheItemsMap → kind ≠ .lfu → (kind.policy Key).replCandidate c.cachePolicy = some key
  | _ => True

theorem removes_iff {kind : Kind} {maxSize : Nat} {c : FixedSizedCache (kind.policy Key) Value}
    (sound : Sound kind.Good maxSize c) (op : Op Key Value) :
    Removes kind.victim c op ↔ RemovesLast kind c op := by
  cases op with
  | put key value => exact Iff.rfl
  | get key => exact Iff.rfl
  | remove key =>
    refine forall_congr' fun mem => ?_
    obtain ⟨last, -, eq, -⟩ :=
      kind.lawful.candidate sound.good (List.ne_nil_of_mem (sound.mem_iff.mpr mem))
    cases kind with
    | lru =>
      change LRUCachePolicy.replCandidate c.cachePolicy = some last at eq
      simp [Kind.victim, LRUCachePolicy.victim, Kind.policy, lruCachePolicy, eq]
    | lfu => simp [Kind.victim]
    | fifo =>
      change FIFOCachePolicy.replCandidate c.cachePolicy = some last at eq
      simp [Kind.victim, FIFOCachePolicy.victim, Kind.policy, fifoCachePolicy, eq]

/-- Cache and policy stay in step exactly as long as every removal of a cached key names the key
that the policy gives up. -/
theorem inStep_iff_removesLast (kind : Kind) (maxSize : Nat) (ops : List (Op Key Value)) :
    Runs.Throughout step (InStep maxSize) (new (kind.policy Key) Value maxSize) ops ↔
      Runs.Meets step (RemovesLast kind) (new (kind.policy Key) Value maxSize) ops := by
  refine Runs.throughout_iff_meets (J := Sound kind.Good maxSize) (Sound.new kind.lawful maxSize)
    ?_ ?_ ?_
  · intro c op sound allowed
    exact sound.step kind.lawful ((removes_iff sound op).mpr allowed)
  · intro c sound
    exact sound.inStep kind.lawful
  · intro c op t sound next inStep
    exact (removes_iff sound op).mp (sound.removes kind.lawful next inStep)

/-- Removing the newest of two keys takes the other one out of the LRU list, and a later eviction
dereferences the item that is gone. -/
theorem remove_newest_out_of_step :
    ¬ Runs.Throughout step (InStep 2) (new (Kind.lru.policy Nat) Nat 2) [.put 1 10, .put 2 20,
      .remove 2] ∧
      Runs.run step (new (Kind.lru.policy Nat) Nat 2)
        [.put 1 10, .put 2 20, .remove 2, .put 3 30, .put 4 40] = none := by
  refine ⟨fun all => ?_, rfl⟩
  obtain ⟨c, reached, inStep⟩ := all _ (List.prefix_refl _)
  have left : (2 : Nat) ∈ (Kind.lru.policy Nat).keys c.cachePolicy := by
    cases reached
    decide
  have gone : (2 : Nat) ∉ c.cacheItemsMap := by
    cases reached
    decide
  exact gone ((inStep.tracked 2).mp left)

end FixedSizedCache

end

end Xcache.Caches
