import Xcache.Caches.FixedSized

/-! Which item a full `fixed_sized_cache` gives up, compared with the history of its accesses. -/

namespace Xcache.Caches

open Nodes

section
variable {Key : Type} [DecidableEq Key] {Value : Type}

/-- An item is put or got, or it leaves the cache. -/
inductive Event (Key : Type) where
  | access (key : Key)
  | evict (key : Key)
  deriving DecidableEq

/-- How long ago the key was used last. The history has the newest event first. -/
def age (key : Key) (history : List (Event Key)) : Nat := history.idxOf (.access key)

/-- The uses of the key since it last entered. -/
def uses (key : Key) (history : List (Event Key)) : Nat :=
  (history.takeWhile fun e => decide (e ≠ .evict key)).count (.access key)

section
variable {key other : Key} {history : List (Event Key)}

@[simp] theorem age_access_self : age key (.access key :: history) = 0 := by simp [age]

theorem age_access_of_ne (ne : other ≠ key) :
    age key (.access other :: history) = age key history + 1 := by
  simp [age, ne]

@[simp] theorem age_evict : age key (.evict other :: history) = age key history + 1 := by
  simp [age]

@[simp] theorem uses_nil : uses key [] = 0 := by simp [uses]

@[simp] theorem uses_access_self : uses key (.access key :: history) = uses key history + 1 := by
  simp [uses]

theorem uses_access_of_ne (ne : other ≠ key) :
    uses key (.access other :: history) = uses key history := by
  simp [uses, ne]

@[simp] theorem uses_evict_self : uses key (.evict key :: history) = 0 := by
  simp [uses]

theorem uses_evict_of_ne (ne : other ≠ key) :
    uses key (.evict other :: history) = uses key history := by
  simp [uses, ne]

end

namespace FixedSizedCache

variable {P : ICachePolicy Key}

def left (c t : FixedSizedCache P Value) : List Key :=
  c.cacheItemsMap.keys.filter fun key => decide (key ∉ t.cacheItemsMap)

/-- The events of one operation, newest first. A `get` that throws is none. -/
def events (c : FixedSizedCache P Value) (op : Op Key Value)
    (t : FixedSizedCache P Value) : List (Event Key) :=
  let accessed : List (Event Key) := match op with
    | .put key _ => [.access key]
    | .get key => if key ∈ c.cacheItemsMap then [.access key] else []
    | .remove _ => []
  accessed ++ (left c t).map .evict

/-- The cache together with its history. -/
def logStep (logged : FixedSizedCache P Value × List (Event Key)) (op : Op Key Value) :
    Option (FixedSizedCache P Value × List (Event Key)) :=
  (logged.1.step op).map fun t => (t, events logged.1 op t ++ logged.2)

/-- Either nothing leaves the cache, or one key does that `Best` prefers to all others, and it is
put once at the front of the queue. -/
def Evicts (Best : List (Event Key) → Key → Key → Prop) (c : FixedSizedCache P Value)
    (history : List (Event Key)) (t : FixedSizedCache P Value) : Prop :=
  (t.evictQueue = c.evictQueue ∧ ∀ key ∈ c.cacheItemsMap, key ∈ t.cacheItemsMap) ∨
    ∃ out ∈ c.cacheItemsMap, t.evictQueue = out :: c.evictQueue ∧
      (∀ key ∈ c.cacheItemsMap, key ∉ t.cacheItemsMap ↔ key = out) ∧
      ∀ key ∈ c.cacheItemsMap, key ≠ out → Best history out key

/-- Every operation of the sequence returns and evicts as `Best` says. -/
def Follows (P : ICachePolicy Key) (Best : List (Event Key) → Key → Key → Prop) (maxSize : Nat)
    (ops : List (Op Key Value)) : Prop :=
  ∀ done op, done ++ [op] <+: ops → ∃ c history t,
    Runs.run logStep (new P Value maxSize, []) done = some (c, history) ∧ c.step op = some t ∧
      Evicts Best c history t

/-- How a policy's order follows the history. -/
structure Tracks (P : ICachePolicy Key) (Good : P.State → Prop)
    (Ordered : P.State → List (Event Key) → Prop)
    (Best : List (Event Key) → Key → Key → Prop) : Prop where
  new : Ordered P.new []
  insert : ∀ {s history key}, Good s → Ordered s history → key ∉ P.keys s →
    Ordered (P.insert s key) (.access key :: history)
  touch : ∀ {s t history key}, Good s → Ordered s history → key ∈ P.keys s →
    P.touch s key = some t → Ordered t (.access key :: history)
  evict : ∀ {s t history out}, Good s → Ordered s history → P.replCandidate s = some out →
    P.erase s out = some t → Ordered t (.evict out :: history)
  best : ∀ {s history out}, Good s → Ordered s history → P.replCandidate s = some out →
    ∀ key ∈ P.keys s, key ≠ out → Best history out key

section
variable {Good : P.State → Prop} {victim : P.State → Key → Key}
  {Ordered : P.State → List (Event Key) → Prop}
variable {Best : List (Event Key) → Key → Key → Prop} {maxSize : Nat}
  {c t : FixedSizedCache P Value} {key : Key}
variable {history : List (Event Key)}

theorem left_eq_nil (kept : ∀ key ∈ c.cacheItemsMap, key ∈ t.cacheItemsMap) : left c t = [] := by
  simp only [left, List.filter_eq_nil_iff, decide_eq_true_eq, not_not]
  exact fun key mem => kept key (AList.mem_keys.mpr mem)

theorem left_eq_singleton {out : Key} (mem : out ∈ c.cacheItemsMap)
    (gone : ∀ key ∈ c.cacheItemsMap, key ∉ t.cacheItemsMap ↔ key = out) : left c t = [out] := by
  have same : left c t = c.cacheItemsMap.keys.filter fun key => decide (key = out) := by
    refine List.filter_congr fun key inside => ?_
    simp only [gone key (AList.mem_keys.mpr inside)]
  rw [same, List.filter_eq, List.count_eq_one_of_mem c.cacheItemsMap.keys_nodup
    (AList.mem_keys.mp mem)]
  rfl

/-- What one `put` or `get` does to the order of the policy, and whom it evicts. -/
theorem Change.tracks (law : Lawful P Good victim) (tracks : Tracks P Good Ordered Best)
    (sound : Sound Good maxSize c) (ordered : Ordered c.cachePolicy history)
    (change : Change c key t) (cached : key ∈ c.cacheItemsMap ∨ key ∈ t.cacheItemsMap) :
    Ordered t.cachePolicy (.access key :: (left c t).map .evict ++ history) ∧
      Evicts Best c history t := by
  cases change with
  | missed missing same =>
    subst same
    exact absurd (or_self_iff.mp cached) missing
  | touched mem policy items queue =>
    have kept : ∀ key ∈ c.cacheItemsMap, key ∈ t.cacheItemsMap := fun key => (items key).mpr
    refine ⟨?_, Or.inl ⟨queue, kept⟩⟩
    simpa [left_eq_nil kept] using tracks.touch sound.good ordered (sound.mem_iff.mpr mem) policy
  | entered missing policy items queue =>
    have kept : ∀ key ∈ c.cacheItemsMap, key ∈ t.cacheItemsMap :=
      fun key mem => (items key).mpr (Or.inr mem)
    refine ⟨?_, Or.inl ⟨queue, kept⟩⟩
    simpa [left_eq_nil kept, policy] using tracks.insert sound.good ordered
      (sound.mem_iff.not.mpr missing)
  | @replaced out erased' missing mem candidate erased policy items queue =>
    have gone : ∀ k ∈ c.cacheItemsMap, k ∉ t.cacheItemsMap ↔ k = out := by
      intro k inside
      have ne : k ≠ key := fun eq => missing (eq ▸ inside)
      simp [items, ne, inside]
    obtain ⟨u, good, taken, eq, -⟩ := sound.erase_spec law mem
    cases erased.symm.trans eq
    have fresh : key ∉ P.keys erased' := fun inside =>
      missing (taken.mem_iff.mp (List.mem_cons_of_mem _ inside))
    have smaller := tracks.evict sound.good ordered candidate erased
    refine ⟨?_, Or.inr ⟨out, mem, queue, gone, ?_⟩⟩
    · simpa [left_eq_singleton mem gone, policy] using tracks.insert good smaller fresh
    · exact fun k inside => tracks.best sound.good ordered candidate k (sound.mem_iff.mpr inside)

def IsAccess : Op Key Value → Prop
  | .remove _ => False
  | _ => True

theorem step_tracks (law : Lawful P Good victim) (tracks : Tracks P Good Ordered Best)
    (sound : Sound Good maxSize c) (ordered : Ordered c.cachePolicy history) {op : Op Key Value}
    (access : IsAccess op) :
    ∃ t, c.step op = some t ∧ Sound Good maxSize t ∧
      Ordered t.cachePolicy (events c op t ++ history) ∧
      Evicts Best c history t := by
  cases op with
  | put key value =>
    obtain ⟨t, eq, soundT, change, cached⟩ := sound.put law key value
    obtain ⟨orderedT, evicts⟩ := change.tracks law tracks sound ordered (Or.inr cached)
    exact ⟨t, eq, soundT, by simpa [events] using orderedT, evicts⟩
  | get key =>
    obtain ⟨value, t, eq, soundT, change, items⟩ := sound.get law key
    have next : c.step (.get key) = some t := by simp [FixedSizedCache.step, eq]
    by_cases mem : key ∈ c.cacheItemsMap
    · obtain ⟨orderedT, evicts⟩ := change.tracks law tracks sound ordered (Or.inl mem)
      exact ⟨t, next, soundT, by simpa [events, mem] using orderedT, evicts⟩
    · -- the exception leaves everything as it was
      cases change with
      | missed _ same =>
        subst same
        have none_ : left t t = [] := left_eq_nil fun _ inside => inside
        exact ⟨t, next, soundT, by simpa [events, mem, none_] using ordered,
          Or.inl ⟨rfl, fun _ inside => inside⟩⟩
      | touched inside => exact absurd inside mem
      | entered _ _ added =>
        exact absurd ((items ▸ (added key).mpr (Or.inl rfl) : key ∈ c.cacheItemsMap)) mem
      | replaced _ _ _ _ _ added =>
        exact absurd ((items ▸ (added key).mpr (Or.inl rfl) : key ∈ c.cacheItemsMap)) mem
  | remove key => exact absurd access id

theorem follows_of_tracks (law : Lawful P Good victim) (tracks : Tracks P Good Ordered Best)
    (maxSize : Nat) {ops : List (Op Key Value)} (accesses : ∀ op ∈ ops, IsAccess op) :
    Follows P Best maxSize ops := by
  intro done op le
  have access : ∀ op' ∈ done ++ [op], IsAccess op' := fun op' mem => accesses op' (le.subset mem)
  have met : Runs.Meets logStep (fun _ op => IsAccess op) (new P Value maxSize, []) done := by
    intro early op' _ le' _
    exact access op' (List.mem_append_left _ (le'.subset (by simp)))
  obtain ⟨⟨c, history⟩, reached, sound, ordered⟩ := Runs.run_of_meets
    (J := fun logged => Sound Good maxSize logged.1 ∧ Ordered logged.1.cachePolicy logged.2)
    ⟨Sound.new law maxSize, tracks.new⟩ (by
      rintro ⟨c, history⟩ op ⟨sound, ordered⟩ allowed
      obtain ⟨t, next, soundT, orderedT, -⟩ := step_tracks law tracks sound ordered allowed
      exact ⟨_, by simp [logStep, next]; rfl, soundT, orderedT⟩) met
  obtain ⟨t, next, -, -, evicts⟩ := step_tracks law tracks sound ordered (access op (by simp))
  exact ⟨c, history, t, reached, next, evicts⟩

end

end FixedSizedCache

/-- The last use of `out` is further back than that of `key`. -/
def Older (history : List (Event Key)) (out key : Key) : Prop := age key history < age out history

/-- `out` has been used no more often than `key`, in the arithmetic of `size_t`. -/
def Rarer (history : List (Event Key)) (out key : Key) : Prop :=
  uses out history % 2 ^ 64 ≤ uses key history % 2 ^ 64

theorem pairwise_access {keys : List Key} {history : List (Event Key)} {key : Key}
    (recent : keys.Pairwise fun a b => age a history < age b history) (missing : key ∉ keys) :
    (key :: keys).Pairwise fun a b => age a (.access key :: history) <
      age b (.access key :: history) := by
  have older : ∀ k ∈ keys, age k (.access key :: history) = age k history + 1 := fun k mem =>
    age_access_of_ne fun eq => missing (eq ▸ mem)
  refine List.pairwise_cons.mpr ⟨fun k mem => ?_, recent.imp_of_mem fun {a b} memA memB lt => ?_⟩
  · simp [older k mem]
  · simpa [older a memA, older b memB] using lt

namespace LRUCachePolicy

/-- The list has the most recently used key first. -/
def Recent (s : State Key) (history : List (Event Key)) : Prop :=
  (Nodes.keys id s.lruQueue).Pairwise fun a b => age a history < age b history

theorem tracks : FixedSizedCache.Tracks (lruCachePolicy Key) Good Recent Older where
  new := List.Pairwise.nil
  insert _ recent missing := pairwise_access recent missing
  touch := by
    intro s t history key good recent mem next
    obtain ⟨n, inside, rfl, eq⟩ := touch_spec good mem
    cases next.symm.trans eq
    have taken := List.perm_cons_erase inside
    have rest : (Nodes.keys id (s.lruQueue.erase n)).Pairwise fun a b => age a history <
        age b history :=
      recent.sublist (List.erase_sublist.map _)
    exact pairwise_access rest (List.nodup_cons.mp (good.perm taken).nodup).1
  evict := by
    intro s t history out _ recent candidate erased
    obtain ⟨n, last, rfl⟩ := Option.map_eq_some_iff.mp erased
    have rest : (Nodes.keys id s.lruQueue.dropLast).Pairwise fun a b => age a history <
        age b history :=
      recent.sublist ((List.dropLast_sublist _).map _)
    exact rest.imp fun lt => by simpa using lt
  best := by
    intro s history out _ recent candidate key mem ne
    obtain ⟨n, last, rfl⟩ := Option.map_eq_some_iff.mp candidate
    have whole : Nodes.keys id s.lruQueue = Nodes.keys id s.lruQueue.dropLast ++ [n.item] := by
      have split := congrArg (Nodes.keys id) (List.dropLast_append_getLast? n last)
      simpa [Nodes.keys] using split.symm
    unfold Recent at recent
    rw [whole] at recent
    have earlier : key ∈ Nodes.keys id s.lruQueue.dropLast := by
      have mem' : key ∈ Nodes.keys id s.lruQueue := mem
      rw [whole] at mem'
      simpa [ne] using mem'
    exact (List.pairwise_append.mp recent).2.2 key earlier n.item (by simp)

end LRUCachePolicy

namespace LFUCachePolicy

def Sorted (storage : List (Node (Entry Key))) : Prop :=
  storage.Pairwise fun a b => a.item.1 ≤ b.item.1

section
variable {storage : List (Node (Entry Key))} {freq i : Nat} {n : Node (Entry Key)}

omit [DecidableEq Key] in
theorem lowerBound_le_upperBound : lowerBound storage freq ≤ upperBound storage freq := by
  unfold lowerBound upperBound
  induction storage with
  | nil => simp
  | cons a rest ih =>
    by_cases lt : a.item.1 < freq
    · simpa [lt, lt.le] using ih
    · simp [lt]

omit [DecidableEq Key] in
theorem le_of_mem_take (le : i ≤ upperBound storage freq)
    (mem : n ∈ storage.take i) : n.item.1 ≤ freq := by
  induction storage generalizing i with
  | nil => simp at mem
  | cons a rest ih =>
    cases i with
    | zero => simp at mem
    | succ i =>
      by_cases first : a.item.1 ≤ freq
      · rcases List.mem_cons.mp mem with rfl | later
        · exact first
        · exact ih (by simpa [upperBound, first] using le) later
      · simp [upperBound, first] at le

omit [DecidableEq Key] in
theorem le_of_mem_drop (sorted : Sorted storage) (le : lowerBound storage freq ≤ i)
    (mem : n ∈ storage.drop i) :
    freq ≤ n.item.1 := by
  induction storage generalizing i with
  | nil => simp at mem
  | cons a rest ih =>
    obtain ⟨least, sorted⟩ := List.pairwise_cons.mp sorted
    by_cases first : a.item.1 < freq
    · cases i with
      | zero => simp [lowerBound, first] at le
      | succ i => exact ih sorted (by simpa [lowerBound, first] using le) (by simpa using mem)
    · rcases List.mem_cons.mp (List.mem_of_mem_drop mem) with rfl | later
      · exact Nat.le_of_not_lt first
      · exact (Nat.le_of_not_lt first).trans (least n later)

omit [DecidableEq Key] in
theorem emplaceHint_sorted (sorted : Sorted storage) (hint : Nat) (n : Node (Entry Key)) :
    Sorted (emplaceHint storage hint n) := by
  unfold emplaceHint
  generalize position : max (lowerBound storage n.item.1) (min hint (upperBound storage n.item.1)) =
    i
  have bounds := @lowerBound_le_upperBound Key storage n.item.1
  have above : ∀ m ∈ storage.take i, m.item.1 ≤ n.item.1 := fun m => le_of_mem_take (by omega)
  have below : ∀ m ∈ storage.drop i, n.item.1 ≤ m.item.1 :=
    fun m => le_of_mem_drop sorted (by omega)
  refine List.pairwise_append.mpr ⟨sorted.sublist (List.take_sublist _ _), ?_, ?_⟩
  · exact List.pairwise_cons.mpr ⟨below, sorted.sublist (List.drop_sublist _ _)⟩
  · intro a inFront b behind
    rcases List.mem_cons.mp behind with rfl | later
    · exact above a inFront
    · exact (above a inFront).trans (below b later)

end

/-- The multimap is sorted and its frequencies count the uses; a key outside has none. -/
structure Counted (s : State Key) (history : List (Event Key)) : Prop where
  sorted : Sorted s.frequencyStorage
  counts : ∀ n ∈ s.frequencyStorage, n.item.1 = uses n.item.2 history % 2 ^ 64
  absent : ∀ key ∉ Nodes.keys Prod.snd s.frequencyStorage, uses key history = 0

section
variable {s : State Key} {history : List (Event Key)} {key : Key} {rest : List (Node (Entry Key))}

/-- A node with the next frequency of its key goes into a multimap without that key. -/
theorem counts_access (counts : ∀ n ∈ rest, n.item.1 = uses n.item.2 history % 2 ^ 64)
    (missing : key ∉ Nodes.keys Prod.snd rest) (hint id freq : Nat)
    (next : freq = (uses key history + 1) % 2 ^ 64) :
    ∀ n ∈ emplaceHint rest hint ⟨id, freq, key⟩, n.item.1 = uses n.item.2 (.access key :: history) %
      2 ^ 64 := by
  intro n mem
  rcases List.mem_cons.mp ((emplaceHint_perm rest hint ⟨id, freq, key⟩).mem_iff.mp mem) with
    rfl | old
  · simpa using next
  · have ne : key ≠ n.item.2 := fun eq => missing (mem_keys.mpr ⟨n, old, eq.symm⟩)
    simpa [uses_access_of_ne ne] using counts n old

theorem absent_access (absent : ∀ k ∉ Nodes.keys Prod.snd rest, k ≠ key → uses k history = 0)
    (hint id freq : Nat) :
    ∀ k ∉ Nodes.keys Prod.snd (emplaceHint rest hint ⟨id, freq, key⟩),
      uses k (.access key :: history) = 0 := by
  intro k out
  have placed := keys_perm Prod.snd (emplaceHint_perm rest hint ⟨id, freq, key⟩)
  rw [placed.mem_iff, keys_cons, List.mem_cons, not_or] at out
  simpa [uses_access_of_ne (Ne.symm out.1)] using absent k out.2 out.1

end

theorem tracks : FixedSizedCache.Tracks (lfuCachePolicy Key) Good Counted Rarer where
  new := ⟨List.Pairwise.nil, by simp [lfuCachePolicy, LFUCachePolicy.new], by simp⟩
  insert := by
    intro s history key _ counted missing
    refine ⟨emplaceHint_sorted counted.sorted _ _, ?_, ?_⟩
    · exact counts_access counted.counts missing
        _ _ _ (by simp [counted.absent key missing, initVal])
    · exact absent_access (fun k out _ => counted.absent k out) _ _ _
  touch := by
    intro s t history key good counted mem next
    obtain ⟨n, inside, rfl, eq⟩ := touch_spec good mem
    cases next.symm.trans eq
    have taken := List.perm_cons_erase inside
    refine ⟨emplaceHint_sorted (counted.sorted.sublist List.erase_sublist) _ _, ?_, ?_⟩
    · refine counts_access (fun m later => counted.counts m (List.mem_of_mem_erase later)) ?_
        _ _ _ ?_
      · exact (List.nodup_cons.mp (Indexed.perm good taken).nodup).1
      · rw [counted.counts n inside, Nat.mod_add_mod]
    · refine absent_access (fun k out ne => counted.absent k ?_) _ _ _
      rw [(keys_perm Prod.snd taken).mem_iff]
      simp [out, ne]
  evict := by
    intro s t history out good counted candidate erased
    have mem : out ∈ Nodes.keys Prod.snd s.frequencyStorage := by
      obtain ⟨n, first, rfl⟩ := Option.map_eq_some_iff.mp candidate
      exact mem_keys.mpr ⟨n, List.mem_of_mem_head? first, rfl⟩
    obtain ⟨n, inside, rfl, eq⟩ := erase_spec good mem
    cases erased.symm.trans eq
    have taken := List.perm_cons_erase inside
    have missing := (List.nodup_cons.mp (Indexed.perm good taken).nodup).1
    refine ⟨counted.sorted.sublist List.erase_sublist, ?_, ?_⟩
    · intro m later
      have ne : n.item.2 ≠ m.item.2 := fun same => missing (mem_keys.mpr ⟨m, later, same.symm⟩)
      simpa [uses_evict_of_ne ne] using counted.counts m (List.mem_of_mem_erase later)
    · intro k gone
      by_cases here : k = n.item.2
      · simp [here]
      · rw [uses_evict_of_ne (Ne.symm here)]
        refine counted.absent k ?_
        rw [(keys_perm Prod.snd taken).mem_iff]
        simpa [here] using gone
  best := by
    intro s history out good counted candidate key mem _
    obtain ⟨n, inside, rfl⟩ := mem_keys.mp mem
    obtain ⟨first, rest, eq, least⟩ := head_spec (List.ne_nil_of_mem mem)
    cases candidate.symm.trans least
    have first' := counted.counts first (by simp [eq])
    have sorted := counted.sorted
    have other := counted.counts n inside
    unfold Sorted at sorted
    rw [eq] at sorted inside
    unfold Rarer
    rw [← first', ← other]
    rcases List.mem_cons.mp inside with rfl | later
    · exact Nat.le_refl _
    · exact (List.pairwise_cons.mp sorted).1 n later

end LFUCachePolicy

namespace FixedSizedCache

/-- Without removals the LRU cache gives up the key whose last use is the oldest, and the LFU cache
one with the least number of uses, as a `size_t` counts them. -/
theorem evictions_follow_history (maxSize : Nat) (ops : List (Op Key Value))
    (accesses : ∀ op ∈ ops, IsAccess op) :
    Follows (lruCachePolicy Key) Older maxSize ops ∧
      Follows (lfuCachePolicy Key) Rarer maxSize ops :=
  ⟨follows_of_tracks LRUCachePolicy.lawful LRUCachePolicy.tracks maxSize accesses,
    follows_of_tracks LFUCachePolicy.lawful LFUCachePolicy.tracks maxSize accesses⟩

theorem evictions_follow_history_three :
    Follows (lruCachePolicy Nat) Older 2 [.put 1 10, .get 1, .put 2 20, .put 3 30] ∧
      Follows (lfuCachePolicy Nat) Rarer 2 [.put 1 10, .get 1, .put 2 20, .put 3 30] :=
  evictions_follow_history 2 [.put 1 10, .get 1, .put 2 20, .put 3 30] (by simp [IsAccess])

/-- The number of uses itself, without a bound. -/
def Fewer (history : List (Event Key)) (out key : Key) : Prop := uses out history ≤ uses key history

/-- An LFU cache for two items with one item, put once and got `n` times. -/
def hot (n : Nat) : FixedSizedCache (lfuCachePolicy Nat) Nat where
  cacheItemsMap := AList.singleton 0 0
  cachePolicy := ⟨[⟨n, (n + 1) % 2 ^ 64, 0⟩], Function.update (fun _ => none) 0 (some n), n + 1⟩
  maxCacheSize := 2
  evictQueue := []

theorem hot_get (n : Nat) : (hot n).step (.get 0) = some (hot (n + 1)) := by
  simp [step, get, hot, AList.lookup, AList.singleton, lfuCachePolicy, LFUCachePolicy.touch, nodeAt,
    LFUCachePolicy.emplaceHint]

theorem run_hot (n : Nat) :
    Runs.run logStep (new (lfuCachePolicy Nat) Nat 2, []) (.put 0 0 :: List.replicate n (.get 0)) =
      some (hot n, List.replicate (n + 1) (.access 0)) := by
  induction n with
  | zero => rfl
  | succ n ih =>
    have stays : left (hot n) (hot (n + 1)) = [] := left_eq_nil fun _ mem => mem
    have cached : 0 ∈ (hot n).cacheItemsMap := by simp [hot, AList.singleton]
    rw [List.replicate_succ', ← List.cons_append, Runs.run_concat, ih]
    simp [logStep, hot_get, events, cached, stays, List.replicate_succ]

theorem uses_replicate (key other : Nat) (n : Nat) :
    uses key (List.replicate n (.access other)) = if other = key then n else 0 := by
  induction n with
  | zero => simp
  | succ n ih =>
    by_cases same : other = key
    · subst same
      simpa [List.replicate_succ] using ih
    · simpa [List.replicate_succ, uses_access_of_ne same, same] using ih

/-- When the frequency has come round to 0, the hottest key is the one that the next item
displaces. -/
theorem wrapped_displaced (n : Nat) (wrapped : (n + 1) % 2 ^ 64 = 0) :
    ∃ (c t : FixedSizedCache (lfuCachePolicy Nat) Nat) (history : List (Event Nat)),
      Runs.run logStep (new (lfuCachePolicy Nat) Nat 2, [])
        (.put 0 0 :: List.replicate n (.get 0) ++ [.put 1 1]) =
        some (c, history) ∧ c.step (.put 2 2) = some t ∧ c.evictQueue = [] ∧ t.evictQueue = [0] ∧
      1 ∈ c.cacheItemsMap ∧ uses 0 history = n + 1 ∧ uses 1 history = 1 := by
  have entered : (hot n).step (.put 1 1) = some ((hot n).insert 1 1) := by
    simp [step, put, displace, hot, size, AList.singleton]
  have stays : left (hot n) ((hot n).insert 1 1) = [] := left_eq_nil fun k mem => by
    have here : k = 0 := by simpa [hot, AList.singleton] using mem
    simp [FixedSizedCache.insert, hot, AList.singleton, here]
  have zero : (hot n).cachePolicy = ⟨[⟨n, 0, 0⟩], Function.update (fun _ => none) 0 (some n),
      n + 1⟩ := by
    simp only [hot, wrapped]
    rfl
  have order : ((hot n).insert 1 1).cachePolicy =
      ⟨[⟨n, 0, 0⟩, ⟨n + 1, 1, 1⟩], Function.update (Function.update (fun _ => none) 0 (some n)) 1
        (some (n + 1)), n + 2⟩ := by
    simp only [FixedSizedCache.insert, zero]
    rfl
  have full : ((hot n).insert 1 1).maxCacheSize < ((hot n).insert 1 1).size + 1 := by
    simp [FixedSizedCache.insert, hot, size, AList.singleton]
  have candidate : (lfuCachePolicy Nat).replCandidate ((hot n).insert 1 1).cachePolicy =
      some 0 := by
    rw [order]
    rfl
  have items : ∀ k, k ∈ ((hot n).insert 1 1).cacheItemsMap ↔ k = 1 ∨ k = 0 := by
    simp [FixedSizedCache.insert, hot, AList.singleton]
  obtain ⟨policy, erased⟩ : ∃ policy, (lfuCachePolicy Nat).erase ((hot n).insert 1 1).cachePolicy
      0 = some policy := by
    rw [order]
    simp [lfuCachePolicy, LFUCachePolicy.erase, nodeAt]
  let emptied : FixedSizedCache (lfuCachePolicy Nat) Nat :=
    ⟨((hot n).insert 1 1).cacheItemsMap.erase 0, policy, 2, [0]⟩
  refine ⟨(hot n).insert 1 1, emptied.insert 2 2, .access 1 :: List.replicate (n + 1) (.access 0),
    ?_, ?_, rfl, rfl, (items 1).mpr (Or.inl rfl), ?_, ?_⟩
  · rw [Runs.run_concat, run_hot]
    simp [logStep, entered, events, stays]
  · have missing : 2 ∉ ((hot n).insert 1 1).cacheItemsMap := by simp [items]
    have cached : 0 ∈ ((hot n).insert 1 1).cacheItemsMap := by simp [items]
    simp only [step, put, missing, if_false, displace, full, if_true, candidate, Option.bind_some,
      erase, erased, cached, Option.map_some]
    rfl
  · rw [uses_access_of_ne (by decide), uses_replicate, if_pos rfl]
  · rw [uses_access_self, uses_replicate, if_neg (by decide)]

/-- A key that was used 2^64 times is given up for one that was used once. -/
theorem hottest_key_displaced :
    ¬ Follows (lfuCachePolicy Nat) Fewer 2
      ((.put 0 0 :: List.replicate (2 ^ 64 - 1) (.get 0) ++ [.put 1 1]) ++ [.put 2 2] :
        List (Op Nat Nat)) := by
  intro follows
  obtain ⟨c, t, history, reached, next, empty, queue, mem, many, once⟩ :=
    wrapped_displaced (2 ^ 64 - 1) (by norm_num)
  obtain ⟨c', history', t', reached', next', evicts⟩ := follows _ _ (List.prefix_refl _)
  cases reached.symm.trans reached'
  cases next.symm.trans next'
  rcases evicts with ⟨same, -⟩ | ⟨out, -, front, -, best⟩
  · simp [empty, queue] at same
  · have first : out = 0 := by simpa [empty, queue, eq_comm] using front
    have few := best 1 mem (by simp [first])
    rw [first, Fewer, many, once] at few
    norm_num at few

end FixedSizedCache

end

end Xcache.Caches
