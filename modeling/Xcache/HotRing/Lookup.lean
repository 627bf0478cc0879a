import Xcache.HotRing.Rings

/-! `__hotring_get` compares keys where the rings are sorted by tag. It finds every key from every
position of the head exactly when the rings are sorted by key as well. -/

namespace Xcache.HotRing

def Mem.key (mem : Mem) (p : Ptr) : Nat := (mem.node p).key.toNat

def result : Option (Ptr × Option Ptr) → GetResult
  | none => ⟨.notFound, none, none⟩
  | some (p, none) => ⟨.accessHot, some p, none⟩
  | some (p, some prev) => ⟨.accessCold, some p, some prev⟩

theorem result_found {found : Option (Ptr × Option Ptr)} {p : Ptr}
    (node : (result found).nodep = some p) :
    found = some (p, (result found).prevp) := by
  match found with
  | none => cases node
  | some (_, none) => cases node; rfl
  | some (_, some _) => cases node; rfl

section
variable {mem mem' : Mem} {h h' : Hash} {log : List (BitVec 64 × BitVec 64)}
  {key tag value : BitVec 64} {i n k : Nat}
  {ring rest : List Ptr} {head prev : Ptr}

theorem searchKey_spec (key : BitVec 64) (path : Path mem.next prev rest head) (out : head ∉ rest)
    (nodes : ∀ p ∈ prev :: rest, ∃ node, mem.nodes p = some node) {fuel : Nat}
    (enough : rest.length < fuel) :
    ∃ p, mem.next prev = some p ∧ searchKey mem key head fuel prev p =
      some (search mem.key key.toNat prev rest) := by
  induction rest generalizing prev fuel with
  | nil =>
    obtain ⟨fuel, rfl⟩ := Nat.exists_eq_succ_of_ne_zero (Nat.ne_of_gt (Nat.zero_lt_of_lt enough))
    refine ⟨head, path, ?_⟩
    rw [searchKey, if_pos rfl]
    rfl
  | cons c rest ih =>
    obtain ⟨fuel, rfl⟩ := Nat.exists_eq_succ_of_ne_zero (Nat.ne_of_gt (Nat.zero_lt_of_lt enough))
    obtain ⟨prevNode, herePrev⟩ := nodes prev List.mem_cons_self
    obtain ⟨tmp, hereTmp⟩ := nodes c (List.mem_cons_of_mem _ List.mem_cons_self)
    obtain ⟨p, step, later⟩ := ih path.2 (fun mem => out (List.mem_cons_of_mem _ mem))
      (fun p mem => nodes p (List.mem_cons_of_mem _ mem))
        (show rest.length < fuel by rw [List.length_cons] at enough; omega)
    rw [Mem.next, hereTmp, Option.map_some, Option.some_inj] at step
    refine ⟨c, path.1, ?_⟩
    have keyPrev : mem.key prev = prevNode.key.toNat := by rw [Mem.key, Mem.node_eq herePrev]
    have keyTmp : mem.key c = tmp.key.toNat := by rw [Mem.key, Mem.node_eq hereTmp]
    have same : mem.key c = key.toNat ↔ tmp.key = key := by rw [keyTmp, BitVec.toNat_inj]
    have passed : Passed (mem.key prev) key.toNat (mem.key c) ↔ prevNode.key < key ∧ key < tmp.key ∨
        key < tmp.key ∧ tmp.key < prevNode.key ∨ tmp.key < prevNode.key ∧ prevNode.key < key := by
      rw [keyPrev, keyTmp]
      exact Iff.rfl
    have ne : c ≠ head := fun eq => out (eq ▸ List.mem_cons_self)
    rw [searchKey, if_neg ne, herePrev, hereTmp, search]
    dsimp only [bind, Option.bind]
    by_cases here : tmp.key = key
    · rw [if_pos here, if_pos (same.mpr here)]
    · rw [if_neg here, if_neg (mt same.mp here), if_congr passed rfl rfl]
      by_cases up : prevNode.key < key ∧ key < tmp.key
      · rw [if_pos up, if_pos (Or.inl up)]
      · by_cases low : key < tmp.key ∧ tmp.key < prevNode.key
        · rw [if_neg up, if_pos low, if_pos (Or.inr (Or.inl low))]
        · by_cases high : tmp.key < prevNode.key ∧ prevNode.key < key
          · rw [if_neg up, if_neg low, if_pos high, if_pos (Or.inr (Or.inr high))]
          · rw [if_neg up, if_neg low, if_neg high,
              if_neg (not_or_intro up (not_or_intro low high)), step]
            exact later

theorem hotringGet_ring (good : Good mem h log i ring) (bounded : mem.Bounded)
    (code : hashCode h key = some (i, tag)) (lt : i < h.size) :
    ∃ mem' h', hotringGet mem h key = some (mem', h', result (lookup mem.key key.toNat ring)) := by
  obtain ⟨hd, rest, slot, rfl, links⟩ := good.bucket
  have nodes : ∀ p ∈ hd.node :: rest, ∃ node, mem.nodes p = some node :=
    fun p here => (good.nodes p here).imp fun _ both => both.1
  have short : rest.length < mem.fresh := by
    have := good.length_le bounded
    rwa [List.length_cons] at this
  obtain ⟨p, step, found⟩ := searchKey_spec key links.1 (List.nodup_cons.mp links.2).1 nodes short
  obtain ⟨node, first⟩ := nodes hd.node List.mem_cons_self
  rw [Mem.next, first, Option.map_some, Option.some_inj] at step
  have same : mem.key hd.node = key.toNat ↔ node.key = key := by
    rw [Mem.key, Mem.node_eq first, BitVec.toNat_inj]
  unfold hotringGet
  rw [code]
  dsimp only [bind, Option.bind]
  rw [if_pos lt, slot]
  dsimp only
  rw [first, lookup]
  dsimp only
  by_cases here : node.key = key
  · rw [if_pos here, if_pos (same.mpr here), Mem.count, first]
    exact ⟨_, _, rfl⟩
  · rw [if_neg here, if_neg (mt same.mp here), step, found]
    dsimp only
    cases at_ : search mem.key key.toNat hd.node rest with
    | none => exact ⟨_, _, rfl⟩
    | some pair =>
      obtain ⟨node', there⟩ := nodes pair.1 (List.mem_cons_of_mem _ (mem_of_search at_).1)
      dsimp only
      rw [Mem.count, there]
      exact ⟨_, _, rfl⟩

theorem hotringGet_empty (slot : h.slots i = none) (code : hashCode h key = some (i, tag))
    (lt : i < h.size) :
    hotringGet mem h key = some (mem, h, ⟨.notFound, none, none⟩) := by
  unfold hotringGet
  rw [code]
  dsimp only [bind, Option.bind]
  rw [if_pos lt, slot]
  rfl

theorem Mem.set_self (mem : Mem) (p : Ptr) (node : HashNode) :
    (mem.set p node).nodes p = some node :=
  Function.update_self ..

theorem Mem.set_of_ne {p q : Ptr} (ne : q ≠ p) {node : HashNode} :
    (mem.set p node).nodes q = mem.nodes q :=
  Function.update_of_ne ne _ _

def HashNode.uncounted (node : HashNode) : HashNode := { node with list.counter := 0 }

/-- The entries are the same up to their counters. -/
structure Mem.Recounts (mem' mem : Mem) : Prop where
  nodes : ∀ p, (mem'.nodes p).map HashNode.uncounted = (mem.nodes p).map HashNode.uncounted
  fresh : mem'.fresh = mem.fresh

namespace Mem.Recounts

theorem refl (mem : Mem) : mem.Recounts mem := ⟨fun _ => rfl, rfl⟩

theorem symm (recounts : mem'.Recounts mem) : mem.Recounts mem' :=
  ⟨fun p => (recounts.nodes p).symm, recounts.fresh.symm⟩

theorem node (recounts : mem'.Recounts mem) {p : Ptr} {node : HashNode}
    (here : mem.nodes p = some node) :
    ∃ counter, mem'.nodes p = some { node with list.counter := counter } := by
  have same := recounts.nodes p
  rw [here] at same
  obtain ⟨node', there, eq⟩ := Option.map_eq_some_iff.mp same
  obtain ⟨⟨addr, counter⟩, tag, key, value⟩ := node'
  cases node
  cases eq
  exact ⟨counter, there⟩

theorem of_count {p : Ptr} (counted : mem.count p = some mem') : mem'.Recounts mem := by
  obtain ⟨node, at_, eq⟩ := Option.bind_eq_some_iff.mp counted
  cases eq
  refine ⟨fun q => ?_, rfl⟩
  by_cases same : q = p
  · subst same
    rw [set_self, at_]
    rfl
  · rw [set_of_ne same]

theorem keepsKeys (recounts : mem'.Recounts mem) : mem'.KeepsKeys mem := fun _ _ here =>
  let ⟨_, there⟩ := recounts.node here
  ⟨_, there, rfl⟩

end Mem.Recounts

/-- A lookup only counts, and gives no node before one that is the head. -/
theorem hotringGet_cases {r : GetResult} (got : hotringGet mem h key = some (mem', h', r)) :
    ∃ i tag, hashCode h key = some (i, tag) ∧ mem'.Recounts mem ∧
      (h.slots i = none ∧ h' = h ∧ r.prevp = none ∨
        ∃ hd counter node, h.slots i = some hd ∧ h' = h.setSlot i (some ⟨hd.node, counter⟩) ∧
          mem.nodes hd.node = some node ∧
          (node.key = key → r.prevp = none)) := by
  obtain ⟨⟨i, tag⟩, code, got⟩ := Option.bind_eq_some_iff.mp got
  refine ⟨i, tag, code, ?_⟩
  dsimp only at got
  split at got
  · split at got
    · rename_i slot
      cases got
      exact ⟨.refl mem, Or.inl ⟨slot, rfl, rfl⟩⟩
    · rename_i hd slot
      obtain ⟨node, at_, got⟩ := Option.bind_eq_some_iff.mp got
      split at got
      · obtain ⟨mem₁, counted, got⟩ := Option.bind_eq_some_iff.mp got
        cases got
        exact ⟨.of_count counted, Or.inr ⟨hd, _, node, slot, rfl, at_, fun _ => rfl⟩⟩
      · rename_i ne
        obtain ⟨found, searched, got⟩ := Option.bind_eq_some_iff.mp got
        split at got
        · obtain ⟨mem₁, counted, got⟩ := Option.bind_eq_some_iff.mp got
          cases got
          exact ⟨.of_count counted, Or.inr ⟨hd, _, node, slot, rfl, at_, fun eq => absurd eq ne⟩⟩
        · cases got
          exact ⟨.refl mem, Or.inr ⟨hd, _, node, slot, rfl, at_, fun _ => rfl⟩⟩
  · cases got

/-- The lookup of a key gives the node with the key and the value, and the node before it on the way
from the head. -/
def Finds (s : Mem × Hash) (key value : BitVec 64) : Prop :=
  ∃ mem' h' r i tag ring pre p post, hotringGet s.1 s.2 key = some (mem', h', r) ∧
    hashCode s.2 key = some (i, tag) ∧
    Bucket s.1 s.2 i ring ∧ ring = pre ++ p :: post ∧ s.1.contents p = (key, value) ∧
    r.ret = (if pre = [] then .accessHot else .accessCold) ∧ r.nodep = some p ∧
      r.prevp = pre.getLast?

def Misses (s : Mem × Hash) (key : BitVec 64) : Prop :=
  ∃ mem' h', hotringGet s.1 s.2 key = some (mem', h', ⟨.notFound, none, none⟩)

theorem Good.nodup_keys (good : Good mem h log i ring) (distinct : (log.map Prod.fst).Nodup) :
    (ring.map mem.key).Nodup := by
  have nodup : ((ring.map mem.contents).map Prod.fst).Nodup :=
    ((good.contents.map Prod.fst).nodup_iff).mpr (distinct.sublist (List.filter_sublist.map _))
  rw [List.map_map] at nodup
  have eq : ring.map mem.key = (ring.map (Prod.fst ∘ mem.contents)).map BitVec.toNat := by
    rw [List.map_map]; rfl
  rw [eq]
  exact nodup.map fun _ _ => BitVec.eq_of_toNat_eq

theorem Good.finds {s : Mem × Hash} (good : Good s.1 s.2 log i ring) (bounded : s.1.Bounded)
    (lt : i < s.2.size) (distinct : (log.map Prod.fst).Nodup) (sorted : CycSorted s.1.key ring)
    (code : hashCode s.2 key = some (i, tag)) (mem_ : (key, value) ∈ log) : Finds s key value := by
  have entry : (key, value) ∈ entries s.2 log i := List.mem_filter.mpr ⟨mem_, by rw [code]; simp⟩
  obtain ⟨p, here, contents⟩ := List.mem_map.mp (good.contents.symm.subset entry)
  obtain ⟨pre, post, rfl⟩ := List.append_of_mem here
  have keyEq : s.1.key p = key.toNat := by
    have := congrArg Prod.fst contents
    rw [Mem.key]
    exact congrArg BitVec.toNat this
  obtain ⟨mem', h', got⟩ := hotringGet_ring good bounded code lt
  rw [← keyEq, sorted.complete (good.nodup_keys distinct) pre p post rfl] at got
  refine ⟨mem', h', _, i, tag, _, pre, p, post, got, code, good.bucket, rfl, contents, ?_⟩
  rcases List.eq_nil_or_concat' pre with rfl | ⟨pre, prev, rfl⟩
  · exact ⟨rfl, rfl, rfl⟩
  · rw [List.getLast?_concat, if_neg (List.append_ne_nil_of_right_ne_nil pre
      (List.cons_ne_nil prev []))]
    exact ⟨rfl, rfl, rfl⟩

theorem Sound.misses {s : Mem × Hash} (sound : Sound n k s log) (defined : Defined n k) (le : k ≤ n)
    (absent : key ∉ log.map Prod.fst) : Misses s key := by
  obtain ⟨inv, rfl, rfl, size⟩ := sound
  obtain ⟨i, tag, code, lt, _⟩ := hashCode_spec defined le key
  rw [← size] at lt
  rcases inv.slots i with ⟨slot, _⟩ | ⟨ring, good⟩
  · exact ⟨_, _, hotringGet_empty slot code lt⟩
  · obtain ⟨mem', h', got⟩ := hotringGet_ring good inv.bounded code lt
    cases found : lookup s.1.key key.toNat ring with
    | none =>
      rw [found] at got
      exact ⟨_, _, got⟩
    | some pair =>
      obtain ⟨here, keyEq⟩ := mem_of_lookup found
      have entry := good.contents.subset (List.mem_map_of_mem here)
      have same : (s.1.contents pair.1).1 = key := BitVec.eq_of_toNat_eq keyEq
      exact absurd (List.mem_map.mpr ⟨_, List.mem_of_mem_filter entry, same⟩) absent

/-- Every inserted key is found with its value, and no other one. -/
def AllFound (s : Mem × Hash) (log : List (BitVec 64 × BitVec 64)) : Prop :=
  (∀ e ∈ log, Finds s e.1 e.2) ∧ ∀ key, key ∉ log.map Prod.fst → Misses s key

/-- The rings are sorted by key from the smallest key around. -/
def KeysSorted (s : Mem × Hash) : Prop := ∀ i ring, Bucket s.1 s.2 i ring → CycSorted s.1.key ring

def moves (turns : List (Nat × Nat)) : List Op := turns.map fun t => .moveHead t.1 t.2

theorem Sound.turns {s : Mem × Hash} (sound : Sound n k s log) (turns : List (Nat × Nat)) :
    ∃ h', (moves turns).foldlM step s = some (s.1, h') ∧ Sound n k (s.1, h') log ∧
      (∀ i, s.2.slots i = none → h'.slots i = none) ∧
      ∀ i ring, Bucket s.1 s.2 i ring → ∃ ring', Bucket s.1 h' i ring' ∧ ring ~r ring' := by
  induction turns generalizing s with
  | nil => exact ⟨s.2, rfl, sound, fun _ => id, fun i ring bucket => ⟨ring, bucket, .refl _⟩⟩
  | cons t turns ih =>
    obtain ⟨h₁, done, sound₁, empty, turn⟩ := sound.turn t.1 t.2
    obtain ⟨h', run, sound', empty', later⟩ := ih sound₁
    refine ⟨h', ?_, sound', fun i none => empty' i (empty i none), fun i ring bucket => ?_⟩
    · rw [moves, List.map_cons, List.foldlM_cons, done]
      exact run
    · obtain ⟨ring₁, bucket₁, turned, _⟩ := turn i ring bucket
      obtain ⟨ring', bucket', turned'⟩ := later i ring₁ bucket₁
      exact ⟨ring', bucket', turned.trans turned'⟩

theorem Sound.allFound {s : Mem × Hash} (sound : Sound n k s log) (defined : Defined n k)
    (le : k ≤ n) (distinct : (log.map Prod.fst).Nodup)
    (sorted : KeysSorted s) : AllFound s log := by
  refine ⟨fun e mem_ => ?_, fun key absent => sound.misses defined le absent⟩
  obtain ⟨inv, rfl, rfl, size⟩ := sound
  obtain ⟨i, tag, code, lt, _⟩ := hashCode_spec defined le e.1
  rcases inv.slots i with ⟨_, none⟩ | ⟨ring, good⟩
  · have : e ∈ entries s.2 log i := List.mem_filter.mpr ⟨mem_, by rw [code]; simp⟩
    rw [none] at this
    cases this
  · exact good.finds inv.bounded (by rwa [size]) distinct (sorted i ring good.bucket) code mem_

theorem Sound.good_of_bucket {s : Mem × Hash} (sound : Sound n k s log)
    (bucket : Bucket s.1 s.2 i ring) : Good s.1 s.2 log i ring := by
  rcases sound.inv.slots i with ⟨none, _⟩ | ⟨ring', good⟩
  · obtain ⟨hd, rest, slot, _⟩ := bucket
    rw [none] at slot
    cases slot
  · rwa [← good.bucket.unique bucket]

/-- What is found in a ring is where the search has found it. -/
theorem Sound.complete {s : Mem × Hash} (sound : Sound n k s log) (defined : Defined n k)
    (le : k ≤ n) (distinct : (log.map Prod.fst).Nodup) (found : AllFound s log)
    (bucket : Bucket s.1 s.2 i ring) : Complete s.1.key ring := by
  have good := sound.good_of_bucket bucket
  obtain ⟨inv, rfl, rfl, size⟩ := sound
  rintro pre p post rfl
  obtain ⟨node, at_, code⟩ := good.nodes p (by simp)
  have entry : s.1.contents p ∈ log :=
    List.mem_of_mem_filter (good.contents.subset (List.mem_map_of_mem (by simp)))
  have keyEq : (s.1.contents p).1 = node.key := by rw [Mem.contents, Mem.node_eq at_]
  obtain ⟨mem', h', r, i', tag', ring', pre', p', post', got, code', bucket', eq, contents, _,
    nodep, prevp⟩ := found.1 _ entry
  rw [keyEq] at code' got
  cases code.symm.trans code'
  rw [bucket'.unique bucket] at eq
  have keys := good.nodup_keys distinct
  have same : p' = p := by
    refine List.inj_on_of_nodup_map keys (by rw [eq]; simp) (by simp) ?_
    exact congrArg (fun e : BitVec 64 × BitVec 64 => e.1.toNat) contents
  subst same
  have nodup := List.Nodup.of_map _ keys
  have before : pre = pre' := by
    have out := List.nodup_middle.mp nodup
    rw [List.nodup_cons, List.mem_append, not_or] at out
    exact ((List.append_cons_inj_of_notMem out.1.1 out.1.2).mp eq).1
  obtain ⟨i₁, tag₁, code₁, lt, _⟩ := hashCode_spec defined le node.key
  cases code.symm.trans code₁
  obtain ⟨_, _, got'⟩ := hotringGet_ring good inv.bounded code (by rwa [size])
  cases got.symm.trans got'
  have at_key : s.1.key p' = node.key.toNat := by rw [Mem.key, Mem.node_eq at_]
  rw [at_key, result_found nodep, prevp, before]

/-- Keys that agree above bit `n` are in the order of their tags. -/
theorem Good.sorted_keys {s : Mem × Hash} (good : Good s.1 s.2 log i ring)
    (defined : Defined s.2.n s.2.k) (le : s.2.k ≤ s.2.n)
    (agree : ∀ e ∈ log, ∀ e' ∈ log, e.1.toNat / 2 ^ s.2.n = e'.1.toNat / 2 ^ s.2.n) :
    CycSorted s.1.key ring := by
  have parts : ∀ p ∈ ring, (s.1.contents p) ∈ log ∧
      s.1.key p % 2 ^ s.2.n = s.2.range * i + s.1.tag p := by
    intro p here
    obtain ⟨node, at_, code⟩ := good.nodes p here
    obtain ⟨i', tag', code', _, eq, _⟩ := hashCode_spec defined le node.key
    cases code.symm.trans code'
    refine ⟨List.mem_of_mem_filter (good.contents.subset (List.mem_map_of_mem here)), ?_⟩
    rw [Mem.key, Mem.tag, Mem.node_eq at_]
    exact eq
  refine good.sorted.mono fun p memP q memQ tags => ?_
  have top := agree _ (parts p memP).1 _ (parts q memQ).1
  have lowP := (parts p memP).2
  have lowQ := (parts q memQ).2
  have splitP := Nat.div_add_mod (s.1.key p) (2 ^ s.2.n)
  have splitQ := Nat.div_add_mod (s.1.key q) (2 ^ s.2.n)
  change s.1.key p / 2 ^ s.2.n = s.1.key q / 2 ^ s.2.n at top
  rw [← splitP, ← splitQ, top, lowP, lowQ]
  omega

/-- From every position of the heads every inserted key is found, with the node before it, and no
other key, exactly when the rings are sorted by key. Keys that agree above bit `n` are. -/
theorem allFound_iff_keysSorted (n k : Nat) (lt : k < n) (defined : n < 64 ∧ n - k < 32 ∧ k < 31)
    (ops : List Op) (distinct : ((inserted ops []).map Prod.fst).Nodup) :
    ∃ s, run n k ops = some s ∧
      ((∀ turns, ∃ s', run n k (ops ++ moves turns) = some s' ∧ AllFound s' (inserted ops [])) ↔
        KeysSorted s) ∧
      ((∀ e ∈ inserted ops [], ∀ e' ∈ inserted ops [], e.1.toNat / 2 ^ n = e'.1.toNat / 2 ^ n) →
        KeysSorted s) := by
  obtain ⟨s, ran, sound⟩ := sound_run defined lt.le ops
  have continued : ∀ turns, run n k (ops ++ moves turns) = (moves turns).foldlM step s := by
    intro turns
    obtain ⟨h, alloc, run'⟩ := Option.bind_eq_some_iff.mp ran
    rw [run, alloc, Option.bind_some, List.foldlM_append, run']
    rfl
  refine ⟨s, ran, ⟨fun all i ring bucket => ?_, fun sorted turns => ?_⟩,
    fun agree i ring bucket => ?_⟩
  · refine (complete_iff_cycSorted ((sound.good_of_bucket bucket).nodup_keys distinct)).mp
      fun ring' rot => ?_
    obtain ⟨hd, rest, _, rfl, links⟩ := id bucket
    have links' := links.of_isRotated rot
    cases ring' with
    | nil => exact links'.elim
    | cons b tail =>
      -- the head is moved to `b`, and the search is complete from there
      obtain ⟨j, reach⟩ := links.exists_follow (rot.mem_iff.mpr List.mem_cons_self)
      obtain ⟨h', done, sound', _, turn⟩ := sound.turn i j
      obtain ⟨ring₁, bucket₁, rot₁, first⟩ := turn i _ bucket
      obtain ⟨s', ran', found⟩ := all [(i, j)]
      rw [continued, moves, List.map_singleton, List.foldlM_cons, done] at ran'
      cases ran'
      have head := first rfl hd.node rfl
      rw [reach] at head
      obtain ⟨hd₁, rest₁, _, rfl, links₁⟩ := id bucket₁
      cases head
      rw [links'.unique links₁]
      exact sound'.complete defined lt.le distinct found bucket₁
  · obtain ⟨h', done, sound', empty, turned⟩ := sound.turns turns
    refine ⟨(s.1, h'), (continued turns).trans done,
      sound'.allFound defined lt.le distinct fun i ring' bucket' => ?_⟩
    rcases sound.inv.slots i with ⟨none, _⟩ | ⟨ring, good⟩
    · obtain ⟨hd, rest, slot, _⟩ := bucket'
      rw [empty i none] at slot
      cases slot
    · obtain ⟨ring₁, bucket₁, rot⟩ := turned i ring good.bucket
      rw [← bucket₁.unique bucket']
      exact (sorted i ring good.bucket).of_isRotated rot
  · have good := sound.good_of_bucket bucket
    obtain ⟨_, rfl, rfl, _⟩ := sound
    exact good.sorted_keys defined lt.le agree

/-- Keys 0 to 3 share a ring, whose head is moved twice. -/
theorem allFound_iff_keysSorted_moved : ∃ s,
    run 10 8 ([.insert 3 1, .insert 0 2, .insert 2 3, .insert 1 4, .insert 5 5] ++ moves
      [(0, 2), (1, 0), (0, 1)]) = some s ∧
      AllFound s [(5, 5), (1, 4), (2, 3), (0, 2), (3, 1)] := by
  obtain ⟨s, _, iff, small⟩ := allFound_iff_keysSorted 10 8 (by decide) (by decide)
    [.insert 3 1, .insert 0 2, .insert 2 3, .insert 1 4, .insert 5 5] (by decide)
  exact iff.mpr (small (by simp [inserted])) [(0, 2), (1, 0), (0, 1)]

/-- Key 1025 comes to stand between 0 and 1, and the search for 1 stops there. -/
theorem key_behind_larger_not_found : ([0, 1, 1025] : List (BitVec 64)).Nodup ∧
    ((run 10 8 [.insert 0 1, .insert 1 1, .insert 1025 1]).bind fun s =>
      (hotringGet s.1 s.2 1).map fun r => r.2.2.ret) =
      some .notFound :=
  ⟨by decide, by decide +kernel⟩

end

end Xcache.HotRing
