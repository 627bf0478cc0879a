import Xcache.Lib.CyclicOrder
import Xcache.Lib.LinkedRing
import Xcache.Lib.Dyadic
import Xcache.HotRing.Table

/-! Every bucket of the table is one ring, sorted by tag from its smallest entry around, in every
run of insertions and of moves of the heads. -/

namespace Xcache.HotRing
open Function

namespace Mem

def node (mem : Mem) (p : Ptr) : HashNode := (mem.nodes p).getD ⟨⟨0, 0⟩, 0, 0, 0⟩

def tag (mem : Mem) (p : Ptr) : Nat := (mem.node p).tag.toNat

def contents (mem : Mem) (p : Ptr) : BitVec 64 × BitVec 64 := ((mem.node p).key, (mem.node p).value)

def Bounded (mem : Mem) : Prop := ∀ p, mem.nodes p ≠ none → p < mem.fresh

def KeepsKeys (mem' mem : Mem) : Prop :=
  ∀ p node, mem.nodes p = some node → ∃ node', mem'.nodes p = some node' ∧ node'.key = node.key

theorem node_eq {mem : Mem} {p : Ptr} {node : HashNode}
    (here : mem.nodes p = some node) : mem.node p = node := by
  rw [Mem.node, here]
  rfl

end Mem

def entries (h : Hash) (log : List (BitVec 64 × BitVec 64)) (i : Nat) :
    List (BitVec 64 × BitVec 64) :=
  log.filter fun e => (hashCode h e.1).map Prod.fst = some i

def Bucket (mem : Mem) (h : Hash) (i : Nat) (ring : List Ptr) : Prop :=
  ∃ head rest, h.slots i = some head ∧ ring = head.node :: rest ∧ Ring mem.next ring

/-- The ring of a bucket is determined. -/
theorem Bucket.unique {mem : Mem} {h : Hash} {i : Nat} {ring ring' : List Ptr}
    (bucket : Bucket mem h i ring) (bucket' : Bucket mem h i ring') : ring = ring' := by
  obtain ⟨hd, rest, slot, rfl, links⟩ := bucket
  obtain ⟨hd', rest', slot', rfl, links'⟩ := bucket'
  cases slot.symm.trans slot'
  rw [links.unique links']

/-- A ring with one node for each entry, in the order of the tags. -/
structure Good (mem : Mem) (h : Hash) (log : List (BitVec 64 × BitVec 64)) (i : Nat)
    (ring : List Ptr) : Prop where
  bucket : Bucket mem h i ring
  nodes : ∀ p ∈ ring, ∃ node, mem.nodes p = some node ∧ hashCode h node.key = some (i, node.tag)
  contents : (ring.map mem.contents).Perm (entries h log i)
  sorted : CycSorted mem.tag ring

structure Inv (mem : Mem) (h : Hash) (log : List (BitVec 64 × BitVec 64)) : Prop where
  slots : ∀ i, h.slots i = none ∧ entries h log i = [] ∨ ∃ ring, Good mem h log i ring
  bounded : mem.Bounded

section
variable {mem mem' : Mem} {h h' : Hash} {log : List (BitVec 64 × BitVec 64)}
  {key tag value : BitVec 64} {i j : Nat}
  {ring rest : List Ptr} {head prev y : Ptr} {f : Ptr → Nat}

theorem searchPlace_spec (path : Path mem.next prev rest head) (out : head ∉ rest)
    (nodes : ∀ p ∈ prev :: rest, ∃ node, mem.nodes p = some node ∧ f p = node.tag.toNat)
    (new : f y = tag.toNat) {fuel : Nat} (enough : rest.length < fuel) :
    ∃ m q last p, rest = m ++ q ∧ place f y prev rest = m ++ y :: q ∧
      (prev :: m).getLast? = some last ∧
      mem.next prev = some p ∧ searchPlace mem tag head fuel prev p = some last := by
  induction rest generalizing prev fuel with
  | nil =>
    obtain ⟨fuel, rfl⟩ := Nat.exists_eq_succ_of_ne_zero (Nat.ne_of_gt (Nat.zero_lt_of_lt enough))
    refine ⟨[], [], prev, head, rfl, rfl, rfl, path, ?_⟩
    rw [searchPlace, if_pos rfl]
  | cons c rest ih =>
    obtain ⟨fuel, rfl⟩ := Nat.exists_eq_succ_of_ne_zero (Nat.ne_of_gt (Nat.zero_lt_of_lt enough))
    obtain ⟨prevNode, herePrev, tagPrev⟩ := nodes prev List.mem_cons_self
    obtain ⟨nextNode, hereNext, tagNext⟩ := nodes c (List.mem_cons_of_mem _ List.mem_cons_self)
    have ne : c ≠ head := fun eq => out (eq ▸ List.mem_cons_self)
    have test : Between f prev y c ↔ nextNode.tag < prevNode.tag ∧
      (tag ≤ nextNode.tag ∨ prevNode.tag < tag) ∨ prevNode.tag < tag ∧ tag ≤ nextNode.tag := by
      unfold Between
      rw [tagPrev, tagNext, new]
      exact Iff.rfl
    by_cases between : Between f prev y c
    · refine ⟨[], c :: rest, prev, c, rfl, by rw [place, if_pos between]; rfl, rfl, path.1, ?_⟩
      rw [searchPlace, if_neg ne, herePrev, hereNext]
      dsimp only [bind, Option.bind]
      by_cases wrap : nextNode.tag < prevNode.tag ∧ (tag ≤ nextNode.tag ∨ prevNode.tag < tag)
      · rw [if_pos wrap]
      · rw [if_neg wrap, if_pos ((test.mp between).resolve_left wrap)]
    · obtain ⟨skipWrap, skipAscend⟩ := not_or.mp (mt test.mpr between)
      obtain ⟨m, q, last, p, eq, placed, lastEq, step, found⟩ :=
        ih path.2 (fun mem => out (List.mem_cons_of_mem _ mem))
        (fun p mem => nodes p (List.mem_cons_of_mem _ mem))
          (show rest.length < fuel by rw [List.length_cons] at enough; omega)
      refine ⟨c :: m, q, last, c, by rw [eq, List.cons_append], ?_, ?_, path.1, ?_⟩
      · rw [place, if_neg between, placed, List.cons_append]
      · rwa [List.getLast?_cons_cons]
      · rw [searchPlace, if_neg ne, herePrev, hereNext]
        dsimp only [bind, Option.bind]
        rw [if_neg skipWrap, if_neg skipAscend]
        rw [Mem.next, hereNext, Option.map_some, Option.some_inj] at step
        rw [step]
        exact found

def Mem.insertAfter (mem : Mem) (prev : Ptr) (prevNode : HashNode)
    (key tag value : BitVec 64) : Mem where
  nodes := update (update mem.nodes prev
    (some { prevNode with list.addr := mem.fresh })) mem.fresh
    (some ⟨⟨prevNode.list.addr, 1⟩, tag, key, value⟩)
  fresh := mem.fresh + 1

def Mem.insertAlone (mem : Mem) (key tag value : BitVec 64) : Mem where
  nodes := update mem.nodes mem.fresh (some ⟨⟨mem.fresh, 1⟩, tag, key, value⟩)
  fresh := mem.fresh + 1

theorem hashCreate_empty (lt : i < h.size) (slot : h.slots i = none) :
    hashCreate mem h i tag = some (mem.insertAlone 0 0 0, h.setSlot i (some ⟨mem.fresh, 0⟩),
      mem.fresh) := by
  unfold hashCreate
  rw [if_pos lt, slot]
  simp [Mem.hashNodeAlloc, Mem.set, Mem.insertAlone]

theorem insertEntries_alone :
    insertEntries (mem.insertAlone 0 0 0) mem.fresh key tag value =
      some (mem.insertAlone key tag value, 1) := by
  unfold insertEntries Mem.insertAlone
  simp [Mem.set]

theorem Mem.Bounded.ne_fresh (bounded : mem.Bounded) {p : Ptr} {node : HashNode}
    (here : mem.nodes p = some node) :
    p ≠ mem.fresh :=
  (bounded p (by rw [here]; exact Option.some_ne_none _)).ne

theorem Mem.Bounded.hashNodeAlloc (bounded : mem.Bounded) {p : Ptr} {node : HashNode}
    (here : mem.nodes p = some node) :
    mem.hashNodeAlloc.nodes p = some node :=
  (update_of_ne (bounded.ne_fresh here) _ _).trans here

theorem hashCreate_ring {node prevNode : HashNode} {hd : Head} (bounded : mem.Bounded)
    (lt : i < h.size) (slot : h.slots i = some hd) (first : mem.nodes hd.node = some node)
    (last : mem.nodes prev = some prevNode)
    (found : searchPlace mem.hashNodeAlloc tag hd.node mem.hashNodeAlloc.fresh hd.node
      node.list.addr = some prev) :
    hashCreate mem h i tag = some (mem.insertAfter prev prevNode 0 0 0, h, mem.fresh) := by
  have empty : mem.hashNodeAlloc.nodes mem.fresh = some ⟨⟨0, 0⟩, 0, 0, 0⟩ := update_self ..
  have ne := bounded.ne_fresh last
  unfold hashCreate
  rw [if_pos lt, slot]
  dsimp only [bind, Option.bind]
  rw [bounded.hashNodeAlloc first]
  dsimp only
  rw [found]
  dsimp only [Mem.listAdd, bind, Option.bind]
  rw [empty, bounded.hashNodeAlloc last]
  simp only [pure, Mem.set, Mem.insertAfter, update_of_ne ne.symm, update_self,
    update_comm ne, update_idem, Mem.hashNodeAlloc]

theorem insertEntries_after {prevNode : HashNode} :
    insertEntries (mem.insertAfter prev prevNode 0 0 0) mem.fresh key tag value =
      some (mem.insertAfter prev prevNode key tag value, 1) := by
  unfold insertEntries Mem.insertAfter
  simp [Mem.set]

theorem Good.frame {log' : List (BitVec 64 × BitVec 64)} (good : Good mem h log j ring)
    (nodes : ∀ p ∈ ring, mem'.nodes p = mem.nodes p) (slot : h'.slots j = h.slots j)
    (code : hashCode h' = hashCode h) (same : entries h' log' j = entries h log j) :
    Good mem' h' log' j ring := by
  have node : ∀ p ∈ ring, mem'.node p = mem.node p := fun p here => by
    rw [Mem.node, nodes p here, Mem.node]
  obtain ⟨hd, rest, at_, eq, links⟩ := good.bucket
  refine ⟨⟨hd, rest, slot.trans at_, eq, links.congr fun p here => by rw [Mem.next,
    nodes p here, Mem.next]⟩, ?_, ?_, ?_⟩
  · intro p here
    rw [nodes p here, code]
    exact good.nodes p here
  · rw [same, List.map_congr_left fun p here => by rw [Mem.contents, node p here, ← Mem.contents]]
    exact good.contents
  · exact good.sorted.congr fun p here => by rw [Mem.tag, node p here, Mem.tag]

theorem entries_cons (code : hashCode h key = some (i, tag)) (j : Nat) :
    entries h ((key, value) :: log) j = if j = i then (key, value) :: entries h log j else entries h
      log j := by
  unfold entries
  rw [List.filter_cons, code]
  simp [eq_comm]

/-- Nodes of different buckets are different. -/
theorem Good.disjoint {ring' : List Ptr} (good : Good mem h log i ring)
    (good' : Good mem h log j ring') (ne : j ≠ i) {p : Ptr} (here : p ∈ ring') : p ∉ ring := by
  intro there
  obtain ⟨node, at_, code⟩ := good'.nodes p here
  obtain ⟨node', at', code'⟩ := good.nodes p there
  cases at_.symm.trans at'
  cases code.symm.trans code'
  exact ne rfl

section
variable {prevNode : HashNode}

theorem insertAfter_nodes {p : Ptr} (ne : p ≠ mem.fresh) (other : p ≠ prev) :
    (mem.insertAfter prev prevNode key tag value).nodes p = mem.nodes p :=
  (update_of_ne ne _ _).trans (update_of_ne other _ _)

theorem insertAfter_prev (ne : prev ≠ mem.fresh) :
    (mem.insertAfter prev prevNode key tag value).nodes prev = some { prevNode with
      list.addr := mem.fresh } :=
  (update_of_ne ne _ _).trans (update_self ..)

theorem insertAfter_fresh (mem : Mem) (prev : Ptr) (prevNode : HashNode)
    (key tag value : BitVec 64) : (mem.insertAfter prev prevNode key tag value).nodes mem.fresh =
    some ⟨⟨prevNode.list.addr, 1⟩, tag, key, value⟩ :=
  update_self ..

theorem insertAfter_old (key tag value : BitVec 64) {p : Ptr} {node : HashNode}
    (bounded : mem.Bounded) (last : mem.nodes prev = some prevNode)
    (here : mem.nodes p = some node) : ∃ list,
      (mem.insertAfter prev prevNode key tag value).nodes p = some { node with list := list } := by
  by_cases same : p = prev
  · subst same
    cases last.symm.trans here
    exact ⟨_, insertAfter_prev (bounded.ne_fresh last)⟩
  · exact ⟨node.list, (insertAfter_nodes (bounded.ne_fresh here) same).trans here⟩

theorem insertAfter_bounded (bounded : mem.Bounded) (last : mem.nodes prev = some prevNode) :
    (mem.insertAfter prev prevNode key tag value).Bounded := by
  intro p some
  by_cases new : p = mem.fresh
  · exact new ▸ Nat.lt_succ_self _
  · by_cases same : p = prev
    · subst same
      exact (bounded p (by rw [last]; exact Option.some_ne_none _)).trans (Nat.lt_succ_self _)
    · rw [insertAfter_nodes new same] at some
      exact (bounded p some).trans (Nat.lt_succ_self _)

end

theorem Good.length_le (good : Good mem h log i ring) (bounded : mem.Bounded) :
    ring.length ≤ mem.fresh := by
  obtain ⟨hd, rest, _, rfl, links⟩ := good.bucket
  have sub : (hd.node :: rest).toFinset ⊆ Finset.range mem.fresh := by
    intro p here
    obtain ⟨node, at_, _⟩ := good.nodes p (List.mem_toFinset.mp here)
    exact Finset.mem_range.mpr (bounded p (by rw [at_]; exact Option.some_ne_none _))
  have := Finset.card_le_card sub
  rwa [List.toFinset_card_of_nodup links.nodup, Finset.card_range] at this

theorem Good.insert (value : BitVec 64) (good : Good mem h log i ring) (bounded : mem.Bounded)
    (code : hashCode h key = some (i, tag)) (lt : i < h.size) :
    ∃ prev prevNode ring', mem.nodes prev = some prevNode ∧ prev ∈ ring ∧
      hashCreate mem h i tag = some (mem.insertAfter prev prevNode 0 0 0, h, mem.fresh) ∧
      Good (mem.insertAfter prev prevNode key tag value) h ((key, value) :: log) i ring' := by
  obtain ⟨hd, rest, slot, rfl, links⟩ := good.bucket
  have old : ∀ p ∈ hd.node :: rest, ∃ node, mem.nodes p = some node ∧ p ≠ mem.fresh := by
    intro p here
    obtain ⟨node, at_, _⟩ := good.nodes p here
    exact ⟨node, at_, bounded.ne_fresh at_⟩
  let f : Ptr → Nat := fun p => if p = mem.fresh then tag.toNat else mem.tag p
  have path : Path mem.hashNodeAlloc.next hd.node rest hd.node := by
    refine links.1.congr fun p here => ?_
    obtain ⟨node, at_, _⟩ := old p here
    rw [Mem.next, Mem.next, bounded.hashNodeAlloc at_, at_]
  have tags : ∀ p ∈ hd.node :: rest, ∃ node, mem.hashNodeAlloc.nodes p = some node ∧
      f p = node.tag.toNat := by
    intro p here
    obtain ⟨node, at_, ne⟩ := old p here
    refine ⟨node, bounded.hashNodeAlloc at_, ?_⟩
    dsimp only [f]
    rw [if_neg ne, Mem.tag, Mem.node_eq at_]
  have short : rest.length < mem.hashNodeAlloc.fresh := by
    have := good.length_le bounded
    rw [List.length_cons] at this
    exact this.trans (Nat.le_succ _)
  obtain ⟨m, q, prev, p, eq, placed, last, step, found⟩ := searchPlace_spec (y := mem.fresh) path
    (List.nodup_cons.mp links.2).1 tags (if_pos rfl) short
  have within : prev ∈ hd.node :: rest := by
    rw [eq, ← List.cons_append]
    exact List.mem_append_left q (List.mem_of_getLast? last)
  obtain ⟨node, first, _⟩ := old hd.node List.mem_cons_self
  obtain ⟨prevNode, atPrev, nePrev⟩ := old prev within
  rw [Mem.next, bounded.hashNodeAlloc first, Option.map_some, Option.some_inj] at step
  subst step
  refine ⟨prev, prevNode, hd.node :: (m ++ mem.fresh :: q), atPrev, within,
    hashCreate_ring bounded lt slot first atPrev found, ?_⟩
  rw [← placed]
  have perm : (hd.node :: place f mem.fresh hd.node rest).Perm (mem.fresh :: hd.node :: rest) :=
    (place_perm.cons _).trans (.swap ..)
  have entry : ∀ p ∈ hd.node :: rest, (mem.insertAfter prev prevNode key tag value).contents p =
    mem.contents p ∧ (mem.insertAfter prev prevNode key tag value).tag p = mem.tag p := by
    intro p here
    obtain ⟨node, at_, _⟩ := old p here
    obtain ⟨list, at'⟩ := insertAfter_old key tag value bounded atPrev at_
    rw [Mem.contents, Mem.contents, Mem.tag, Mem.tag, Mem.node_eq at_, Mem.node_eq at']
    exact ⟨rfl, rfl⟩
  have new := insertAfter_fresh mem prev prevNode key tag value
  refine ⟨⟨hd, _, slot, rfl, ?_, ?_⟩, fun p here => ?_, ?_, ?_⟩
  · rw [placed]
    have fresh : mem.fresh ∉ hd.node :: (m ++ q) := fun here => by
      rw [← eq] at here
      obtain ⟨_, _, ne⟩ := old _ here
      exact ne rfl
    refine Path.insert (by rw [← eq]; exact links.1) (by rw [← eq]; exact links.2) fresh last ?_ ?_
      fun p neC neN => ?_
    · rw [Mem.next, insertAfter_prev nePrev]
      rfl
    · rw [Mem.next, new, Mem.next, atPrev]
      rfl
    · rw [Mem.next, insertAfter_nodes neN neC, Mem.next]
  · refine perm.nodup_iff.mpr (List.nodup_cons.mpr ⟨fun here => ?_, links.2⟩)
    obtain ⟨_, _, ne⟩ := old _ here
    exact ne rfl
  · rcases List.mem_cons.mp (perm.subset here) with rfl | there
    · exact ⟨_, new, code⟩
    · obtain ⟨node, at_, code'⟩ := good.nodes p there
      obtain ⟨list, at'⟩ := insertAfter_old key tag value bounded atPrev at_
      exact ⟨_, at', code'⟩
  · rw [entries_cons code, if_pos rfl]
    refine (perm.map _).trans ?_
    rw [List.map_cons, List.map_congr_left fun p here => (entry p here).1, Mem.contents,
      Mem.node_eq new]
    exact good.contents.cons _
  · refine CycSorted.congr (f := f) (CycSorted.place (good.sorted.congr fun p here => ?_))
      fun p here => ?_
    · obtain ⟨_, _, ne⟩ := old p here
      exact if_neg ne
    · rcases List.mem_cons.mp (perm.subset here) with rfl | there
      · rw [Mem.tag, Mem.node_eq new]
        exact (if_pos rfl).symm
      · obtain ⟨_, _, ne⟩ := old p there
        exact (entry p there).2.trans (if_neg ne).symm

theorem Inv.of_bucket {ring' : List Ptr} (inv : Inv mem h log)
    (code : hashCode h key = some (i, tag)) (bounded : mem'.Bounded)
    (same : hashCode h' = hashCode h) (slots : ∀ j, j ≠ i → h'.slots j = h.slots j)
    (nodes : ∀ j ring, j ≠ i → Good mem h log j ring → ∀ p ∈ ring, mem'.nodes p = mem.nodes p)
    (good : Good mem' h' ((key, value) :: log) i ring') : Inv mem' h' ((key, value) :: log) := by
  refine ⟨fun j => ?_, bounded⟩
  by_cases here : j = i
  · exact Or.inr ⟨ring', here ▸ good⟩
  · have kept : entries h' ((key, value) :: log) j = entries h log j := by
      rw [entries, same, ← entries, entries_cons code, if_neg here]
    rcases inv.slots j with ⟨slot, none⟩ | ⟨ring, goodJ⟩
    · exact Or.inl ⟨(slots j here).trans slot, kept.trans none⟩
    · exact Or.inr ⟨ring, goodJ.frame (nodes j ring here goodJ) (slots j here) same kept⟩

theorem Inv.create (value : BitVec 64) (inv : Inv mem h log) (code : hashCode h key = some (i, tag))
    (lt : i < h.size) :
    ∃ mem₁ h' mem', hashCreate mem h i tag = some (mem₁, h', mem.fresh) ∧
      insertEntries mem₁ mem.fresh key tag value = some (mem', 1) ∧
        Inv mem' h' ((key, value) :: log) ∧
      (h'.n = h.n ∧ h'.k = h.k ∧ h'.size = h.size) ∧ (h.slots i ≠ none → h' = h) ∧
        mem'.KeepsKeys mem ∧
      ∃ node, mem'.nodes mem.fresh = some node ∧ node.key = key := by
  rcases inv.slots i with ⟨slot, none⟩ | ⟨ring, good⟩
  · have new : (mem.insertAlone key tag value).nodes mem.fresh =
      some ⟨⟨mem.fresh, 1⟩, tag, key, value⟩ := update_self ..
    have old : ∀ p, p ≠ mem.fresh → (mem.insertAlone key tag value).nodes p = mem.nodes p :=
      fun p ne => update_of_ne ne _ _
    have good : Good (mem.insertAlone key tag value) (h.setSlot i (some ⟨mem.fresh, 0⟩))
        ((key, value) :: log) i [mem.fresh] := by
      refine ⟨⟨⟨mem.fresh, 0⟩, [], update_self .., rfl, ?_, List.nodup_singleton _⟩,
        fun p here => ?_, ?_, .of_sorted (List.pairwise_singleton _ _)⟩
      · rw [Path, Mem.next, new]
        rfl
      · rw [List.mem_singleton.mp here]
        exact ⟨_, new, code⟩
      · change List.Perm _ (entries h _ i)
        rw [entries_cons code, if_pos rfl, none, List.map_singleton, Mem.contents, Mem.node_eq new]
    refine ⟨_, _, _, hashCreate_empty lt slot, insertEntries_alone, ?_, ⟨rfl, rfl, rfl⟩,
      fun some => absurd slot some,
      fun p node here => ⟨node, (old p (inv.bounded.ne_fresh here)).trans here, rfl⟩, _, new, rfl⟩
    refine inv.of_bucket code (fun p some => ?_) rfl (fun j ne => update_of_ne ne _ _)
      (fun j ring _ good p here => ?_) good
    · by_cases same : p = mem.fresh
      · exact same ▸ Nat.lt_succ_self _
      · exact (inv.bounded p (by rwa [old p same] at some)).trans (Nat.lt_succ_self _)
    · obtain ⟨node, at_, _⟩ := good.nodes p here
      exact old p (inv.bounded.ne_fresh at_)
  · obtain ⟨prev, prevNode, ring', last, within, created, good'⟩ :=
      good.insert value inv.bounded code lt
    have keeps : (mem.insertAfter prev prevNode key tag value).KeepsKeys mem := by
      intro p node here
      obtain ⟨list, there⟩ := insertAfter_old key tag value inv.bounded last here
      exact ⟨_, there, rfl⟩
    refine ⟨_, _, _, created, insertEntries_after, ?_, ⟨rfl, rfl, rfl⟩, fun _ => rfl, keeps, _,
      insertAfter_fresh .., rfl⟩
    refine inv.of_bucket code (insertAfter_bounded inv.bounded last) rfl (fun _ _ => rfl)
      (fun j other ne goodJ p here => ?_) good'
    obtain ⟨node, at_, _⟩ := goodJ.nodes p here
    refine insertAfter_nodes (inv.bounded.ne_fresh at_) ?_
    rintro rfl
    exact good.disjoint goodJ ne here within

/-- The parameters for which the shifts are defined and the slots can be allocated. -/
def Defined (n k : Nat) : Prop := n < 64 ∧ n - k < 32 ∧ k < 31

instance (n k : Nat) : Decidable (Defined n k) :=
  inferInstanceAs (Decidable (n < 64 ∧ n - k < 32 ∧ k < 31))

def Hash.range (h : Hash) : Nat := (((1#32) <<< (h.n - h.k)).signExtend 64).toNat

theorem hashCode_spec (defined : Defined h.n h.k) (le : h.k ≤ h.n) (key : BitVec 64) :
    ∃ i tag, hashCode h key = some (i, tag) ∧ i < 2 ^ h.k ∧
      key.toNat % 2 ^ h.n = h.range * i + tag.toNat ∧
      tag.toNat < h.range := by
  obtain ⟨small, narrow, _⟩ := defined
  have low : (key % (1#64 <<< h.n)).toNat = key.toNat % 2 ^ h.n := by
    rw [BitVec.toNat_umod, BitVec.toNat_shiftLeft, BitVec.toNat_ofNat, Nat.shiftLeft_eq]
    congr 1
    rw [Nat.one_mod_two_pow_eq_one.mpr (by decide), Nat.one_mul]
    exact Nat.mod_eq_of_lt (Nat.pow_lt_pow_right (by decide) small)
  refine ⟨_, _, if_pos ⟨small, narrow⟩, ?_, ?_, ?_⟩
  · rw [BitVec.toNat_udiv, low]
    have bound := Nat.mod_lt key.toNat (Nat.two_pow_pos h.n)
    rcases Nat.lt_or_ge (h.n - h.k) 31 with lt | ge
    · rw [toNat_int_shift lt]
      refine Nat.div_lt_of_lt_mul ?_
      rwa [← Nat.pow_add, Nat.sub_add_cancel le]
    · -- a range above every value, from the sign
      rw [show h.n - h.k = 31 by omega]
      have : key.toNat % 2 ^ h.n < 2 ^ 63 :=
        bound.trans_le (Nat.pow_le_pow_right (by decide) (by omega))
      rw [Nat.div_eq_of_lt (this.trans (by decide))]
      exact Nat.two_pow_pos _
  · have parts := Nat.div_add_mod (key % (1#64 <<< h.n)).toNat h.range
    rw [low] at parts
    rw [BitVec.toNat_udiv, BitVec.toNat_umod (x := key % (1#64 <<< h.n)), low]
    exact parts.symm
  · rw [BitVec.toNat_umod (x := key % (1#64 <<< h.n))]
    refine Nat.mod_lt _ ?_
    rcases Nat.lt_or_ge (h.n - h.k) 31 with lt | ge
    · rw [toNat_int_shift lt]
      exact Nat.two_pow_pos _
    · rw [show h.n - h.k = 31 by omega]
      decide

end

/-- What is done to a table: an insertion, or a move of a head along its ring. -/
inductive Op
  | insert (key value : BitVec 64)
  | moveHead (index steps : Nat)

def step (s : Mem × Hash) : Op → Option (Mem × Hash)
  | .insert key value => (hotringInsert s.1 s.2 key value).map fun r => (r.1, r.2.1)
  | .moveHead index steps =>
    match s.2.slots index with
    | none => some s
    | some head =>
      (follow s.1.next steps head.node).map fun p => (s.1, s.2.setSlot index (some ⟨p, 0⟩))

def run (n k : Nat) (ops : List Op) : Option (Mem × Hash) :=
  (hotringAlloc n k).bind fun h => ops.foldlM step (Mem.start, h)

def inserted : List Op → List (BitVec 64 × BitVec 64) → List (BitVec 64 × BitVec 64)
  | [], log => log
  | .insert key value :: ops, log => inserted ops ((key, value) :: log)
  | .moveHead _ _ :: ops, log => inserted ops log

section
variable {mem : Mem} {h : Hash} {log : List (BitVec 64 × BitVec 64)} {n k : Nat}

/-- The invariant, for a table with given parameters. -/
structure Sound (n k : Nat) (s : Mem × Hash) (log : List (BitVec 64 × BitVec 64)) : Prop where
  inv : Inv s.1 s.2 log
  n_eq : s.2.n = n
  k_eq : s.2.k = k
  size_eq : s.2.size = 2 ^ k

theorem Sound.insert {s : Mem × Hash} (sound : Sound n k s log) (defined : Defined n k) (le : k ≤ n)
    (key value : BitVec 64) :
    ∃ mem' h', hotringInsert s.1 s.2 key value = some (mem', h', 0) ∧
      Sound n k (mem', h') ((key, value) :: log) := by
  obtain ⟨inv, rfl, rfl, size⟩ := sound
  obtain ⟨i, tag, code, lt, _⟩ := hashCode_spec defined le key
  obtain ⟨mem₁, h', mem', created, entered, inv', ⟨n', k', size'⟩, _⟩ :=
    inv.create value code (by rwa [size])
  refine ⟨mem', h', ?_, inv', n', k', size'.trans size⟩
  unfold hotringInsert
  rw [code]
  dsimp only [bind, Option.bind]
  rw [created]
  dsimp only
  rw [entered]
  rfl

theorem Good.turn {i : Nat} {ring ring' : List Ptr} {rest : List Ptr} (good : Good mem h log i ring)
    (head : Head) (turned : ring ~r ring') (eq : ring' = head.node :: rest)
    (links : Ring mem.next ring') : Good mem (h.setSlot i (some head)) log i ring' where
  bucket := ⟨head, rest, update_self .., eq, links⟩
  nodes p here := good.nodes p (turned.mem_iff.mpr here)
  contents := (turned.perm.symm.map _).trans good.contents
  sorted := good.sorted.of_isRotated turned

theorem Sound.turn {s : Mem × Hash} (sound : Sound n k s log) (index steps : Nat) :
    ∃ h', step s (.moveHead index steps) = some (s.1, h') ∧ Sound n k (s.1, h') log ∧
      (∀ i, s.2.slots i = none → h'.slots i = none) ∧
      ∀ i ring, Bucket s.1 s.2 i ring → ∃ ring', Bucket s.1 h' i ring' ∧ ring ~r ring' ∧
        (i = index → ∀ p, ring.head? = some p → ring'.head? = follow s.1.next steps p) := by
  obtain ⟨mem, h⟩ := s
  rw [step]
  dsimp only
  rcases sound.inv.slots index with ⟨slot, _⟩ | ⟨ring, good⟩
  · rw [slot]
    refine ⟨_, rfl, sound, fun _ => id, fun i ring bucket => ⟨ring, bucket, .refl _, ?_⟩⟩
    rintro rfl p _
    obtain ⟨head, rest, slot', _⟩ := bucket
    rw [slot] at slot'
    cases slot'
  · obtain ⟨head, rest, slot, rfl, links⟩ := good.bucket
    obtain ⟨p, tail, steps, turned, links'⟩ := links.follow steps
    have good' := good.turn ⟨p, 0⟩ turned rfl links'
    rw [slot]
    dsimp only
    rw [steps]
    have kept : ∀ j, j ≠ index → (h.setSlot index (some ⟨p, 0⟩)).slots j = h.slots j :=
      fun j ne => update_of_ne ne _ _
    refine ⟨_, rfl, ⟨⟨fun j => ?_, sound.inv.bounded⟩, sound.n_eq, sound.k_eq, sound.size_eq⟩,
      fun i none => ?_, fun i ring bucket => ?_⟩
    · by_cases same : j = index
      · subst same
        exact Or.inr ⟨p :: tail, good'⟩
      · rcases sound.inv.slots j with ⟨slotJ, none⟩ | ⟨ringJ, goodJ⟩
        · exact Or.inl ⟨(kept j same).trans slotJ, none⟩
        · exact Or.inr ⟨ringJ, goodJ.frame (fun _ _ => rfl) (kept j same) rfl rfl⟩
    · have other : i ≠ index := by
        rintro rfl
        rw [slot] at none
        cases none
      exact (kept i other).trans none
    · by_cases same : i = index
      · subst same
        rw [bucket.unique good.bucket]
        refine ⟨p :: tail, good'.bucket, turned, fun _ q first => ?_⟩
        cases first
        exact steps.symm
      · obtain ⟨head', rest', slot', eq, links''⟩ := bucket
        exact ⟨ring, ⟨head', rest', (kept i same).trans slot', eq, links''⟩, .refl _,
          fun eq => absurd eq same⟩

theorem Sound.run {s : Mem × Hash} (sound : Sound n k s log) (defined : Defined n k) (le : k ≤ n)
    (ops : List Op) :
    ∃ s', ops.foldlM step s = some s' ∧ Sound n k s' (inserted ops log) := by
  induction ops generalizing s log with
  | nil => exact ⟨s, rfl, sound⟩
  | cons op ops ih =>
    cases op with
    | insert key value =>
      obtain ⟨mem', h', done, sound'⟩ := sound.insert defined le key value
      obtain ⟨s', run, sound''⟩ := ih sound'
      refine ⟨s', ?_, sound''⟩
      rw [List.foldlM_cons, step, done]
      exact run
    | moveHead index steps =>
      obtain ⟨h', done, sound', _⟩ := sound.turn index steps
      obtain ⟨s', run, sound''⟩ := ih sound'
      refine ⟨s', ?_, sound''⟩
      rw [List.foldlM_cons, done]
      exact run

theorem sound_start (n k : Nat) : Sound n k (Mem.start, ⟨n, k, 1 <<< k, fun _ => none⟩) [] :=
  ⟨⟨fun _ => Or.inl ⟨rfl, rfl⟩, fun _ some => absurd rfl some⟩, rfl,
    rfl, by rw [Nat.shiftLeft_eq, Nat.one_mul]⟩

theorem sound_run (defined : Defined n k) (le : k ≤ n) (ops : List Op) :
    ∃ s, run n k ops = some s ∧ Sound n k s (inserted ops []) := by
  rw [run, hotringAlloc, if_pos defined.2.2]
  exact (sound_start n k).run defined le ops

/-- Each bucket is empty without insertions, or one ring with a node for each insertion into it,
whose tags do not decrease from the right place around. -/
def RingsSorted (s : Mem × Hash) (log : List (BitVec 64 × BitVec 64)) : Prop :=
  ∀ i < s.2.size, s.2.slots i = none ∧ entries s.2 log i = [] ∨
    ∃ ring, Bucket s.1 s.2 i ring ∧ (∀ p ∈ ring, ∃ node, s.1.nodes p = some node ∧
      hashCode s.2 node.key = some (i, node.tag)) ∧
      (ring.map s.1.contents).Perm (entries s.2 log i) ∧ ∃ around, ring ~r around ∧
        around.Pairwise fun p q => s.1.tag p ≤ s.1.tag q

theorem Sound.ringsSorted {s : Mem × Hash} (sound : Sound n k s log) : RingsSorted s log := by
  intro i _
  refine (sound.inv.slots i).imp id fun ⟨ring, good⟩ => ⟨ring, good.bucket, good.nodes,
    good.contents, ?_⟩
  obtain ⟨a, b, rfl, sorted⟩ := good.sorted
  exact ⟨b ++ a, List.isRotated_append, sorted⟩

/-- Every run of insertions and moves of heads keeps the rings sorted, exactly when the shifts are
defined and the slots can be allocated. -/
theorem run_ringsSorted_iff (n k : Nat) (lt : k < n) :
    (∀ ops, ∃ s, run n k ops = some s ∧ RingsSorted s (inserted ops [])) ↔ n < 64 ∧ n - k < 32 ∧
      k < 31 := by
  constructor
  · intro all
    obtain ⟨s, ran, _⟩ := all [.insert 0 1]
    rw [run, hotringAlloc] at ran
    split at ran
    · rename_i slots
      by_contra undefined
      have none : hashCode ⟨n, k, 1 <<< k, fun _ => none⟩ 0 = none :=
        if_neg fun both => undefined ⟨both.1, both.2, slots⟩
      rw [Option.bind_some, List.foldlM_cons, step, hotringInsert, none] at ran
      cases ran
    · cases ran
  · intro defined ops
    obtain ⟨s, ran, sound⟩ := sound_run defined lt.le ops
    exact ⟨s, ran, sound.ringsSorted⟩

theorem run_ringsSorted_iff_nbits :
    ∃ s, run 10 8 [.insert 5 1, .insert 3 2, .moveHead 1 1, .insert 4 3] = some s ∧
    RingsSorted s [(4, 3), (3, 2), (5, 1)] :=
  (run_ringsSorted_iff 10 8 (by decide)).mpr (by decide)
    [.insert 5 1, .insert 3 2, .moveHead 1 1, .insert 4 3]

/-- With 33 bits and two buckets the tag range is `1 << 32`. -/
theorem wide_tags_undefined : 1 ≤ 1 ∧ 1 < 33 ∧ run 33 1 [.insert 2 1] = none :=
  ⟨by decide, by decide, rfl⟩

end

end Xcache.HotRing
