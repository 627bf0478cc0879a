import Xcache.HotRing.Lookup

/-! `hotring_delete` takes a node out of its ring when it is found behind the head. When it is the
head, the whole bucket goes. -/

namespace Xcache.HotRing
open Function

def hotringHeadFree (h : Hash) (key : BitVec 64) : Option Hash := do
  let (hashIndex, _) ← hashCode h key
  return h.setSlot hashIndex none

def hotringDelete (mem : Mem) (h : Hash) (key : BitVec 64) : Option (Mem × Hash × Bool) := do
  let (mem, h, got) ← hotringGet mem h key
  if got.ret = .notFound then return (mem, h, false)
  else
    let target ← got.nodep
    let node ← mem.nodes target
    match got.prevp with
    | some prev =>
      let mem ← mem.listDel prev node.list.addr
      return (mem.free target, h, true)
    | none =>
      let h ← hotringHeadFree h key
      return (mem.free target, h, true)

def without (key : BitVec 64) (log : List (BitVec 64 × BitVec 64)) : List (BitVec 64 × BitVec 64) :=
  log.filter fun e => e.1 ≠ key

section
variable {mem mem' : Mem} {h h' : Hash} {s : Mem × Hash} {log : List (BitVec 64 × BitVec 64)}
  {key tag value : BitVec 64}
  {i j n k : Nat} {ring ring' pre post : List Ptr} {p prev : Ptr}

theorem Hash.setSlot_self (h : Hash) (i : Nat) (head : Option Head) :
    (h.setSlot i head).slots i = head :=
  update_self ..

theorem Hash.setSlot_of_ne (ne : j ≠ i) {head : Option Head} :
    (h.setSlot i head).slots j = h.slots j :=
  update_of_ne ne _ _

theorem without_of_absent (absent : key ∉ log.map Prod.fst) : without key log = log := by
  refine List.filter_eq_self.mpr fun e mem_ => decide_eq_true ?_
  rintro rfl
  exact absent (List.mem_map_of_mem mem_)

theorem entries_without (h : Hash) (key : BitVec 64) (log : List (BitVec 64 × BitVec 64))
    (i : Nat) :
    entries h (without key log) i = without key (entries h log i) := by
  rw [entries, without, without, entries, List.filter_filter, List.filter_filter]
  simp only [Bool.and_comm]

theorem entries_without_of_ne (code : hashCode h key = some (i, tag)) (ne : j ≠ i) :
    entries h (without key log) j = entries h log j := by
  rw [entries_without]
  refine without_of_absent fun mem_ => ?_
  obtain ⟨e, here, rfl⟩ := List.mem_map.mp mem_
  have := (List.mem_filter.mp here).2
  rw [code] at this
  exact ne (Option.some_inj.mp (of_decide_eq_true this)).symm

/-- One bucket has lost its entries with the key. -/
theorem Inv.drop (inv : Inv mem h log) (code : hashCode h key = some (i, tag))
    (bounded : mem'.Bounded) (same : hashCode h' = hashCode h)
    (slots : ∀ j, j ≠ i → h'.slots j = h.slots j)
    (nodes : ∀ j ring, j ≠ i → Good mem h log j ring → ∀ p ∈ ring, mem'.nodes p = mem.nodes p)
    (here : h'.slots i = none ∧ entries h' (without key log) i = [] ∨
      ∃ ring, Good mem' h' (without key log) i ring) :
    Inv mem' h' (without key log) := by
  refine ⟨fun j => ?_, bounded⟩
  by_cases at_ : j = i
  · exact at_ ▸ here
  · have kept : entries h' (without key log) j = entries h log j := by
      rw [entries, same, ← entries, entries_without_of_ne code at_]
    rcases inv.slots j with ⟨slot, none⟩ | ⟨ring, good⟩
    · exact Or.inl ⟨(slots j at_).trans slot, kept.trans none⟩
    · exact Or.inr ⟨ring, good.frame (nodes j ring at_ good) (slots j at_) same kept⟩

theorem Good.recount (good : Good mem h log i ring) (recounts : mem'.Recounts mem)
    (slots : (h'.slots i).map Head.node = (h.slots i).map Head.node)
    (same : hashCode h' = hashCode h) : Good mem' h' log i ring := by
  have node : ∀ p ∈ ring, ∃ node counter, mem.nodes p = some node ∧
    mem'.nodes p = some { node with list.counter := counter } ∧
      hashCode h node.key = some (i, node.tag) := by
    intro p here
    obtain ⟨node, at_, code⟩ := good.nodes p here
    obtain ⟨counter, there⟩ := recounts.node at_
    exact ⟨node, counter, at_, there, code⟩
  obtain ⟨hd, rest, slot, eq, links⟩ := good.bucket
  rw [slot] at slots
  obtain ⟨hd', slot', first⟩ := Option.map_eq_some_iff.mp slots
  refine ⟨⟨hd', rest, slot', by rw [first, eq], links.congr fun p here => ?_⟩, fun p here => ?_, ?_,
    good.sorted.congr fun p here => ?_⟩
  · obtain ⟨node, _, at_, there, _⟩ := node p here
    rw [Mem.next, Mem.next, at_, there]
    rfl
  · obtain ⟨node, _, _, there, code⟩ := node p here
    exact ⟨_, there, by rw [same]; exact code⟩
  · have kept : ∀ p ∈ ring, mem'.contents p = mem.contents p := by
      intro p here
      obtain ⟨node, _, at_, there, _⟩ := node p here
      rw [Mem.contents, Mem.contents, Mem.node_eq at_, Mem.node_eq there]
    rw [List.map_congr_left kept, entries, same, ← entries]
    exact good.contents
  · obtain ⟨node, _, at_, there, _⟩ := node p here
    rw [Mem.tag, Mem.tag, Mem.node_eq at_, Mem.node_eq there]

theorem Mem.Recounts.bounded (recounts : mem'.Recounts mem)
    (bounded : mem.Bounded) : mem'.Bounded := by
  intro p some
  rw [recounts.fresh]
  refine bounded p fun none => some ?_
  have := recounts.nodes p
  rw [none] at this
  exact Option.map_eq_none_iff.mp this

theorem Sound.get {r : GetResult} (sound : Sound n k s log)
    (got : hotringGet s.1 s.2 key = some (mem', h', r)) :
    Sound n k (mem', h') log ∧ hashCode h' = hashCode s.2 ∧
      (∀ i, s.2.slots i = none → h'.slots i = none) ∧
      ∀ i ring, Good s.1 s.2 log i ring → Good mem' h' log i ring := by
  obtain ⟨i, tag, code, recounts, cases_⟩ := hotringGet_cases got
  have shape : h'.n = s.2.n ∧ h'.k = s.2.k ∧ h'.size = s.2.size ∧
      ∀ j, (h'.slots j).map Head.node = (s.2.slots j).map Head.node := by
    rcases cases_ with ⟨_, rfl, _⟩ | ⟨hd, counter, _, slot, rfl, _⟩
    · exact ⟨rfl, rfl, rfl, fun _ => rfl⟩
    · refine ⟨rfl, rfl, rfl, fun j => ?_⟩
      by_cases same : j = i
      · subst same
        rw [slot, Hash.setSlot_self]
        rfl
      · rw [Hash.setSlot_of_ne same]
  obtain ⟨n_eq, k_eq, size_eq, slots⟩ := shape
  have same : hashCode h' = hashCode s.2 := by
    funext key
    unfold hashCode
    rw [n_eq, k_eq]
  have empty : ∀ i, s.2.slots i = none → h'.slots i = none := by
    intro i none
    have := slots i
    rw [none] at this
    exact Option.map_eq_none_iff.mp this
  have goods : ∀ i ring, Good s.1 s.2 log i ring → Good mem' h' log i ring :=
    fun i ring good => good.recount recounts (slots i) same
  refine ⟨⟨⟨fun j => ?_, recounts.bounded sound.inv.bounded⟩, n_eq.trans sound.n_eq,
    k_eq.trans sound.k_eq, size_eq.trans sound.size_eq⟩, same, empty, goods⟩
  rcases sound.inv.slots j with ⟨slot, none⟩ | ⟨ring, good⟩
  · exact Or.inl ⟨empty j slot, by rw [entries, same, ← entries, none]⟩
  · exact Or.inr ⟨ring, goods j ring good⟩

/-- What is left of a ring holds what is left of the entries. -/
theorem Good.contents_without (good : Good mem h log i (pre ++ p :: post))
    (distinct : (log.map Prod.fst).Nodup) (at_ : (mem.contents p).1 = key) :
    ((pre ++ post).map mem.contents).Perm (entries h (without key log) i) := by
  have nodup : ((pre ++ p :: post).map fun q => (mem.contents q).1).Nodup := by
    have := ((good.contents.map Prod.fst).nodup_iff).mpr
      (distinct.sublist (List.filter_sublist.map _))
    rwa [List.map_map] at this
  have others : ∀ q ∈ pre ++ post, (mem.contents q).1 ≠ key := by
    intro q here eq
    have out := (List.perm_middle.map fun q => (mem.contents q).1).nodup_iff.mp nodup
    rw [List.map_cons, List.nodup_cons] at out
    exact out.1 (List.mem_map.mpr ⟨q, here, eq.trans at_.symm⟩)
  rw [entries_without]
  have filtered := good.contents.filter fun e => e.1 ≠ key
  have kept : ∀ l : List Ptr, (∀ q ∈ l, (mem.contents q).1 ≠ key) →
      (l.map mem.contents).filter (fun e => e.1 ≠ key) = l.map mem.contents := by
    intro l ne
    refine List.filter_eq_self.mpr fun e here => ?_
    obtain ⟨q, there, rfl⟩ := List.mem_map.mp here
    exact decide_eq_true (ne q there)
  rw [List.map_append, List.map_cons, List.filter_append, List.filter_cons_of_neg (by simp [at_]),
    kept pre fun q here => others q (List.mem_append_left _ here), kept post fun q here =>
      others q (List.mem_append_right _ here),
    ← List.map_append] at filtered
  exact filtered

theorem not_mem_of_nodup (nodup : (pre ++ prev :: p :: post).Nodup) : p ∉ pre ++ prev :: post := by
  rw [← List.singleton_append, ← List.append_assoc, List.nodup_middle,
    List.nodup_cons, List.append_assoc] at nodup
  exact nodup.1

/-- Node `p` is taken out behind `prev`, and the rest of the memory stays. -/
structure Unlinks (prev p : Ptr) (mem after : Mem) : Prop where
  gone : after.nodes p = none
  behind : ∃ node next, mem.nodes prev = some node ∧ mem.next p = some next ∧
    after.nodes prev = some { node with list.addr := next }
  elsewhere : ∀ q, q ≠ prev → q ≠ p → after.nodes q = mem.nodes q

theorem unlinks_listDel {node prevNode : HashNode} (ne : prev ≠ p) (here : mem.nodes p = some node)
    (last : mem.nodes prev = some prevNode) :
    Unlinks prev p mem ((mem.set prev { prevNode with list.addr := node.list.addr }).free p) where
  gone := update_self ..
  behind := ⟨prevNode, node.list.addr, last, by rw [Mem.next, here]; rfl,
    (update_of_ne ne _ _).trans (update_self ..)⟩
  elsewhere := fun _ other gone => (update_of_ne gone _ _).trans
    (update_of_ne other _ _)

/-- Another node keeps all but its link. -/
theorem Unlinks.node {after : Mem} {q : Ptr} {node : HashNode} (unlinks : Unlinks prev p mem after)
    (ne : q ≠ p) (here : mem.nodes q = some node) :
    ∃ list, after.nodes q = some { node with list := list } := by
  by_cases same : q = prev
  · subst same
    obtain ⟨node', next, last, _, there⟩ := unlinks.behind
    cases last.symm.trans here
    exact ⟨_, there⟩
  · exact ⟨node.list, (unlinks.elsewhere q same ne).trans here⟩

theorem Good.unlink {after : Mem} (good : Good mem h log i (pre ++ prev :: p :: post))
    (unlinks : Unlinks prev p mem after) (distinct : (log.map Prod.fst).Nodup)
    (at_ : (mem.contents p).1 = key) :
    Good after h (without key log) i (pre ++ prev :: post) := by
  obtain ⟨hd, rest, slot, eq, links⟩ := good.bucket
  have out := not_mem_of_nodup links.nodup
  have within : ∀ q ∈ pre ++ prev :: post, ∃ node list, mem.nodes q = some node ∧
    after.nodes q = some { node with list := list } ∧ hashCode h node.key = some (i, node.tag) := by
    intro q mem_
    obtain ⟨node, here, code⟩ := good.nodes q (by simp at mem_ ⊢; tauto)
    obtain ⟨list, there⟩ := unlinks.node (fun same => out (same ▸ mem_)) here
    exact ⟨node, list, here, there, code⟩
  have kept : ∀ q ∈ pre ++ prev :: post, after.contents q = mem.contents q ∧
      after.tag q = mem.tag q := by
    intro q mem_
    obtain ⟨node, list, here, there, _⟩ := within q mem_
    rw [Mem.contents, Mem.contents, Mem.tag, Mem.tag, Mem.node_eq here, Mem.node_eq there]
    exact ⟨rfl, rfl⟩
  have ring : Ring after.next (pre ++ prev :: post) := by
    refine links.remove ?_ fun q other gone => by
      rw [Mem.next, unlinks.elsewhere q other gone, Mem.next]
    obtain ⟨node, next, _, link, there⟩ := unlinks.behind
    rw [link, Mem.next, there]
    rfl
  have first : ∃ rest', pre ++ prev :: post = hd.node :: rest' := by
    cases pre with
    | nil => exact ⟨post, by cases eq; rfl⟩
    | cons a pre => exact ⟨pre ++ prev :: post, by cases eq; rfl⟩
  obtain ⟨rest', eq'⟩ := first
  refine ⟨⟨hd, rest', slot, eq', ring⟩, fun q mem_ => ?_, ?_, ?_⟩
  · obtain ⟨node, list, _, there, code⟩ := within q mem_
    exact ⟨_, there, code⟩
  · rw [List.map_congr_left fun q mem_ => (kept q mem_).1]
    rw [← List.singleton_append, ← List.append_assoc] at good ⊢
    exact good.contents_without distinct at_
  · refine CycSorted.congr ?_ fun q mem_ => (kept q mem_).2
    exact good.sorted.sublist (((List.sublist_cons_self p post).cons_cons prev).append_left pre)

theorem Sound.unlink (sound : Sound n k (mem, h) log) (distinct : (log.map Prod.fst).Nodup)
    (good : Good mem h log i (pre ++ prev :: p :: post)) (code : hashCode h key = some (i, tag))
    (at_ : (mem.contents p).1 = key) :
    ∃ node mem', mem.nodes p = some node ∧ mem.listDel prev node.list.addr = some mem' ∧
      Sound n k (mem'.free p, h) (without key log) := by
  obtain ⟨node, here, _⟩ := good.nodes p (by simp)
  obtain ⟨prevNode, last, _⟩ := good.nodes prev (by simp)
  have ne : prev ≠ p := by
    rintro rfl
    obtain ⟨_, _, _, _, links⟩ := good.bucket
    exact not_mem_of_nodup links.nodup (by simp)
  have unlinks := unlinks_listDel ne here last
  refine ⟨node, _, here, by rw [Mem.listDel, last]; rfl, ?_⟩
  refine ⟨sound.inv.drop code (fun q some => ?_) rfl (fun _ _ => rfl)
    (fun j ring' ne_ goodJ q mem_ => ?_)
    (Or.inr ⟨_, good.unlink unlinks distinct at_⟩), sound.n_eq, sound.k_eq, sound.size_eq⟩
  · refine sound.inv.bounded q fun none => ?_
    by_cases gone : q = p
    · subst gone
      exact some unlinks.gone
    · by_cases same : q = prev
      · subst same
        cases last.symm.trans none
      · exact some ((unlinks.elsewhere q same gone).trans none)
  · have out := good.disjoint goodJ ne_ mem_
    refine unlinks.elsewhere q ?_ ?_ <;> rintro rfl <;> exact out (by simp)

theorem Sound.clear (sound : Sound n k (mem, h) log) (distinct : (log.map Prod.fst).Nodup)
    (good : Good mem h log i [p]) (code : hashCode h key = some (i, tag))
    (at_ : (mem.contents p).1 = key) :
    Sound n k (mem.free p, h.setSlot i none) (without key log) := by
  refine ⟨sound.inv.drop code (fun q some => ?_) rfl (fun j ne => Hash.setSlot_of_ne ne)
    (fun j ring ne goodJ q mem_ => ?_)
    (Or.inl ⟨Hash.setSlot_self .., ?_⟩), sound.n_eq, sound.k_eq, sound.size_eq⟩
  · refine sound.inv.bounded q fun none => some ?_
    by_cases gone : q = p
    · subst gone
      exact update_self ..
    · exact (update_of_ne gone _ _).trans none
  · refine update_of_ne ?_ _ _
    rintro rfl
    exact good.disjoint goodJ ne mem_ (by simp)
  · have left : (([] ++ [] : List Ptr).map mem.contents).Perm (entries h (without key log) i) :=
      good.contents_without distinct at_
    exact left.symm.eq_nil

/-- The key is at the head of a ring with more nodes. -/
def HeadOfMore (s : Mem × Hash) (key : BitVec 64) : Prop :=
  ∃ i p q rest, Bucket s.1 s.2 i (p :: q :: rest) ∧ (s.1.contents p).1 = key

/-- `hotring_delete` says whether the key was there, and leaves all other keys with their values and
no more. -/
def DeletesExactly (s : Mem × Hash) (log : List (BitVec 64 × BitVec 64)) (key : BitVec 64) : Prop :=
  ∃ mem' h' deleted, hotringDelete s.1 s.2 key = some (mem', h', deleted) ∧
    (deleted = true ↔ key ∈ log.map Prod.fst) ∧ AllFound (mem', h') (without key log)

theorem Sound.delete (sound : Sound n k s log) (defined : Defined n k) (le : k ≤ n)
    (distinct : (log.map Prod.fst).Nodup) (found : AllFound s log) (fits : ¬ HeadOfMore s key) :
    ∃ mem' h' deleted, hotringDelete s.1 s.2 key = some (mem', h', deleted) ∧
      (deleted = true ↔ key ∈ log.map Prod.fst) ∧
      Sound n k (mem', h') (without key log) := by
  by_cases present : key ∈ log.map Prod.fst
  · obtain ⟨⟨_, value⟩, entry, rfl⟩ := List.mem_map.mp present
    obtain ⟨mem', h', r, i, tag, _, pre, p, post, got, code, bucket, rfl, contents, ret,
      nodep, prevp⟩ := found.1 _ entry
    obtain ⟨sound', same, _, goods⟩ := sound.get got
    have good := goods _ _ (sound.good_of_bucket bucket)
    have at_ : (mem'.contents p).1 = (s.1.contents p).1 := by
      obtain ⟨_, _, _, recounts, _⟩ := hotringGet_cases got
      obtain ⟨node, here, _⟩ := (sound.good_of_bucket bucket).nodes p (by simp)
      obtain ⟨_, there⟩ := recounts.node here
      rw [Mem.contents, Mem.contents, Mem.node_eq here, Mem.node_eq there]
    rw [contents] at at_
    rw [← same] at code
    have seen : r.ret ≠ .notFound := by
      rw [ret]
      split <;> decide
    unfold hotringDelete
    rw [got]
    dsimp only [bind, Option.bind]
    rw [if_neg seen, nodep, prevp]
    dsimp only
    rcases List.eq_nil_or_concat' pre with rfl | ⟨pre, prev, rfl⟩
    · have alone : post = [] := by
        cases post with
        | nil => rfl
        | cons q post => exact absurd ⟨i, p, q, post, bucket, by rw [contents]⟩ fits
      subst alone
      obtain ⟨node, here, _⟩ := good.nodes p (by simp)
      rw [here]
      dsimp only [List.getLast?_nil]
      rw [hotringHeadFree, code]
      exact ⟨_, _, _, rfl, by simpa using present, sound'.clear distinct good code at_⟩
    · rw [List.append_assoc, List.singleton_append] at good
      obtain ⟨node, mem₁, here, unlinked, sound''⟩ := sound'.unlink distinct good code at_
      rw [here, List.getLast?_concat]
      dsimp only
      rw [unlinked]
      exact ⟨_, _, _, rfl, by simpa using present, sound''⟩
  · obtain ⟨mem', h', got⟩ := sound.misses defined le present
    refine ⟨mem', h', false, ?_, by simpa using present, ?_⟩
    · unfold hotringDelete
      rw [got]
      rfl
    · rw [without_of_absent present]
      exact (sound.get got).1

theorem Sound.not_deletesExactly (sound : Sound n k s log) (defined : Defined n k) (le : k ≤ n)
    (distinct : (log.map Prod.fst).Nodup) (more : HeadOfMore s key) :
    ¬ DeletesExactly s log key := by
  rintro ⟨mem', h', deleted, done, _, found⟩
  obtain ⟨i, p, q, rest, bucket, rfl⟩ := more
  have good := sound.good_of_bucket bucket
  have keys := good.nodup_keys distinct
  obtain ⟨nodeP, hereP, codeP⟩ := good.nodes p (by simp)
  obtain ⟨nodeQ, hereQ, codeQ⟩ := good.nodes q (by simp)
  have keyP : (s.1.contents p).1 = nodeP.key := by rw [Mem.contents, Mem.node_eq hereP]
  have keyQ : (s.1.contents q).1 = nodeQ.key := by rw [Mem.contents, Mem.node_eq hereQ]
  have lt : i < s.2.size := by
    obtain ⟨_, rfl, rfl, size⟩ := sound
    obtain ⟨i', _, code, lt, _⟩ := hashCode_spec defined le nodeP.key
    cases codeP.symm.trans code
    rwa [size]
  rw [keyP] at done found
  obtain ⟨mem₁, h₁, got⟩ := hotringGet_ring good sound.inv.bounded codeP lt
  have first : lookup s.1.key nodeP.key.toNat (p :: q :: rest) = some (p, none) := by
    rw [lookup, if_pos]
    rw [Mem.key, Mem.node_eq hereP]
  rw [first] at got
  obtain ⟨sound₁, same, _, goods⟩ := sound.get got
  obtain ⟨node₁, here₁, _⟩ := (goods _ _ good).nodes p (by simp)
  unfold hotringDelete at done
  rw [got] at done
  dsimp only [bind, Option.bind, result] at done
  rw [if_neg (by decide), here₁] at done
  dsimp only at done
  rw [hotringHeadFree, same, codeP] at done
  cases done
  -- the key of `q` is looked for in the bucket that has been emptied
  have entry : s.1.contents q ∈ without nodeP.key log := by
    refine List.mem_filter.mpr ⟨List.mem_of_mem_filter
      (good.contents.subset (List.mem_map_of_mem (by simp))), decide_eq_true ?_⟩
    intro eq
    refine (List.nodup_cons.mp keys).1 (List.mem_cons.mpr (Or.inl ?_))
    rw [Mem.key, Mem.node_eq hereP, Mem.key, Mem.node_eq hereQ, ← keyQ, eq]
  obtain ⟨_, _, r, _, _, _, _, _, _, got', _, _, _, _, _, nodep, _⟩ := found.1 _ entry
  have lt₁ : i < (h₁.setSlot i none).size := by
    have : h₁.size = s.2.size := sound₁.size_eq.trans sound.size_eq.symm
    exact lt.trans_eq this.symm
  rw [keyQ, hotringGet_empty (h₁.setSlot_self i none) (by rw [← same] at codeQ; exact codeQ) lt₁]
    at got'
  cases got'
  cases nodep

/-- After insertions of distinct keys below `2 ^ n` and moves of the heads, the deletion of a key is
exact unless the key is at the head of a ring with more nodes. -/
theorem deletesExactly_iff_not_headOfMore (n k : Nat) (lt : k < n)
    (defined : n < 64 ∧ n - k < 32 ∧ k < 31) (ops : List Op)
    (distinct : ((inserted ops []).map Prod.fst).Nodup)
    (small : ∀ e ∈ inserted ops [], e.1.toNat < 2 ^ n) (key : BitVec 64) :
    ∃ s, run n k ops = some s ∧ (DeletesExactly s (inserted ops []) key ↔ ¬ HeadOfMore s key) := by
  obtain ⟨s, ran, sound⟩ := sound_run defined lt.le ops
  refine ⟨s, ran, fun exact_ more => sound.not_deletesExactly defined lt.le distinct more exact_,
    fun fits => ?_⟩
  have sorted : ∀ {s log}, Sound n k s log → (∀ e ∈ log, e.1.toNat < 2 ^ n) → KeysSorted s := by
    intro s log sound small i ring bucket
    have good := sound.good_of_bucket bucket
    obtain ⟨_, rfl, rfl, _⟩ := sound
    refine good.sorted_keys defined lt.le fun e mem_ e' mem' => ?_
    rw [Nat.div_eq_of_lt (small e mem_), Nat.div_eq_of_lt (small e' mem')]
  have found := sound.allFound defined lt.le distinct (sorted sound small)
  obtain ⟨mem', h', deleted, done, reported, sound'⟩ :=
    sound.delete defined lt.le distinct found fits
  have sub : (without key (inserted ops [])).Sublist (inserted ops []) := List.filter_sublist
  exact ⟨mem', h', deleted, done, reported, sound'.allFound defined lt.le
    (distinct.sublist (sub.map _)) (sorted sound' fun e mem_ => small e (sub.subset mem_))⟩

/-- The key 5 is behind the head 4. -/
theorem deletesExactly_iff_not_headOfMore_cold :
    ∃ s, run 10 8 [.insert 4 1, .insert 5 2, .insert 6 3] = some s ∧
    DeletesExactly s [(6, 3), (5, 2), (4, 1)] 5 := by
  obtain ⟨s, ran, iff⟩ :=
    deletesExactly_iff_not_headOfMore 10 8 (by decide) (by decide) [.insert 4 1, .insert 5 2,
      .insert 6 3] (by decide) (by simp [inserted]) 5
  refine ⟨s, ran, iff.mpr ?_⟩
  rintro ⟨i, p, q, rest, bucket, eq⟩
  obtain ⟨s', ran', sound⟩ :=
    sound_run (n := 10) (k := 8) (by decide) (by decide) [.insert 4 1, .insert 5 2, .insert 6 3]
  cases ran.symm.trans ran'
  have code : hashCode s.2 5 = some (1, 1) := by
    rw [hashCode, sound.n_eq, sound.k_eq]
    rfl
  obtain ⟨node, at_, code'⟩ := (sound.good_of_bucket bucket).nodes p (by simp)
  rw [Mem.contents, Mem.node_eq at_] at eq
  dsimp only at eq
  rw [eq, code] at code'
  obtain ⟨hd, _, slot, ring, _⟩ := bucket
  cases ring
  rw [← (Prod.mk.inj (Option.some.inj code')).1] at slot
  have head : ((run 10 8 [.insert 4 1, .insert 5 2, .insert 6 3]).bind fun s =>
      (s.2.slots 1).bind fun hd => (s.1.nodes hd.node).map HashNode.key) =
        some 4 := by decide +kernel
  rw [ran, Option.bind_some, slot, Option.bind_some, at_, Option.map_some, eq] at head
  cases head

/-- The head 4 is deleted, and 5 with it. -/
theorem head_deletion_loses_ring :
    ((run 10 8 [.insert 4 1, .insert 5 2]).bind fun s => (hotringDelete s.1 s.2 4).bind fun r =>
    (hotringGet r.1 r.2.1 5).map fun g => (r.2.2, g.2.2.ret)) = some (true, .notFound) := by
  decide +kernel

end

end Xcache.HotRing
